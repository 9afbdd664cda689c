import Xv6Rpi.Base
import Xv6Rpi.Lib.Dyadic
import Xv6Rpi.Lib.DLinked
import Xv6Rpi.Buddy.Model
import Xv6Rpi.Buddy.Marks
import Xv6Rpi.Buddy.Blocks
import Xv6Rpi.Buddy.Init
import Xv6Rpi.Buddy.Heap
import Xv6Rpi.Buddy.Lists
import Xv6Rpi.Buddy.FreeLists
import Xv6Rpi.Buddy.Boot
import Xv6Rpi.Vm.Kpt
import Xv6Rpi.Lib.Writes
import Xv6Rpi.Fs.Disk
import Xv6Rpi.Fs.Log
import Xv6Rpi.Fs.Crash
import Xv6Rpi.Lib.Prog
import Xv6Rpi.Lib.Session
import Xv6Rpi.Fs.Format
import Xv6Rpi.Fs.Kern
import Xv6Rpi.Fs.Inode
import Xv6Rpi.Fs.View
import Xv6Rpi.Fs.Blocks
import Xv6Rpi.Fs.Own
import Xv6Rpi.Fs.Table
import Xv6Rpi.Fs.Bmap
import Xv6Rpi.Fs.Content
import Xv6Rpi.Fs.Update
import Xv6Rpi.Fs.Trunc
import Xv6Rpi.Fs.Files
import Xv6Rpi.Fs.Dir
import Xv6Rpi.Fs.Sysfile
import Xv6Rpi.Fs.Trans
import Xv6Rpi.Fs.Calls
import Xv6Rpi.Lib.Trace
import Xv6Rpi.Sched.Table
import Xv6Rpi.Sched.Machine
import Xv6Rpi.Sched.Step
import Xv6Rpi.Sched.Cpus
import Xv6Rpi.Sched.Nesting
import Xv6Rpi.Sched.Interrupts
import Xv6Rpi.Sched.Lifecycle
import Xv6Rpi.Sched.Wakeup
import Xv6Rpi.Sched.Kill
import Xv6Rpi.Syscall.Args
import Xv6Rpi.Syscall.Confine
import Xv6Rpi.Lib.Ring
import Xv6Rpi.Bio.Cache
import Xv6Rpi.Bio.Machine
import Xv6Rpi.Bio.Coherence
import Xv6Rpi.Bio.Runs
import Xv6Rpi.Icache.Runs
import Xv6Rpi.Uvm.Word
import Xv6Rpi.Uvm.Space
import Xv6Rpi.Uvm.Resize
import Xv6Rpi.Uvm.Copy
import Xv6Rpi.Uvm.Stack
import Xv6Rpi.Uvm.Oom
import Xv6Rpi.Lib.Judge
import Xv6Rpi.Fs.Frame
import Xv6Rpi.Fs.Slots
import Xv6Rpi.Fs.Filewrite
import Xv6Rpi.Lib.Slotted
import Xv6Rpi.Fs.Peek
import Xv6Rpi.Fs.Entries
import Xv6Rpi.Fs.Lookup
import Xv6Rpi.Fs.Directory
import Xv6Rpi.Fs.Elements
import Xv6Rpi.Fs.Walk
import Xv6Rpi.Fs.Refs
import Xv6Rpi.Fs.Edits
import Xv6Rpi.Fs.Naming
import Xv6Rpi.Fs.Holes
import Xv6Rpi.Fs.Owned
import Xv6Rpi.Lib.Moves
import Xv6Rpi.Fs.Quiet
import Xv6Rpi.Fs.Ledger
import Xv6Rpi.Lib.Shares
import Xv6Rpi.Fs.Counted
import Xv6Rpi.Handles.World
import Xv6Rpi.Handles.Share
import Xv6Rpi.Handles.Rules
import Xv6Rpi.Handles.Files
import Xv6Rpi.Handles.Ends
import Xv6Rpi.Handles.Slots
import Xv6Rpi.Handles.Table
import Xv6Rpi.Handles.Using
import Xv6Rpi.Handles.Calls
import Xv6Rpi.Handles.Runs
import Xv6Rpi.Process.State
import Xv6Rpi.Process.Grow
import Xv6Rpi.Process.Fork
import Xv6Rpi.Pipes.Runs
import Xv6Rpi.Lib.Run
import Xv6Rpi.Sched.Trap
import Xv6Rpi.Offset.Runs
import Xv6Rpi.Bio.Pinned
import Xv6Rpi.Bio.Commit
import Xv6Rpi.Mkfs.Kernel
import Xv6Rpi.Process.Exec
import Xv6Rpi.Process.Load
import Xv6Rpi.Process.Args
import Xv6Rpi.Process.Image
import Xv6Rpi.Process.Outcome
import Xv6Rpi.Process.Start
import Xv6Rpi.Process.Oom
import Xv6Rpi.Process.Pipe
import Xv6Rpi.Console.Runs
import Xv6Rpi.Shell.Parse
import Xv6Rpi.Shell.Strings
import Xv6Rpi.Lib.Links
import Xv6Rpi.Umalloc.Runs
import Xv6Rpi.Umalloc.Wrap
import Xv6Rpi.Process.Copyout
import Xv6Rpi.Buddy.DoubleFree
import Xv6Rpi.Lib.Smear
import Xv6Rpi.Buddy.Order
import Xv6Rpi.Buddy.Metadata
import Xv6Rpi.Lib.Copy
import Xv6Rpi.Kstring.Memmove
import Xv6Rpi.Kstring.Ulib
import Xv6Rpi.Kstring.Memset
import Xv6Rpi.Kstring.Printint
import Xv6Rpi.Syscall.Cpuutil
import Xv6Rpi.Syscall.Tables
import Xv6Rpi.Lib.Pattern
import Xv6Rpi.Grep.Matcher
import Xv6Rpi.Grep.Chunks
import Xv6Rpi.Uvm.Mappages
import Xv6Rpi.Fs.Kept
import Xv6Rpi.Fs.Opened
import Xv6Rpi.Handles.Sequence
import Xv6Rpi.Handles.Dirs
import Xv6Rpi.Fs.Durable
import Xv6Rpi.Fs.Failing
import Xv6Rpi.Handles.Failing
import Xv6Rpi.Handles.Crashes
import Xv6Rpi.Handles.Room
import Xv6Rpi.Mkfs.Boot
import Xv6Rpi.Sched.Ancestry
import Xv6Rpi.Sched.Fairness
import Xv6Rpi.Sched.Spinlock
import Xv6Rpi.Shell.Sequence
import Xv6Rpi.Lib.Arm
import Xv6Rpi.Trap.Frame
import Xv6Rpi.Trap.Nesting
import Xv6Rpi.Trap.Programs
import Xv6Rpi.Trap.Return
import Xv6Rpi.Trap.Switch
import Xv6Rpi.Kstring.Printf
