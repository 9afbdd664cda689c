import Xv6Rpi.Fs.Sysfile
import Xv6Rpi.Pipes.Machine
import Xv6Rpi.Sched.Table

/-! # The calls on files, pipes and processes

The file system's state with what it leaves out: the pipes, which of the open files are pipes, and the process table.
A process that sleeps in a call stays before the action that it sleeps for; the action can be taken once what it waits for
is there. Memory that `kmalloc` has given out for a pipe is named by its address.
-/

namespace Xv6Rpi.Handles

open Fs (Kern FsM File nfile nofile)
open Pipes (Pipe Side)
open Sched (Ptable Slot Pid)

structure World where
  fs : Kern
  tbl : Ptable
  -- the field `pipe` of a file of type FD_PIPE; the type in `fs` is that of the other files
  pipeOf : Nat → Option Nat
  pipe : Nat → Option Pipe

/-- Why a program does not go on: it panicked or sleeps, or it used a pipe that is not allocated. -/
inductive Halt where
  | stop (e : Fs.Stop)
  | freed
  deriving DecidableEq

abbrev WM (α : Type) := Prog World Halt Fs.Label α

def act {α : Type} (f : World → Except Halt (α × World)) : WM α := Prog.single .step f

def getW {α : Type} (f : World → α) : WM α := act fun w => .ok (f w, w)

def modifyW (f : World → World) : WM Unit := act fun w => .ok ((), f w)

def setFs (s : Kern) (w : World) : World := { w with fs := s }

def onFs {α : Type} (x : FsM α) : WM α := x.lift World.fs setFs id .stop

section Pipes

def setPipe (w : World) (pi : Nat) (q : Option Pipe) : World := { w with pipe := Function.update w.pipe pi q }

def bothClosed (q : Pipe) : Bool := !q.readopen && !q.writeopen

/-- `kmalloc` and the setting up of a pipe. `mem` is what `kmalloc` returns, with the bytes that are in it; it
returns no memory that is in use. -/
def kmallocPipe (mem : Option (Nat × (Nat → UInt8))) : WM (Option Nat) := act fun w =>
  match mem with
  | none => .ok (none, w)
  | some (pi, data) => match w.pipe pi with
    | some _ => .error (.stop .sleep)
    | none => .ok (some pi, setPipe w pi (some ⟨data, 0, 0, true, true⟩))

def kfreePipe (pi : Nat) : WM Unit := act fun w =>
  match w.pipe pi with
  | none => .error .freed
  | some _ => .ok ((), setPipe w pi none)

def pipeclose (pi : Nat) (side : Side) : WM Unit := do
  let both ← act fun w => match w.pipe pi with
    | none => .error .freed
    | some q => .ok (bothClosed (q.close side), setPipe w pi (some (q.close side)))
  if both then kfreePipe pi

def piperead (p : Slot) (pi n : Nat) : WM (Option (List UInt8)) := act fun w =>
  match w.pipe pi with
  | none => .error .freed
  | some q =>
    if q.nread = q.nwrite ∧ q.writeopen = true then
      if (w.tbl.proc p).killed then .ok (none, w) else .error (.stop .sleep)
    else .ok (some (q.read n).1, setPipe w pi (some (q.read n).2))

/-- The loop of `pipewrite` with the bytes that are left; it sleeps while the pipe is full. -/
def pipewriteFrom (pi : Nat) : Nat → List UInt8 → WM Bool
  | 0, src => return src == []
  | fuel + 1, src => do
    let r ← act fun w => match w.pipe pi with
      | none => .error .freed
      | some q => match q.write src with
        | (.sleeps left, _, q') =>
          if left.length = src.length then .error (.stop .sleep) else .ok (.sleeps left, setPipe w pi (some q'))
        | (r, _, q') => .ok (r, setPipe w pi (some q'))
    match r with
    | .done => return true
    | .broken => return false
    | .sleeps left => pipewriteFrom pi fuel left

def pipewrite (pi : Nat) (src : List UInt8) : WM Int := do
  if ← pipewriteFrom pi (src.length + 1) src then return src.length else return -1

end Pipes

section Files

def sideOf (ff : File) : Side := if ff.writable then .write else .read

def fileclose (f : Nat) : WM Unit := do
  let ff ← act fun w =>
    if (w.fs.file f).ref < 1 then .error (.stop (.panic .fileclose))
    else if 0 < (w.fs.file f).ref - 1 then
      .ok (none, setFs (Fs.setFile w.fs f { w.fs.file f with ref := (w.fs.file f).ref - 1 }) w)
    else .ok (some (w.fs.file f, w.pipeOf f), { w with
      fs := Fs.setFile w.fs f { w.fs.file f with ref := 0, type := .none }
      pipeOf := Function.update w.pipeOf f none })
  match ff with
  | none => return ()
  | some (ff, some pi) => pipeclose pi (sideOf ff)
  | some (ff, none) => match ff.type with
    | .none => return ()
    | .inode => onFs do
      Fs.beginTransK
      Fs.iput ff.ip
      Fs.commitTransK

def fileread (p : Slot) (f n : Nat) : WM (Option (List UInt8)) := do
  let ff ← getW fun w => w.fs.file f
  if !ff.readable then return none
  else match ← getW fun w => w.pipeOf f with
    | some pi => piperead p pi n
    | none => onFs (Fs.fileread f n)

def filewrite (f : Nat) (src : List UInt8) : WM Int := do
  let ff ← getW fun w => w.fs.file f
  if !ff.writable then return -1
  else match ← getW fun w => w.pipeOf f with
    | some pi => pipewrite pi src
    | none => onFs (Fs.filewrite f src)

def setPipeFile (f pi : Nat) (side : Side) : WM Unit := modifyW fun w => { w with
  fs := Fs.setFile w.fs f { w.fs.file f with readable := side == .read, writable := side == .write }
  pipeOf := Function.update w.pipeOf f (some pi) }

def pipealloc (mem : Option (Nat × (Nat → UInt8))) : WM (Option (Nat × Nat)) := do
  match ← onFs Fs.filealloc with
  | none => return none
  | some f0 => match ← onFs Fs.filealloc with
    | none =>
      fileclose f0
      return none
    | some f1 => match ← kmallocPipe mem with
      | none =>
        fileclose f0
        fileclose f1
        return none
      | some pi =>
        setPipeFile f0 pi .read
        setPipeFile f1 pi .write
        return some (f0, f1)

end Files

section Calls

def sysRead (p : Slot) (fd : Nat) (n : Option Nat) : WM Int := do
  match ← onFs (Fs.argfd p fd), n with
  | some f, some n => match ← fileread p f n with
    | none => return -1
    | some bytes => return bytes.length
  | _, _ => return -1

def sysWrite (p : Slot) (fd : Nat) (src : Option (List UInt8)) : WM Int := do
  match ← onFs (Fs.argfd p fd), src with
  | some f, some src => filewrite f src
  | _, _ => return -1

def setOfile (p : Slot) (fd : Nat) (f : Option Nat) : WM Unit := onFs (Fs.modifyK fun s => Fs.setOfile s p fd f)

def sysClose (p : Slot) (fd : Nat) : WM Int := do
  match ← onFs (Fs.argfd p fd) with
  | none => return -1
  | some f =>
    setOfile p fd none
    fileclose f
    return 0

/-- The end of `sys_open`: a file structure and a descriptor for the locked inode. -/
def openFile (p : Slot) (ip omode : Nat) : WM Int := do
  match ← onFs Fs.filealloc with
  | none =>
    onFs (Fs.iunlockput ip)
    return -1
  | some f => match ← onFs (Fs.fdalloc p f) with
    | none =>
      fileclose f
      onFs (Fs.iunlockput ip)
      return -1
    | some fd =>
      onFs (Fs.iunlock ip)
      onFs (Fs.modifyK fun s => Fs.setFile s f { s.file f with
        type := .inode, ip := ip, off := 0, readable := !Fs.oWronly omode, writable := Fs.oWronly omode || Fs.oRdwr omode })
      return fd

def sysOpen (p : Slot) (path : Option (List UInt8)) (omode : Nat) : WM Int :=
  match path with
  | none => return -1
  | some path =>
    if Fs.oCreate omode then do
      onFs Fs.beginTransK
      let r ← onFs (Fs.create p path Fs.tFile 0 0)
      onFs Fs.commitTransK
      match r with
      | none => return -1
      | some ip => openFile p ip omode
    else do
      match ← onFs (Fs.namei p path) with
      | none => return -1
      | some ip =>
        onFs (Fs.ilock ip)
        let i ← onFs (Fs.getInode ip)
        if i.di.type = Fs.tDir ∧ omode ≠ 0 then
          onFs (Fs.iunlockput ip)
          return -1
        else openFile p ip omode

/-- `arg` says whether the place for the descriptors is memory of the process. -/
def sysPipe (p : Slot) (arg : Bool) (mem : Option (Nat × (Nat → UInt8))) : WM Int :=
  if !arg then return -1
  else do
    match ← pipealloc mem with
    | none => return -1
    | some (rf, wf) => match ← onFs (Fs.fdalloc p rf) with
      | none =>
        fileclose rf
        fileclose wf
        return -1
      | some fd0 => match ← onFs (Fs.fdalloc p wf) with
        | none =>
          setOfile p fd0 none
          fileclose rf
          fileclose wf
          return -1
        | some _ => return 0

end Calls

section Processes

/-- `fork`; the pages are what `alloc_page` and `copyuvm` return. -/
def fork (p : Slot) (kstack pgdir : Nat) : WM Int := do
  let r ← act fun w => match w.tbl.allocproc with
    | none => .ok (none, w)
    | some (np, t) => .ok (some np, { w with tbl := t })
  match r with
  | none => return -1
  | some np =>
    if ← act fun w => .ok ((w.tbl.allocKstack np kstack).1, { w with tbl := (w.tbl.allocKstack np kstack).2 }) then
      if ← act fun w => .ok ((w.tbl.forkCopy np pgdir).1, { w with tbl := (w.tbl.forkCopy np pgdir).2 }) then
        modifyW fun w => { w with tbl := w.tbl.setParent np p }
        let _ ← onFs (Fs.fork p (some np))
        let pid ← getW fun w => (w.tbl.proc np).pid
        modifyW fun w => { w with tbl := w.tbl.setState np .runnable }
        return pid.toInt
      else return -1
    else return -1

/-- The loop of `exit` over the open files, with `k` descriptors left. -/
def exitFiles (p : Slot) : Nat → WM Unit
  | 0 => return ()
  | k + 1 => do
    match ← getW fun w => (w.fs.proc p).ofile (nofile - (k + 1)) with
    | none => exitFiles p k
    | some f =>
      fileclose f
      setOfile p (nofile - (k + 1)) none
      exitFiles p k

def exit (p : Slot) : WM Int := do
  let initproc ← getW fun w => w.tbl.initproc
  if p = initproc then onFs (Fs.panic .initExiting)
  else
    exitFiles p nofile
    onFs (Fs.iputCwd p)
    onFs (Fs.modifyK fun s => Fs.setCwd s p none)
    modifyW fun w => { w with tbl := w.tbl.exit p }
    return 0

/-- `wait`; between its scans the process sleeps. -/
def wait (p : Slot) : WM Int := act fun w =>
  match w.tbl.wait p with
  | (.reaped _ pid, t) => .ok (pid.toInt, { w with tbl := t })
  | (.failed, _) => .ok (-1, w)
  | (.sleeps, _) => .error (.stop .sleep)

def kill (pid : Pid) : WM Int := act fun w => .ok (if (w.tbl.kill pid).1 then 0 else -1, { w with tbl := (w.tbl.kill pid).2 })

end Processes

/-- A system call with its arguments; those that could not be fetched are `none`. -/
inductive Call where
  | dup (fd : Nat)
  | read (fd : Nat) (n : Option Nat)
  | write (fd : Nat) (src : Option (List UInt8))
  | close (fd : Nat)
  | pipe (arg : Bool) (mem : Option (Nat × (Nat → UInt8)))
  | link (old new : Option (List UInt8))
  | unlink (path : Option (List UInt8))
  | open (path : Option (List UInt8)) (omode : Nat)
  | mkdir (path : Option (List UInt8))
  | mknod (path : Option (List UInt8)) (major minor : Nat)
  | chdir (path : Option (List UInt8))
  | exec (path : Option (List UInt8)) (mem : Fs.ExecMem)
  | fork (kstack pgdir : Nat)
  | exit
  | wait
  | kill (pid : Pid)
  | sleep (done : Bool)

def Call.prog (p : Slot) : Call → WM Int
  | .dup fd => onFs (Fs.sysDup p fd)
  | .read fd n => sysRead p fd n
  | .write fd src => sysWrite p fd src
  | .close fd => sysClose p fd
  | .pipe arg mem => sysPipe p arg mem
  | .link old new => onFs (Fs.sysLink p old new)
  | .unlink path => onFs (Fs.sysUnlink p path)
  | .open path omode => sysOpen p path omode
  | .mkdir path => onFs (Fs.sysMkdir p path)
  | .mknod path major minor => onFs (Fs.sysMknod p path major minor)
  | .chdir path => onFs (Fs.sysChdir p path)
  | .exec path mem => onFs (Fs.exec p path mem)
  | .fork kstack pgdir => Handles.fork p kstack pgdir
  | .exit => Handles.exit p
  | .wait => Handles.wait p
  | .kill pid => Handles.kill pid
  | .sleep done => getW fun _ => if done then 0 else -1

end Xv6Rpi.Handles
