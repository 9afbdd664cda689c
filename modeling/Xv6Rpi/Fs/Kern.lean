import Xv6Rpi.Fs.Format
import Xv6Rpi.Fs.Log
import Xv6Rpi.Lib.Prog

/-! # The file system's state and its atomic actions

There is one disk. Its contents are those that `bread` returns: a block is read through
the buffer cache, which holds the newest contents of every block that has been passed to
`log_write` or `bwrite`. A buffer is held from `bread` to `brelse`, and nobody else gets
it meanwhile. Spin locks are left out: what is done under one is one action.
-/

namespace Xv6Rpi.Fs

def ninode : Nat := 50
def nfile : Nat := 100
def nofile : Nat := 16
def ndev : Nat := 10

structure Inode where
  inum : Nat
  ref : Int
  busy : Bool
  valid : Bool
  di : Dinode

inductive FdType where
  | none
  | inode
  deriving DecidableEq, Repr

structure File where
  type : FdType
  ref : Nat
  readable : Bool
  writable : Bool
  ip : Nat
  off : Nat

structure ProcFiles where
  ofile : Nat → Option Nat
  cwd : Option Nat

/-- The functions of a device: how many bytes it takes, and which it gives. -/
structure Devsw where
  read : Nat → Option (List UInt8)
  write : List UInt8 → Option Nat

structure Kern where
  disk : Disk
  held : Nat → Bool
  log : Log
  inode : Nat → Inode
  file : Nat → File
  proc : Nat → ProcFiles
  devsw : Nat → Option Devsw

/-- Why a program does not go on: the kernel panicked, or the process sleeps on
something that only another process can change. -/
inductive Stop where
  | panic (p : Panic)
  | sleep
  deriving DecidableEq, Repr

/-- What an action is. `balloc` starts the search for a free block; the last three are
the places where `iput` and `bmap` decide whether there is something to free or to
allocate. -/
inductive Label where
  | step
  | logWrite
  | beginTrans
  | commitTrans
  | balloc
  | iput (ip : Nat)
  | bmap (ip bn : Nat)
  | indirect (n bn : Nat)
  deriving DecidableEq

abbrev FsM (α : Type) := Prog Kern Stop Label α

section Actions

def act {α : Type} (f : Kern → Except Stop (α × Kern)) : FsM α := Prog.single .step f

def getK {α : Type} (f : Kern → α) : FsM α := act fun s => .ok (f s, s)

def modifyK (f : Kern → Kern) : FsM Unit := act fun s => .ok ((), f s)

def panic {α : Type} (p : Panic) : FsM α := act fun _ => .error (.panic p)

/-- `bread` of block `n` as an action of a given kind. -/
def breadAs (l : Label) (n : Nat) : FsM Block := Prog.single l fun s =>
  if s.held n then .error .sleep
  else .ok (s.disk n, { s with held := Function.update s.held n true })

def bread (n : Nat) : FsM Block := breadAs .step n

def brelse (n : Nat) : FsM Unit := act fun s =>
  if s.held n then .ok ((), { s with held := Function.update s.held n false }) else .error (.panic .brelse)

def getInode (ip : Nat) : FsM Inode := getK fun s => s.inode ip

def setInode (s : Kern) (ip : Nat) (i : Inode) : Kern := { s with inode := Function.update s.inode ip i }

theorem setInode_self (s : Kern) (ip : Nat) (x : Inode) : (setInode s ip x).inode ip = x := Function.update_self ..

theorem setInode_of_ne {s : Kern} {ip j : Nat} (h : j ≠ ip) (x : Inode) : (setInode s ip x).inode j = s.inode j :=
  Function.update_of_ne h ..

theorem setInode_idem (s : Kern) (ip : Nat) (x y : Inode) : setInode (setInode s ip x) ip y = setInode s ip y := by
  rw [setInode, setInode, Function.update_idem]
  rfl

def modifyInode (ip : Nat) (f : Inode → Inode) : FsM Unit :=
  modifyK fun s => setInode s ip (f (s.inode ip))

def modifyDi (ip : Nat) (f : Dinode → Dinode) : FsM Unit :=
  modifyInode ip fun i => { i with di := f i.di }

end Actions

section Log

def logWriteBuf (n : Nat) (data : Block) : FsM Unit := Prog.single .logWrite fun s =>
  match logWrite s.log n data with
  | .error p => .error (.panic p)
  | .ok (l, ws) =>
    if ws.any fun w => s.held w.1 then .error .sleep
    else .ok ((), { s with log := l, disk := Writes.apply ws (Function.update s.disk n data) })

/-- `begin_trans` sleeps while another transaction is open. -/
def beginTransK : FsM Unit := Prog.single .beginTrans fun s =>
  if s.log.busy then .error .sleep else .ok ((), { s with log := beginTrans s.log })

def writeHeadK : FsM Unit := act fun s =>
  if s.held s.log.start then .error .sleep
  else .ok ((), { s with disk := Writes.apply (writeHead s.log s.disk) s.disk })

def installK (tail : Nat) : FsM Unit := act fun s =>
  if s.held (s.log.slot tail) || s.held (s.log.sector tail) then .error .sleep
  else .ok ((), { s with disk := Function.update s.disk (s.log.sector tail) (s.disk (s.log.slot tail)) })

/-- The loop of `install_trans` from block `tail` on, with `k` blocks left. -/
def installTransK (tail : Nat) : Nat → FsM Unit
  | 0 => pure ()
  | k + 1 => do
    installK tail
    installTransK (tail + 1) k

def commitTransK : FsM Unit := do
  let n ← getK fun s => s.log.n
  if 0 < n then
    writeHeadK
    installTransK 0 n
    modifyK fun s => { s with log := { s.log with n := 0 } }
    writeHeadK
  Prog.single .commitTrans fun s => .ok ((), { s with log := { s.log with busy := false } })

end Log

end Xv6Rpi.Fs
