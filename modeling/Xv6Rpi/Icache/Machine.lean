import Xv6Rpi.Fs.Format
import Xv6Rpi.Base

/-! # Processes that use the inode cache

Processes of type `P` call `iget`, `idup`, `ilock`, `iunlock`, `iupdate` and `iput` in any
order and in any interleaving. A step is one process executing its code up to the next
point where it releases `icache.lock` or takes a buffer, which may put it to sleep. The
disk is seen through the buffer cache: `disk dev inum` is the dinode in the buffer of its
block, and `taken` says which of these buffers are held.

A process uses only inodes that it has a reference to, changes an inode only under its
lock, unlocks it only after `iupdate` has got every change, and puts its last reference
only after it has unlocked the inode. For this the machine records, beside what the source
stores, who the references belong to (`owners`), which process took `I_BUSY` (`locks`), and
which copies were changed since they were read or written back (`dirty`).
-/

namespace Xv6Rpi.Icache

open Fs (Dinode iblock ndirect)

def ninode : Nat := 50

/-- `I_BUSY` and `I_VALID` are the two bits of `flags`; `di` is the copy of the dinode. -/
structure Inode where
  dev : Nat
  inum : Nat
  ref : Int
  busy : Bool
  valid : Bool
  di : Dinode

inductive Scan where
  | cached (i : Nat)
  | empty (i : Nat)
  | full

def scan (inode : Nat → Inode) (dev inum : Nat) : Scan :=
  match (List.range ninode).find? fun i => 0 < (inode i).ref ∧ (inode i).dev = dev ∧ (inode i).inum = inum with
  | some i => .cached i
  | none =>
    match (List.range ninode).find? fun i => (inode i).ref = 0 with
    | some i => .empty i
    | none => .full

/-- Where `iupdate` was called: by a client, in `itrunc`, and by `iput` itself. -/
inductive Updater where
  | client
  | itrunc
  | iput
  deriving DecidableEq

inductive Pc where
  -- outside of the inode functions
  | client
  -- ilock(): before it takes I_BUSY, asleep on the inode; before bread(), with the buffer,
  -- and after brelse()
  | ilock (i : Nat)
  | asleep (i : Nat)
  | load (i : Nat)
  | fill (i : Nat)
  | filled (i : Nat)
  -- iupdate(): before bread(), with the buffer, and before brelse()
  | update (i : Nat) (k : Updater)
  | write (i : Nat) (k : Updater)
  | written (i : Nat) (k : Updater)
  -- itrunc() in iput(): the loop over addrs, and what follows it
  | itrunc (i n : Nat)
  | size (i : Nat)
  -- iput() after itrunc(), and after iupdate()
  | free (i : Nat)
  | freed (i : Nat)
  | panic (e : Panic)
  deriving DecidableEq

def Updater.pc (i : Nat) : Updater → Pc
  | .client => .client
  | .itrunc => .free i
  | .iput => .freed i

def Pc.wake (i : Nat) : Pc → Pc
  | .asleep j => if j = i then .ilock j else .asleep j
  | pc => pc

/-- What a process outside of the inode functions does next. With `pass` it leaves one of
its references to another process, as a file or a current directory that they share. -/
inductive Op (P : Type) where
  | iget (dev inum : Nat)
  | idup (i : Nat)
  | pass (i : Nat) (q : P)
  | ilock (i : Nat)
  | modify (i : Nat) (di : Dinode)
  | iupdate (i : Nat)
  | iunlock (i : Nat)
  | iput (i : Nat)

structure Machine (P : Type) where
  inode : Nat → Inode
  disk : Nat → Nat → Dinode
  taken : Nat → Nat → Bool
  pc : P → Pc
  owners : Nat → List P
  locks : P → Nat → Bool
  dirty : Nat → Bool

namespace Machine

variable {P : Type}

def onDisk (m : Machine P) (i : Nat) : Dinode := m.disk (m.inode i).dev (m.inode i).inum

/-- Slot `i` with the copy `di`, changed since it was read or written back if `d`. -/
def store (m : Machine P) (i : Nat) (di : Dinode) (d : Bool) : Machine P :=
  { m with
    inode := Function.update m.inode i { m.inode i with di := di }
    dirty := Function.update m.dirty i d }

/-- The buffer of the block that holds the dinode of slot `i` is taken or released. -/
def hold (m : Machine P) (i : Nat) (t : Bool) : Machine P :=
  { m with taken := fun dev sector =>
      if dev = (m.inode i).dev ∧ sector = iblock (m.inode i).inum then t else m.taken dev sector }

def isTaken (m : Machine P) (i : Nat) : Bool := m.taken (m.inode i).dev (iblock (m.inode i).inum)

def writeBack (m : Machine P) (i : Nat) : Machine P :=
  { m with
    disk := Function.update m.disk (m.inode i).dev
      (Function.update (m.disk (m.inode i).dev) (m.inode i).inum (m.inode i).di)
    dirty := Function.update m.dirty i false }

variable [DecidableEq P]

def goto (m : Machine P) (p : P) (pc : Pc) : Machine P := { m with pc := Function.update m.pc p pc }

def lock (m : Machine P) (p : P) (i : Nat) : Machine P :=
  { m with
    inode := Function.update m.inode i { m.inode i with busy := true }
    locks := Function.update m.locks p (Function.update (m.locks p) i true) }

/-- Process `p` clears `I_BUSY`, and `I_VALID` too if `v` is false, and wakes who sleeps. -/
def unlock (m : Machine P) (p : P) (i : Nat) (v : Bool) : Machine P :=
  { m with
    inode := Function.update m.inode i { m.inode i with busy := false, valid := (m.inode i).valid && v }
    locks := Function.update m.locks p (Function.update (m.locks p) i false)
    pc := fun q => (m.pc q).wake i }

def incr (m : Machine P) (q : P) (i : Nat) : Machine P :=
  { m with
    inode := Function.update m.inode i { m.inode i with ref := (m.inode i).ref + 1 }
    owners := Function.update m.owners i (q :: m.owners i) }

def decr (m : Machine P) (p : P) (i : Nat) : Machine P :=
  { m with
    inode := Function.update m.inode i { m.inode i with ref := (m.inode i).ref - 1 }
    owners := Function.update m.owners i ((m.owners i).erase p) }

def iget (m : Machine P) (p : P) (dev inum : Nat) : Machine P :=
  match scan m.inode dev inum with
  | .cached i => m.incr p i
  | .empty i =>
    { m with
      inode := Function.update m.inode i ⟨dev, inum, 1, false, false, (m.inode i).di⟩
      owners := Function.update m.owners i [p] }
  | .full => m.goto p (.panic .igetNoInodes)

def iput (m : Machine P) (p : P) (i : Nat) : Machine P :=
  if (m.inode i).ref = 1 ∧ (m.inode i).valid ∧ (m.inode i).di.nlink = 0 then
    if (m.inode i).busy then m.goto p (.panic .iputBusy) else (m.lock p i).goto p (.itrunc i 0)
  else m.decr p i

/-- Process `p` has a reference besides the one that it needs to hold the lock. -/
def spare (m : Machine P) (p : P) (i : Nat) : Prop :=
  p ∈ m.owners i ∧ (m.locks p i = true → 2 ≤ (m.owners i).count p)

instance (m : Machine P) (p : P) (i : Nat) : Decidable (m.spare p i) := inferInstanceAs (Decidable (_ ∧ _))

/-- A client acts; it keeps to the inodes that it has references to. -/
def call (m : Machine P) (p : P) : Op P → Option (Machine P)
  | .iget dev inum => some <| m.iget p dev inum
  | .idup i => if p ∈ m.owners i then some (m.incr p i) else none
  | .pass i q =>
    if m.spare p i then some { m with owners := Function.update m.owners i (q :: (m.owners i).erase p) } else none
  | .ilock i =>
    if p ∈ m.owners i then some (m.goto p (if (m.inode i).ref < 1 then .panic .ilock else .ilock i)) else none
  | .modify i di => if m.locks p i then some (m.store i di true) else none
  | .iupdate i => if m.locks p i then some (m.goto p (.update i .client)) else none
  | .iunlock i =>
    if m.locks p i ∧ m.dirty i = false then
      some (if (m.inode i).busy = false ∨ (m.inode i).ref < 1 then m.goto p (.panic .iunlock) else m.unlock p i true)
    else none
  | .iput i => if m.spare p i then some (m.iput p i) else none

/-- The next step of process `p`; one that sleeps, or that waits for a buffer, has none. -/
def step (m : Machine P) (p : P) (op : Op P) : Option (Machine P) :=
  match m.pc p with
  | .client => m.call p op
  | .ilock i =>
    if (m.inode i).busy then some (m.goto p (.asleep i))
    else some ((m.lock p i).goto p (if (m.inode i).valid then .client else .load i))
  | .asleep _ => none
  | .load i => if m.isTaken i then none else some ((m.hold i true).goto p (.fill i))
  | .fill i => some (((m.store i (m.onDisk i) false).hold i false).goto p (.filled i))
  | .filled i =>
    some ({ m with inode := Function.update m.inode i { m.inode i with valid := true } }.goto p
      (if (m.inode i).di.type = 0 then .panic .ilockNoType else .client))
  | .update i k => if m.isTaken i then none else some ((m.hold i true).goto p (.write i k))
  | .write i k => some ((m.writeBack i).goto p (.written i k))
  | .written i k => some ((m.hold i false).goto p (k.pc i))
  | .itrunc i n =>
    let di := (m.inode i).di
    if ndirect < n then some (m.goto p (.size i))
    else if di.addrs n = 0 then some (m.goto p (.itrunc i (n + 1)))
    else some ((m.store i { di with addrs := Function.update di.addrs n 0 } true).goto p (.itrunc i (n + 1)))
  | .size i => some ((m.store i { (m.inode i).di with size := 0 } true).goto p (.update i .itrunc))
  | .free i => some ((m.store i { (m.inode i).di with type := 0 } true).goto p (.update i .iput))
  | .freed i => some (((m.unlock p i false).decr p i).goto p .client)
  | .panic _ => none

def exec (m : Machine P) : List (P × Op P) → Option (Machine P)
  | [] => some m
  | (p, op) :: ops => (m.step p op).bind fun m => m.exec ops

/-- After `iinit`: no slot is in use. -/
def boot (disk : Nat → Nat → Dinode) : Machine P :=
  ⟨fun _ => ⟨0, 0, 0, false, false, .zero⟩, disk, fun _ _ => false, fun _ => .client, fun _ => [], fun _ _ => false,
    fun _ => false⟩

end Machine

end Xv6Rpi.Icache
