import Xv6Rpi.Lib.Queue

/-! # Processes that use a pipe

Processes of type `P` call `piperead`, `pipewrite` and `pipeclose` on one pipe in any order
and in any interleaving. A step is one process executing its code from where it takes
`p->lock` to where it releases it or sleeps, which releases it too.

A process calls `piperead` or `pipewrite` through a `struct file` that it has a reference to,
and `pipeclose` is called for an end when the last reference to its file is dropped. For this
the machine keeps the owners of the references to both files. It also records the bytes that
have been stored in the pipe and those that have been read from it, with the process that
did it.
-/

namespace Xv6Rpi.Pipes

def pipesize : Nat := 512

structure Pipe where
  data : Nat → UInt8
  nread : BitVec 32
  nwrite : BitVec 32
  readopen : Bool
  writeopen : Bool

/-- The two ends of a pipe, and the files that stand for them. -/
inductive Side where
  | read
  | write
  deriving DecidableEq

/-- How the loop of `pipewrite` ends, or where it sleeps. -/
inductive Written where
  | done
  | broken
  | sleeps (left : List UInt8)

def Pipe.put (p : Pipe) (b : UInt8) : Pipe :=
  { p with data := Function.update p.data (p.nwrite.toNat % pipesize) b, nwrite := p.nwrite + 1#32 }

/-- The loop of `pipewrite` from its test for a full pipe on, with the bytes left to write. It
stores the bytes of the second result. -/
def Pipe.write (p : Pipe) : List UInt8 → Written × List UInt8 × Pipe
  | [] => (.done, [], p)
  | b :: left =>
    if p.nwrite = p.nread + BitVec.ofNat 32 pipesize then
      (if p.readopen = false then .broken else .sleeps (b :: left), [], p)
    else
      let (w, stored, p') := (p.put b).write left
      (w, b :: stored, p')

/-- The loop of `piperead` that copies at most so many bytes. -/
def Pipe.read (p : Pipe) : Nat → List UInt8 × Pipe
  | 0 => ([], p)
  | n + 1 =>
    if p.nread = p.nwrite then ([], p)
    else
      let (bs, p') := { p with nread := p.nread + 1#32 }.read n
      (p.data (p.nread.toNat % pipesize) :: bs, p')

def Pipe.close (p : Pipe) : Side → Pipe
  | .write => { p with writeopen := false }
  | .read => { p with readopen := false }

inductive Pc where
  | client
  -- before p->lock is taken, and asleep on &p->nwrite or &p->nread
  | write (n : Int) (left : List UInt8)
  | writeSleep (n : Int) (left : List UInt8)
  | read (n : Int)
  | readSleep (n : Int)
  | close (s : Side)
  deriving DecidableEq

def Pc.wakeRead : Pc → Pc
  | .readSleep n => .read n
  | pc => pc

def Pc.wakeWrite : Pc → Pc
  | .writeSleep n left => .write n left
  | pc => pc

/-- What a process outside of pipe.c does next. -/
inductive Op (P : Type) where
  | write (n : Int) (addr : Nat → UInt8)
  | read (n : Int)
  | dup (s : Side) (q : P)
  | close (s : Side)
  | kill (q : P)

structure Machine (P : Type) where
  pipe : Pipe
  pc : P → Pc
  killed : P → Bool
  ret : P → Int
  owners : Side → List P
  freed : Bool
  stored : List (P × UInt8)
  delivered : List (P × UInt8)

namespace Machine

variable {P : Type} [DecidableEq P]

def goto (m : Machine P) (p : P) (pc : Pc) : Machine P := { m with pc := Function.update m.pc p pc }

def return' (m : Machine P) (p : P) (r : Int) : Machine P :=
  { m.goto p .client with ret := Function.update m.ret p r }

def wakeRead (m : Machine P) : Machine P := { m with pc := fun q => (m.pc q).wakeRead }

def wakeWrite (m : Machine P) : Machine P := { m with pc := fun q => (m.pc q).wakeWrite }

def pipewrite (m : Machine P) (p : P) (n : Int) (left : List UInt8) : Machine P :=
  let (w, stored, pipe) := m.pipe.write left
  let m := { m with pipe := pipe, stored := m.stored ++ stored.map (p, ·) }
  match w with
  | .done => m.wakeRead.return' p n
  | .broken => m.return' p (-1)
  | .sleeps left => m.wakeRead.goto p (.writeSleep n left)

def piperead (m : Machine P) (p : P) (n : Int) : Machine P :=
  if m.pipe.nread = m.pipe.nwrite ∧ m.pipe.writeopen = true then
    if m.killed p then m.return' p (-1) else m.goto p (.readSleep n)
  else
    let (bs, pipe) := m.pipe.read n.toNat
    let m := { m with pipe := pipe, delivered := m.delivered ++ bs.map (p, ·) }
    m.wakeWrite.return' p bs.length

def closeEnd (m : Machine P) : Side → Machine P
  | .write => { m with pipe := m.pipe.close .write }.wakeRead
  | .read => { m with pipe := m.pipe.close .read }.wakeWrite

def freeClosed (m : Machine P) : Machine P :=
  if m.pipe.readopen = false ∧ m.pipe.writeopen = false then { m with freed := true } else m

def pipeclose (m : Machine P) (p : P) (s : Side) : Machine P := (m.closeEnd s).freeClosed.goto p .client

/-- A client acts; it uses the files that it has references to. -/
def call (m : Machine P) (p : P) : Op P → Option (Machine P)
  | .write n addr => if p ∈ m.owners .write then some (m.goto p (.write n ((List.range n.toNat).map addr))) else none
  | .read n => if p ∈ m.owners .read then some (m.goto p (.read n)) else none
  | .dup s q =>
    if p ∈ m.owners s then some { m with owners := Function.update m.owners s (q :: m.owners s) } else none
  | .close s =>
    if p ∈ m.owners s then
      let m' := { m with owners := Function.update m.owners s ((m.owners s).erase p) }
      some (if m'.owners s = [] then m'.goto p (.close s) else m')
    else none
  | .kill q => some { m with
      killed := Function.update m.killed q true
      pc := Function.update m.pc q (m.pc q).wakeRead.wakeWrite }

/-- The next step of process `p`; a sleeping one has none until it is woken. -/
def step (m : Machine P) (p : P) (op : Op P) : Option (Machine P) :=
  match m.pc p with
  | .client => m.call p op
  | .write n left => some (m.pipewrite p n left)
  | .read n => some (m.piperead p n)
  | .writeSleep _ _ => none
  | .readSleep _ => none
  | .close s => some (m.pipeclose p s)

def exec (m : Machine P) : List (P × Op P) → Option (Machine P)
  | [] => some m
  | (p, op) :: ops => (m.step p op).bind fun m => m.exec ops

theorem exec_keeps {I : Machine P → Prop} (hStep : ∀ m p op m', step m p op = some m' → I m → I m')
    {m m' : Machine P} {ops : List (P × Op P)} (hExec : m.exec ops = some m') (hm : I m) : I m' := by
  induction ops generalizing m with
  | nil => exact Option.some.inj hExec ▸ hm
  | cons a ops ih =>
    obtain ⟨p, op⟩ := a
    obtain ⟨m₁, hm₁, hExec⟩ := Option.bind_eq_some_iff.mp hExec
    exact ih hExec (hStep m p op m₁ hm₁ hm)

/-- After `pipealloc` by `p`; the bytes of the pipe are what the allocator left there. -/
def alloc (p : P) (data : Nat → UInt8) : Machine P :=
  ⟨⟨data, 0, 0, true, true⟩, fun _ => .client, fun _ => false, fun _ => 0, fun _ => [p], false, [], []⟩

end Machine

end Xv6Rpi.Pipes
