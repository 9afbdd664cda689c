import Xv6Rpi.Fs.Sysfile
import Xv6Rpi.Sched.Table
import Xv6Rpi.Uvm.Copy

/-! # Processes with their memory and their files

The state of the kernel as the system calls of one process see it: the file system, the
memory, the process table, and of each process its size, its trapframe and its name.
-/

namespace Xv6Rpi.Process

open Prog Sched

structure Trapframe where
  spUsr : Nat
  lrUsr : Nat
  r14Svc : Nat
  spsr : Nat
  r : Fin 13 → Nat
  pc : Nat

/-- The fields of `struct proc` that neither the scheduler nor the file system uses. -/
structure User where
  sz : Nat
  tf : Trapframe
  name : List UInt8

/-- `ttbr` is the register that names the page directory for user addresses. -/
structure Kernel where
  fs : Fs.Kern
  mem : Uvm.Mem
  tbl : Ptable
  user : Slot → User
  ttbr : Nat

structure Proghdr where
  type : Nat
  off : Nat
  vaddr : Nat
  filesz : Nat
  memsz : Nat
  deriving DecidableEq

/-- Beside the actions on the memory and the file system some places of `exec` have labels of
their own: the beginning of the segment `ph`, when those of `seen` have been loaded, the reading of
`n` bytes to the page at `va` while the image has the size `sz`, the pushing of strings of the
lengths `lens`, and the copying of the argument array. -/
inductive Label where
  | step
  | fs (l : Fs.Label)
  | mem (l : Uvm.Label)
  | segment (ip : Nat) (seen : List Proghdr) (ph : Proghdr)
  | fill (va sz n : Nat)
  | args (seen : List Proghdr) (lens : List Nat)
  | ustack
  deriving DecidableEq

/-- A run stops in the file system or with a panic of the rest of the kernel. -/
inductive Stop where
  | fs (e : Fs.Stop)
  | panic (p : Panic)
  deriving DecidableEq

abbrev KernM (α : Type) := Prog Kernel Stop Label α

namespace Kernel

def pgdir (s : Kernel) (p : Slot) : Nat := (s.tbl.proc p).pgdir

def sz (s : Kernel) (p : Slot) : Nat := (s.user p).sz

def setUser (s : Kernel) (p : Slot) (u : User) : Kernel := { s with user := Function.update s.user p u }

def setSz (s : Kernel) (p : Slot) (sz : Nat) : Kernel := s.setUser p { s.user p with sz := sz }

def setMem (m : Uvm.Mem) (s : Kernel) : Kernel := { s with mem := m }

def setFs (k : Fs.Kern) (s : Kernel) : Kernel := { s with fs := k }

def setTbl (s : Kernel) (t : Ptable) : Kernel := { s with tbl := t }

def setTtbr (s : Kernel) (t : Nat) : Kernel := { s with ttbr := t }

theorem setSz_sz (s : Kernel) (p : Slot) (sz : Nat) : (s.setSz p sz).sz p = sz := by
  simp only [Kernel.sz, setSz, setUser, Function.update_self]

end Kernel

section Actions

def act {α : Type} (f : Kernel → Except Stop (α × Kernel)) : KernM α := Prog.single .step f

def getK {α : Type} (f : Kernel → α) : KernM α := act fun s => .ok (f s, s)

def modifyK (f : Kernel → Kernel) : KernM Unit := act fun s => .ok ((), f s)

def panic {α : Type} (e : Panic) : KernM α := act fun _ => .error (.panic e)

def mark (l : Label) : KernM Unit := Prog.single l fun s => .ok ((), s)

def onMem {α : Type} (x : Uvm.UvmM α) : KernM α := x.lift Kernel.mem Kernel.setMem .mem .panic

def onFs {α : Type} (x : Fs.FsM α) : KernM α := x.lift Kernel.fs Kernel.setFs .fs .fs

def switchuvm (p : Slot) : KernM Unit := act fun s =>
  if s.pgdir p = 0 then .error (.panic .switchuvmNoPgdir)
  else .ok ((), s.setTtbr (v2p (s.pgdir p) ||| 0x02 ||| 0x08 ||| 0x40))

end Actions

section Rules

variable {R : Rely Kernel Stop Label} {s : Kernel}

theorem mem_isPart : IsPart Kernel.mem Kernel.setMem := ⟨fun _ _ => rfl, fun _ => rfl, fun _ _ _ => rfl⟩

theorem fs_isPart : IsPart Kernel.fs Kernel.setFs := ⟨fun _ _ => rfl, fun _ => rfl, fun _ _ _ => rfl⟩

abbrev memRely (R : Rely Kernel Stop Label) (s : Kernel) : Rely Uvm.Mem Panic Uvm.Label :=
  R.part Kernel.setMem .mem .panic s

theorem wp_onMem {α : Type} {x : Uvm.UvmM α} {Q : α → Kernel → Prop}
    (h : wp (memRely R s) x (fun a m => Q a (s.setMem m)) s.mem) : wp R (onMem x) Q s :=
  wp_lift mem_isPart h

theorem wp_act (hR : R.Calm) {α : Type} {f : Kernel → Except Stop (α × Kernel)} {Q : α → Kernel → Prop}
    (h : match f s with
      | .error e => R.stop e
      | .ok (a, s') => Q a s') : wp R (act f) Q s := by
  apply wp_calm hR
  revert h
  cases f s with
  | error e => exact id
  | ok r => exact id

theorem wp_getK (hR : R.Calm) {α : Type} {f : Kernel → α} {Q : α → Kernel → Prop} (h : Q (f s) s) :
    wp R (getK f) Q s := wp_act hR h

theorem wp_modifyK (hR : R.Calm) {f : Kernel → Kernel} {Q : Unit → Kernel → Prop} (h : Q () (f s)) :
    wp R (modifyK f) Q s := wp_act hR h

end Rules

section Judged

abbrev memJudge (J : Judge Kernel Stop Label) (s : Kernel) : Judge Uvm.Mem Panic Uvm.Label :=
  J.part Kernel.setMem .mem .panic s

/-- Only an action on the memory, or one with a label of its own, may not be good, and the file system may
stop. -/
structure Guards (J : Judge Kernel Stop Label) : Prop where
  mem : ∀ s, Uvm.Watches (memJudge J s)
  step : ∀ s, J.good .step s ∧ J.must .step s
  fs : ∀ l s, J.good (.fs l) s ∧ J.must (.fs l) s
  stop : ∀ e, J.fine (.fs e)

variable {J : Judge Kernel Stop Label} {s : Kernel} {α : Type} {Q B : α → Kernel → Prop}

theorem Guards.judge_act (hJ : Guards J) {f : Kernel → Except Stop (α × Kernel)} (h : match f s with
    | .error e => J.fine e
    | .ok (a, s') => Q a s') : judge J (act f) Q B s := by
  refine judge_single (fun _ _ => ⟨(hJ.step s).2, ?_⟩) fun _ hNot => absurd (hJ.step s).1 hNot
  revert h
  cases f s with
  | error e => exact id
  | ok r => exact id

theorem Guards.judge_getK (hJ : Guards J) {f : Kernel → α} (h : Q (f s) s) : judge J (getK f) Q B s := hJ.judge_act h

theorem Guards.judge_modifyK (hJ : Guards J) {f : Kernel → Kernel} {Q B : Unit → Kernel → Prop} (h : Q () (f s)) :
    judge J (modifyK f) Q B s := hJ.judge_act h

theorem judge_onMem {x : Uvm.UvmM α} (hx : x.Checked (memJudge J s))
    (h : wp (memRely J.rely s) x (fun a m => Q a (s.setMem m)) s.mem) : judge J (onMem x) Q B s :=
  judge_lift mem_isPart (judge_of_wp hx h)

theorem Guards.judge_onFs (hJ : Guards J) {x : Fs.FsM α} (hQ : ∀ a k, Q a (s.setFs k)) : judge J (onFs x) Q B s := by
  apply judge_lift fs_isPart
  apply judge_of_wp (checked_of_forall (fun l k => (hJ.fs l _).1) x)
  exact wp_trivial ⟨fun l k => (hJ.fs l _).2⟩ (fun e => hJ.stop e) fun a k => hQ a k

end Judged

end Xv6Rpi.Process
