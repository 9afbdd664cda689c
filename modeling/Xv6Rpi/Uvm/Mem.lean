import Xv6Rpi.Base
import Xv6Rpi.Lib.Prog

/-! # Memory for page tables and user pages

A page directory or page table is named by its kernel address and holds 32-bit words; a user
page is named by its kernel address and holds bytes. The allocators are known by what they
promise: `alloc_page` returns 0 or a page that nobody has, `kpt_alloc` a page-table page that
nobody has. Which one they return next is the next of the `answers`; one that is not to be
had stands for a `kmalloc` that returns NULL.
-/

namespace Xv6Rpi.Uvm

/-! ## mmu.h -/

def pteSz : Nat := 2 ^ 12
def pdeSz : Nat := 2 ^ 20
def uaddrSz : Nat := 2 ^ 28
def numUpde : Nat := 256
def numPte : Nat := 256
def ptSz : Nat := 1024

def apKo : Nat := 1
def apKu : Nat := 3

def peTypes : Nat := 3
def updeType : Nat := 1
def peCache : Nat := 8
def peBuf : Nat := 4
def pteType : Nat := 2

def pdeIdx (v : Nat) : Nat := v >>> 20
def pteIdx (v : Nat) : Nat := (v >>> 12) &&& (numPte - 1)
def ptAddr (v : Nat) : Nat := alignDn v ptSz
def pteAddr (v : Nat) : Nat := alignDn v pteSz
def pteAp (pte : Nat) : Nat := (pte >>> 4) &&& 3

/-! ## The memory and its allocators -/

/-- `kernelPgtbl` is the address of the linker's symbol `_kernel_pgtbl`, `heap` where the
pages of the buddy allocator begin. Beside the memory itself, `wild` records whether
something has been freed that was not in use. -/
structure Mem where
  kernelPgtbl : Nat
  heap : Nat
  tab : Nat → Nat → Nat
  byte : Nat → Nat → UInt8
  page : Nat → Bool
  table : Nat → Bool
  wild : Bool
  answers : List Nat

/-- The calls of the allocators are told from all other actions. -/
inductive Label where
  | step
  | allocPage
  | kptAlloc
  | allocChunk
  deriving DecidableEq

abbrev UvmM (α : Type) := Prog Mem Panic Label α

namespace Mem

def Free (m : Mem) (v : Nat) : Prop :=
  v % pteSz = 0 ∧ m.heap ≤ v ∧ v + pteSz ≤ p2v paStop ∧ m.page v = false ∧
    ∀ k < 4, m.table (v + k * ptSz) = false

def FreeTable (m : Mem) (t : Nat) : Prop :=
  t % ptSz = 0 ∧ kernbase ≤ t ∧ t + ptSz ≤ p2v paStop ∧ t ≠ m.kernelPgtbl ∧ m.table t = false ∧
    m.page (alignDn t pteSz) = false

/-- A chunk of the buddy heap that `kmalloc(get_order(sizeof(struct pipe)))` may return. -/
def FreeChunk (m : Mem) (a : Nat) : Prop := m.FreeTable a ∧ m.heap ≤ a

instance (m : Mem) (v : Nat) : Decidable (m.Free v) := inferInstanceAs (Decidable (_ ∧ _))

instance (m : Mem) (t : Nat) : Decidable (m.FreeTable t) := inferInstanceAs (Decidable (_ ∧ _))

instance (m : Mem) (a : Nat) : Decidable (m.FreeChunk a) := inferInstanceAs (Decidable (_ ∧ _))

def setEntry (m : Mem) (d i w : Nat) : Mem :=
  { m with tab := Function.update m.tab d (Function.update (m.tab d) i w) }

theorem setEntry_self (m : Mem) (d i w : Nat) : (m.setEntry d i w).tab d = Function.update (m.tab d) i w :=
  Function.update_self ..

theorem setEntry_other (m : Mem) (i w : Nat) {d d' : Nat} (h : d' ≠ d) : (m.setEntry d i w).tab d' = m.tab d' :=
  Function.update_of_ne h ..

/-- `memmove` of `bytes` to offset `off` of page `v`. -/
def store (m : Mem) (v off : Nat) (bytes : List UInt8) : Mem :=
  { m with byte := Function.update m.byte v fun j =>
      if off ≤ j ∧ j < off + bytes.length then bytes.getD (j - off) 0 else m.byte v j }

def clear (m : Mem) (v : Nat) : Mem := { m with byte := Function.update m.byte v fun _ => 0 }

def copyPage (m : Mem) (w v : Nat) : Mem := { m with byte := Function.update m.byte w (m.byte v) }

end Mem

def Mem.next (m : Mem) : Nat := m.answers.headD 0

section Actions

def act {α : Type} (f : Mem → Except Panic (α × Mem)) : UvmM α := Prog.single .step f

def getM : UvmM Mem := act fun m => .ok (m, m)

def modifyM (f : Mem → Mem) : UvmM Unit := act fun m => .ok ((), f m)

def panic {α : Type} (e : Panic) : UvmM α := act fun _ => .error e

def allocPage : UvmM Nat := Prog.single .allocPage fun m =>
  if m.Free m.next then
    .ok (m.next, { m with answers := m.answers.tail, page := Function.update m.page m.next true })
  else .ok (0, { m with answers := m.answers.tail })

def freePage (v : Nat) : UvmM Unit := modifyM fun m =>
  { m with wild := m.wild || !m.page v, page := Function.update m.page v false }

/-- Where `kmalloc` returns NULL, `kpt_alloc` panics. -/
def kptAlloc : UvmM Nat := Prog.single .kptAlloc fun m =>
  if m.FreeTable m.next then
    .ok (m.next, { m with
      answers := m.answers.tail
      table := Function.update m.table m.next true
      tab := Function.update m.tab m.next fun _ => 0 })
  else .error .oomKptAlloc

def kptFree (t : Nat) : UvmM Unit := modifyM fun m =>
  { m with wild := m.wild || !m.table t, table := Function.update m.table t false }

end Actions

section Rules

open Prog

/-- Every `kpt_alloc` finds a page-table page. -/
def Tables : Label → Mem → Prop
  | .kptAlloc, m => m.FreeTable m.next
  | _, _ => True

instance : (l : Label) → (m : Mem) → Decidable (Tables l m)
  | .kptAlloc, m => inferInstanceAs (Decidable (m.FreeTable m.next))
  | .step, _ | .allocPage, _ | .allocChunk, _ => .isTrue trivial

/-- At most the panic of `kpt_alloc` may stop the run. -/
structure Allows (R : Rely Mem Panic Label) : Prop extends R.Calm where
  oom : ∀ m, R.may .kptAlloc m → ¬m.FreeTable m.next → R.stop .oomKptAlloc

variable {R : Rely Mem Panic Label} {m : Mem}

theorem wp_act (hR : R.Calm) {α : Type} {f : Mem → Except Panic (α × Mem)} {Q : α → Mem → Prop}
    (h : match f m with
      | .error e => R.stop e
      | .ok (a, m') => Q a m') : wp R (act f) Q m := by
  apply wp_calm hR
  revert h
  cases f m with
  | error e => exact id
  | ok r => exact id

theorem wp_getM (hR : R.Calm) {Q : Mem → Mem → Prop} (h : Q m m) : wp R getM Q m := wp_act hR h

theorem wp_modifyM (hR : R.Calm) {f : Mem → Mem} {Q : Unit → Mem → Prop} (h : Q () (f m)) : wp R (modifyM f) Q m :=
  wp_act hR h

theorem wp_kptAlloc (hR : Allows R) {Q : Nat → Mem → Prop}
    (h : ∀ t, m.FreeTable t → Q t { m with
      answers := m.answers.tail
      table := Function.update m.table t true
      tab := Function.update m.tab t fun _ => 0 }) : wp R kptAlloc Q m := by
  rw [kptAlloc, wp_single]
  refine fun hMay => ⟨hR.must _ _, ?_⟩
  by_cases hFree : m.FreeTable m.next
  · rw [if_pos hFree]
    exact h _ hFree
  · rw [if_neg hFree]
    exact hR.oom m hMay hFree

end Rules

end Xv6Rpi.Uvm
