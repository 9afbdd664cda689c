import Mathlib.Logic.Function.Basic
import Mathlib.Data.List.Basic

/-! # Copying cells one after the other

A list of moves, each from one cell of a memory to another, is run in its order. It has the effect
of all moves at once when no cell is written twice and no move reads a cell that an earlier one wrote.
When instead the later moves spare what the earlier ones wrote and read, the cells are chained.
-/

namespace Xv6Rpi.Copy

variable {α β : Type} [DecidableEq α]

/-- The moves `(destination, source)` of a list, one after the other. -/
def copyAll (m : α → β) : List (α × α) → α → β
  | [] => m
  | (d, s) :: moves => copyAll (Function.update m d (m s)) moves

/-- The first move leaves the destination and the source of the second alone. -/
def Before (p q : α × α) : Prop := p.1 ≠ q.1 ∧ p.1 ≠ q.2

variable {m : α → β} {moves : List (α × α)}

theorem copyAll_of_notMem {a : α} (h : ∀ p ∈ moves, p.1 ≠ a) : copyAll m moves a = m a := by
  induction moves generalizing m with
  | nil => rfl
  | cons p moves ih =>
    obtain ⟨hHead, hTail⟩ := List.forall_mem_cons.mp h
    rw [copyAll, ih hTail, Function.update_of_ne hHead.symm]

/-- Moves in a safe order all deliver what their sources held at the start. -/
theorem copyAll_of_mem {p : α × α} (h : moves.Pairwise Before) (hp : p ∈ moves) : copyAll m moves p.1 = m p.2 := by
  induction moves generalizing m with
  | nil => cases hp
  | cons q moves ih =>
    obtain ⟨hHead, hTail⟩ := List.pairwise_cons.mp h
    rw [copyAll]
    cases hp with
    | head => rw [copyAll_of_notMem fun r hr => (hHead r hr).1.symm, Function.update_self]
    | tail _ hp => rw [ih hTail hp, Function.update_of_ne (hHead p hp).2.symm]

/-- The second move writes neither the destination nor the source of the first. -/
def After (p q : α × α) : Prop := q.1 ≠ p.1 ∧ q.1 ≠ p.2

/-- When no move writes a cell that an earlier one wrote or read, each destination ends up with
what its source holds at the end. -/
theorem copyAll_eq_source {p : α × α} (h : moves.Pairwise After) (hp : p ∈ moves) : copyAll m moves p.1 = copyAll m moves p.2 := by
  induction moves generalizing m with
  | nil => cases hp
  | cons q moves ih =>
    obtain ⟨hHead, hTail⟩ := List.pairwise_cons.mp h
    rw [copyAll]
    cases hp with
    | head =>
      rw [copyAll_of_notMem fun r hr => (hHead r hr).1, copyAll_of_notMem fun r hr => (hHead r hr).2, Function.update_self]
      by_cases hSame : p.2 = p.1
      · rw [hSame, Function.update_self]
      · rw [Function.update_of_ne hSame]
    | tail _ hp => exact ih hTail hp

end Xv6Rpi.Copy
