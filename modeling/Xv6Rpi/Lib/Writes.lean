import Mathlib.Data.List.Basic
import Mathlib.Logic.Function.Basic

/-! # Lists of writes to a store

A store is a function from places to contents, and a write replaces the contents of one
place. What matters for a store that can stop between two writes is how a prefix of a
list of writes, followed by the whole list, relates to the whole list.
-/

namespace Xv6Rpi.Writes

variable {α β : Type*} [DecidableEq α]

/-- The store after a list of writes, the first one first. -/
def apply (ws : List (α × β)) (f : α → β) : α → β :=
  ws.foldl (fun f w => Function.update f w.1 w.2) f

@[simp] theorem apply_nil (f : α → β) : apply [] f = f := rfl

@[simp] theorem apply_cons (w : α × β) (ws : List (α × β)) (f : α → β) :
    apply (w :: ws) f = apply ws (Function.update f w.1 w.2) := rfl

theorem apply_append (ws vs : List (α × β)) (f : α → β) : apply (ws ++ vs) f = apply vs (apply ws f) :=
  List.foldl_append

theorem apply_concat (ws : List (α × β)) (w : α × β) (f : α → β) :
    apply (ws ++ [w]) f = Function.update (apply ws f) w.1 w.2 := apply_append ws [w] f

theorem apply_of_forall_ne {ws : List (α × β)} {f : α → β} {x : α} (h : ∀ w ∈ ws, w.1 ≠ x) :
    apply ws f x = f x := by
  induction ws generalizing f with
  | nil => rfl
  | cons w ws ih =>
    rw [apply_cons, ih fun v hv => h v (List.mem_cons_of_mem _ hv),
      Function.update_of_ne (h w List.mem_cons_self).symm]

/-- After the writes a place holds what the last write to it left, whatever it held. -/
theorem apply_congr {ws : List (α × β)} {f g : α → β} {x : α} (h : (∃ w ∈ ws, w.1 = x) ∨ f x = g x) :
    apply ws f x = apply ws g x := by
  induction ws generalizing f g with
  | nil =>
    rcases h with ⟨w, hw, _⟩ | h
    · cases hw
    · exact h
  | cons w ws ih =>
    rw [apply_cons, apply_cons]
    apply ih
    by_cases hx : w.1 = x
    · subst hx
      exact Or.inr (by rw [Function.update_self, Function.update_self])
    · rw [Function.update_of_ne (Ne.symm hx), Function.update_of_ne (Ne.symm hx)]
      refine h.imp_left ?_
      rintro ⟨v, hv, rfl⟩
      rcases List.mem_cons.mp hv with rfl | hv
      · exact absurd rfl hx
      · exact ⟨v, hv, rfl⟩

theorem apply_mem {ws : List (α × β)} {f : α → β} {x : α} (h : ∃ w ∈ ws, w.1 = x) :
    (x, apply ws f x) ∈ ws := by
  induction ws generalizing f with
  | nil =>
    obtain ⟨w, hw, _⟩ := h
    cases hw
  | cons w ws ih =>
    by_cases hx : ∃ v ∈ ws, v.1 = x
    · exact List.mem_cons_of_mem _ (ih hx)
    · obtain ⟨v, hv, rfl⟩ := h
      rcases List.mem_cons.mp hv with rfl | hv
      · rw [apply_cons, apply_of_forall_ne fun u hu hEq => hx ⟨u, hu, hEq⟩, Function.update_self]
        exact List.mem_cons_self
      · exact absurd ⟨v, hv, rfl⟩ hx

omit [DecidableEq α] in
/-- A prefix of one list followed by another is a prefix of the first, or all of it and
a prefix of the second. -/
theorem take_append_cases (ws vs : List (α × β)) (k : Nat) :
    (∃ i, (ws ++ vs).take k = ws.take i) ∨ ∃ i, (ws ++ vs).take k = ws ++ vs.take i := by
  rcases Nat.le_total k ws.length with h | h
  · exact Or.inl ⟨k, List.take_append_of_le_length h⟩
  · exact Or.inr ⟨k - ws.length, by rw [List.take_append, List.take_of_length_le h]⟩

end Xv6Rpi.Writes
