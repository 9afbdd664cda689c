import Mathlib.Data.List.Basic

/-! # Events since an event

A trace is a list of events, the latest first.
-/

namespace Xv6Rpi

variable {E : Type} {P Q : E → Prop} {l : List E}

/-- An event with `Q` happened, and every event since has `P`. -/
def Since (P Q : E → Prop) : List E → Prop
  | [] => False
  | e :: l => Q e ∨ P e ∧ Since P Q l

theorem Since.append (h : Since P Q l) {es : List E} (hes : ∀ e ∈ es, P e) : Since P Q (es ++ l) := by
  induction es with
  | nil => exact h
  | cons e es ih =>
    exact .inr ⟨hes e (List.mem_cons_self ..), ih fun x hx => hes x (List.mem_cons_of_mem _ hx)⟩

theorem Since.of_mem {es : List E} {e : E} (he : e ∈ es) (hQ : Q e) (hes : ∀ e ∈ es, P e) :
    Since P Q (es ++ l) := by
  induction es with
  | nil => cases he
  | cons x es ih =>
    rcases List.mem_cons.mp he with rfl | he
    · exact .inl hQ
    · exact .inr ⟨hes x (List.mem_cons_self ..), ih he fun y hy => hes y (List.mem_cons_of_mem _ hy)⟩

end Xv6Rpi
