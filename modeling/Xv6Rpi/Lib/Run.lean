import Mathlib.Data.List.Basic

/-! # Runs of a machine

A machine is a partial function: what state an action leads to, if it is possible at all.
-/

namespace Xv6Rpi

variable {M A : Type} {step : M → A → Option M}

/-- Every action of a sequence has `P`, from the state it is taken in to the one it leads to,
as far as the actions are possible. -/
def Along (step : M → A → Option M) (P : M → A → M → Prop) : M → List A → Prop
  | _, [] => True
  | m, a :: as => ∀ m', step m a = some m' → P m a m' ∧ Along step P m' as

def execute (step : M → A → Option M) : M → List A → Option M
  | m, [] => some m
  | m, a :: as => (step m a).bind fun m => execute step m as

instance Along.decidable (P : M → A → M → Prop) [∀ m a m', Decidable (P m a m')] :
    (m : M) → (as : List A) → Decidable (Along step P m as)
  | _, [] => .isTrue trivial
  | m, a :: as =>
    match hs : step m a with
    | none => .isTrue fun m' hm' => by cases hs.symm.trans hm'
    | some m' =>
      have := Along.decidable P m' as
      decidable_of_iff (P m a m' ∧ Along step P m' as)
        ⟨fun h m₁ hm₁ => Option.some.inj (hs.symm.trans hm₁) ▸ h, fun h => h m' hs⟩

variable {P Q : M → A → M → Prop} {I : M → Prop} {m m' : M} {as : List A}

theorem Along.keeps (hStep : ∀ m a m', step m a = some m' → P m a m' → I m → I m') (h : Along step P m as)
    (hRun : execute step m as = some m') (hm : I m) : I m' := by
  induction as generalizing m with
  | nil => exact Option.some.inj hRun ▸ hm
  | cons a as ih =>
    obtain ⟨m₁, hm₁, hRun⟩ := Option.bind_eq_some_iff.mp hRun
    obtain ⟨hP, h⟩ := h m₁ hm₁
    exact ih h hRun (hStep m a m₁ hm₁ hP hm)

theorem along_true (m : M) (as : List A) : Along step (fun _ _ _ => True) m as := by
  induction as generalizing m with
  | nil => trivial
  | cons a as ih => exact fun m' _ => ⟨trivial, ih m'⟩

theorem execute_keeps (hStep : ∀ m a m', step m a = some m' → I m → I m') (hRun : execute step m as = some m')
    (hm : I m) : I m' :=
  (along_true m as).keeps (fun m a m' hs _ => hStep m a m' hs) hRun hm

theorem Along.at {bs : List A} {a : A} {m₁ m₂ : M} (h : Along step P m (as ++ a :: bs))
    (hRun : execute step m as = some m₁) (hs : step m₁ a = some m₂) : P m₁ a m₂ := by
  induction as generalizing m with
  | nil =>
    obtain rfl := Option.some.inj hRun
    exact (h m₂ hs).1
  | cons b as ih =>
    obtain ⟨m', hm', hRun⟩ := Option.bind_eq_some_iff.mp hRun
    exact ih (h m' hm').2 hRun

/-- Under an invariant one property of the steps may be traded for another. -/
theorem Along.imp (hKeep : ∀ m a m', step m a = some m' → I m → I m')
    (hImp : ∀ m a m', step m a = some m' → I m → P m a m' → Q m a m') (hm : I m) (h : Along step P m as) :
    Along step Q m as := by
  induction as generalizing m with
  | nil => trivial
  | cons a as ih =>
    intro m' hm'
    obtain ⟨hP, h⟩ := h m' hm'
    exact ⟨hImp m a m' hm' hm hP, ih (hKeep m a m' hm' hm) h⟩

end Xv6Rpi
