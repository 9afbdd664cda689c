import Mathlib.Logic.Relation
import Mathlib.Tactic.Common

/-! # Programs made of atomic actions

A program is a tree of atomic actions on a shared state. An action is a function that
changes the state and returns a value, or stops the program; it carries a label that
says what kind of action it is. One program is run to its end by itself, and several
programs are run by interleaving their actions. The rules below are about one program
run by itself, from a state to its postcondition.
-/

namespace Xv6Rpi

/-- Programs over states `S` that may stop with a value of `E`; `L` are the labels. -/
inductive Prog (S E L : Type) (α : Type) : Type 1 where
  | pure (a : α)
  | act {β : Type} (l : L) (f : S → Except E (β × S)) (k : β → Prog S E L α)

namespace Prog

variable {S E L α β γ : Type}

def bind : Prog S E L α → (α → Prog S E L β) → Prog S E L β
  | .pure a, g => g a
  | .act l f k, g => .act l f fun b => (k b).bind g

instance : Monad (Prog S E L) where
  pure := .pure
  bind := .bind

/-- The program that is one action. -/
def single (l : L) (f : S → Except E (α × S)) : Prog S E L α := .act l f .pure

/-- The label of the next action. -/
def label : Prog S E L α → Option L
  | .pure _ => none
  | .act l _ _ => some l

/-- The program run by itself. -/
def run : Prog S E L α → S → Except E (α × S)
  | .pure a, s => .ok (a, s)
  | .act _ f k, s => match f s with
    | .error e => .error e
    | .ok (b, s') => (k b).run s'

@[simp] theorem run_pure (a : α) (s : S) : (Pure.pure a : Prog S E L α).run s = .ok (a, s) := rfl

theorem run_bind (x : Prog S E L α) (g : α → Prog S E L β) (s : S) :
    (x >>= g).run s = match x.run s with
      | .error e => .error e
      | .ok (a, s') => (g a).run s' := by
  induction x generalizing s with
  | pure a => rfl
  | act l f k ih =>
    change (Prog.act l f fun b => (k b).bind g).run s = _
    simp only [run]
    cases f s with
    | error e => rfl
    | ok r => exact ih r.1 r.2

/-- What a proof about a run relies on: the values the run may stop with, and the states
in which an action with a given label is taken; and what it guarantees of these states. -/
structure Rely (S E L : Type) where
  stop : E → Prop
  may : L → S → Prop
  must : L → S → Prop

/-- As long as its actions are taken where they may be, they are taken where they must be, and
running the program leads to the postcondition, or it stops with an allowed value. -/
def wp (R : Rely S E L) : Prog S E L α → (α → S → Prop) → S → Prop
  | .pure a, Q, s => Q a s
  | .act l f k, Q, s => R.may l s → R.must l s ∧ match f s with
    | .error e => R.stop e
    | .ok (b, s') => (k b).wp R Q s'

/-- Every action of the run is taken in a state in which it may be. -/
def along (may : L → S → Prop) : Prog S E L α → S → Prop
  | .pure _, _ => True
  | .act l f k, s => may l s ∧ match f s with
    | .error _ => True
    | .ok (b, s') => (k b).along may s'

instance decidableAlong {may : L → S → Prop} [∀ l s, Decidable (may l s)] :
    (x : Prog S E L α) → (s : S) → Decidable (x.along may s)
  | .pure _, _ => .isTrue trivial
  | .act l f k, s => match hf : f s with
    | .error _ => decidable_of_iff (may l s) (by rw [along, hf, and_true])
    | .ok (b, s') =>
      have : Decidable ((k b).along may s') := decidableAlong (k b) s'
      decidable_of_iff (may l s ∧ (k b).along may s') (by rw [along, hf])

theorem along_of_forall {may : L → S → Prop} (h : ∀ l s, may l s) {x : Prog S E L α} {s : S} : x.along may s := by
  induction x generalizing s with
  | pure a => trivial
  | act l f k ih =>
    rw [along]
    refine ⟨h l s, ?_⟩
    cases f s with
    | error e => trivial
    | ok r => exact ih r.1

theorem along_mono {may may' : L → S → Prop} (h : ∀ l s, may l s → may' l s) {x : Prog S E L α} {s : S}
    (hAlong : x.along may s) : x.along may' s := by
  induction x generalizing s with
  | pure a => trivial
  | act l f k ih =>
    rw [along] at hAlong ⊢
    refine ⟨h l s hAlong.1, ?_⟩
    cases hf : f s with
    | error e => trivial
    | ok r =>
      rw [hf] at hAlong
      exact ih r.1 hAlong.2

theorem along_congr {may may' : L → S → Prop} (h : ∀ l s, may l s ↔ may' l s) {x : Prog S E L α} {s : S} :
    x.along may s ↔ x.along may' s := ⟨along_mono fun l s => (h l s).mp, along_mono fun l s => (h l s).mpr⟩

theorem along_and {may may' : L → S → Prop} {x : Prog S E L α} {s : S} (h : x.along may s) (h' : x.along may' s) :
    x.along (fun l s => may l s ∧ may' l s) s := by
  induction x generalizing s with
  | pure a => trivial
  | act l f k ih =>
    rw [along] at h h' ⊢
    refine ⟨⟨h.1, h'.1⟩, ?_⟩
    cases hf : f s with
    | error e => trivial
    | ok r =>
      rw [hf] at h h'
      exact ih r.1 h.2 h'.2

theorem along_bind {may : L → S → Prop} (x : Prog S E L α) (g : α → Prog S E L β) (s : S) :
    (x >>= g).along may s ↔ x.along may s ∧ match x.run s with
      | .error _ => True
      | .ok (a, s') => (g a).along may s' := by
  induction x generalizing s with
  | pure a => exact (iff_of_eq (true_and _)).symm
  | act l f k ih =>
    change (Prog.act l f fun b => (k b).bind g).along may s ↔ _
    simp only [along, run, and_assoc]
    refine and_congr_right fun _ => ?_
    cases f s with
    | error e => exact (and_self_iff).symm
    | ok r => exact ih r.1 r.2

variable {R : Rely S E L} {Q : α → S → Prop} {s : S}

@[simp] theorem wp_pure (a : α) : wp R (Pure.pure a : Prog S E L α) Q s ↔ Q a s := Iff.rfl

@[simp] theorem wp_bind (x : Prog S E L β) (g : β → Prog S E L α) :
    wp R (x >>= g) Q s ↔ wp R x (fun b => wp R (g b) Q) s := by
  induction x generalizing s with
  | pure b => rfl
  | act l f k ih =>
    change wp R (Prog.act l f fun b => (k b).bind g) Q s ↔ _
    simp only [wp]
    refine imp_congr_right fun _ => and_congr_right fun _ => ?_
    cases f s with
    | error e => rfl
    | ok r => exact ih r.1

@[simp] theorem wp_map (f : β → α) (x : Prog S E L β) :
    wp R (f <$> x) Q s ↔ wp R x (fun b => Q (f b)) s := by
  change wp R (x >>= fun b => Pure.pure (f b)) Q s ↔ _
  rw [wp_bind]
  rfl

theorem wp_single (l : L) (f : S → Except E (α × S)) :
    wp R (single l f) Q s ↔ (R.may l s → R.must l s ∧ match f s with
      | .error e => R.stop e
      | .ok (a, s') => Q a s') := by
  rw [single, wp]
  rfl

theorem wp_mono {x : Prog S E L α} {Q' : α → S → Prop} (h : wp R x Q s)
    (hQ : ∀ a s', Q a s' → Q' a s') : wp R x Q' s := by
  induction x generalizing s with
  | pure a => exact hQ a s h
  | act l f k ih =>
    intro hMay
    obtain ⟨hMust, hStep⟩ := h hMay
    refine ⟨hMust, ?_⟩
    revert hStep
    cases f s with
    | error e => exact id
    | ok r => exact ih r.1

theorem wp_run {x : Prog S E L α} (h : wp R x Q s) (hMay : x.along R.may s) {a : α} {s' : S}
    (hRun : x.run s = .ok (a, s')) : Q a s' := by
  induction x generalizing s with
  | pure b =>
    obtain ⟨rfl, rfl⟩ := Prod.mk.inj (Except.ok.inj hRun)
    exact h
  | act l f k ih =>
    rw [along] at hMay
    have hStep := (h hMay.1).2
    cases hf : f s with
    | error e =>
      rw [run, hf] at hRun
      cases hRun
    | ok r =>
      rw [run, hf] at hRun
      rw [hf] at hMay hStep
      exact ih r.1 hStep hMay.2 hRun

theorem wp_error {x : Prog S E L α} (h : wp R x Q s) (hMay : x.along R.may s) {e : E}
    (hRun : x.run s = .error e) : R.stop e := by
  induction x generalizing s with
  | pure b => cases hRun
  | act l f k ih =>
    rw [along] at hMay
    have hStep := (h hMay.1).2
    cases hf : f s with
    | error e' =>
      rw [run, hf] at hRun
      rw [hf] at hStep
      exact Except.error.inj hRun ▸ hStep
    | ok r =>
      rw [run, hf] at hRun
      rw [hf] at hMay hStep
      exact ih r.1 hStep hMay.2 hRun

theorem wp_along {x : Prog S E L α} (h : wp R x Q s) (hMay : x.along R.may s) : x.along R.must s := by
  induction x generalizing s with
  | pure b => trivial
  | act l f k ih =>
    rw [along] at hMay ⊢
    obtain ⟨hMust, hStep⟩ := h hMay.1
    refine ⟨hMust, ?_⟩
    cases hf : f s with
    | error e => trivial
    | ok r =>
      rw [hf] at hMay hStep
      exact ih r.1 hStep hMay.2

/-- Nothing is guaranteed of the states in which actions are taken. -/
structure Rely.Calm (R : Rely S E L) : Prop where
  must : ∀ l s, R.must l s

theorem wp_calm (hR : R.Calm) {l : L} {f : S → Except E (α × S)} (h : match f s with
    | .error e => R.stop e
    | .ok (a, s') => Q a s') : wp R (single l f) Q s := by
  rw [wp_single]
  refine fun _ => ⟨hR.must l s, ?_⟩
  revert h
  cases f s with
  | error e => exact id
  | ok r => exact id

theorem wp_trivial (hR : R.Calm) (hStop : ∀ e, R.stop e) (hQ : ∀ a s, Q a s) {x : Prog S E L α} : wp R x Q s := by
  induction x generalizing s with
  | pure a => exact hQ a s
  | act l f k ih =>
    refine fun _ => ⟨hR.must l s, ?_⟩
    cases f s with
    | error e => exact hStop e
    | ok r => exact ih r.1

/-- Runs that may stop with any value. -/
def Rely.loose : Rely S E L := ⟨fun _ => True, fun _ _ => True, fun _ _ => True⟩

/-- Runs that do not stop. -/
def Rely.strict : Rely S E L := ⟨fun _ => False, fun _ _ => True, fun _ _ => True⟩

theorem Rely.loose_calm : (Rely.loose : Rely S E L).Calm := ⟨fun _ _ => trivial⟩

theorem Rely.strict_calm : (Rely.strict : Rely S E L).Calm := ⟨fun _ _ => trivial⟩

theorem wp_loose {x : Prog S E L α} (h : wp .loose x Q s) {a : α} {s' : S} (hRun : x.run s = .ok (a, s')) : Q a s' :=
  wp_run h (along_of_forall fun _ _ => trivial) hRun

theorem wp_strict {x : Prog S E L α} (h : wp .strict x Q s) : ∃ a s', x.run s = .ok (a, s') ∧ Q a s' := by
  have hAlong : x.along (Rely.strict : Rely S E L).may s := along_of_forall fun _ _ => trivial
  cases hRun : x.run s with
  | error e => exact (wp_error h hAlong hRun).elim
  | ok r => exact ⟨r.1, r.2, rfl, wp_run h hAlong hRun⟩

section Lift

variable {S' E' L' : Type}

/-- The program on one part of a larger state; `get` and `set` are that part, and `lab` and
`err` say what its labels and the values it stops with are called there. -/
def lift (get : S' → S) (set : S → S' → S') (lab : L → L') (err : E → E') : Prog S E L α → Prog S' E' L' α
  | .pure a => .pure a
  | .act l f k => .act (lab l) (fun s' => match f (get s') with
      | .error e => .error (err e)
      | .ok (b, s) => .ok (b, set s s')) fun b => (k b).lift get set lab err

theorem lift_bind (get : S' → S) (set : S → S' → S') (lab : L → L') (err : E → E') (x : Prog S E L β) (k : β → Prog S E L α) :
    (x >>= k).lift get set lab err = (x.lift get set lab err >>= fun b => (k b).lift get set lab err) := by
  induction x with
  | pure b => rfl
  | act l f r ih =>
    change Prog.act _ _ _ = Prog.act _ _ _
    exact congrArg _ (funext ih)

/-- What was put into the part is there, and it is all that was put there. -/
structure IsPart (get : S' → S) (set : S → S' → S') : Prop where
  get_set : ∀ s s', get (set s s') = s
  set_get : ∀ s', set (get s') s' = s'
  set_set : ∀ s₁ s₂ s', set s₁ (set s₂ s') = set s₁ s'

theorem run_lift {get : S' → S} {set : S → S' → S'} {lab : L → L'} {err : E → E'} (hPart : IsPart get set)
    (x : Prog S E L α) (s' : S') : (x.lift get set lab err).run s' = match x.run (get s') with
      | .error e => .error (err e)
      | .ok (a, s) => .ok (a, set s s') := by
  induction x generalizing s' with
  | pure a => exact congrArg (fun s => Except.ok (a, s)) (hPart.set_get s').symm
  | act l f k ih =>
    simp only [lift, run]
    cases f (get s') with
    | error e => rfl
    | ok r =>
      dsimp only
      rw [ih r.1, hPart.get_set]
      cases (k r.1).run r.2 with
      | error e => rfl
      | ok r' => simp only [hPart.set_set]

/-- What a proof about the part relies on when the rest is that of `s'`. -/
def Rely.part (R : Rely S' E' L') (set : S → S' → S') (lab : L → L') (err : E → E') (s' : S') : Rely S E L where
  stop e := R.stop (err e)
  may l s := R.may (lab l) (set s s')
  must l s := R.must (lab l) (set s s')

theorem Rely.Calm.part {R : Rely S' E' L'} (hR : R.Calm) (set : S → S' → S') (lab : L → L') (err : E → E') (s' : S') :
    (R.part set lab err s').Calm := ⟨fun l s => hR.must (lab l) (set s s')⟩

theorem wp_lift {get : S' → S} {set : S → S' → S'} {lab : L → L'} {err : E → E'} (hPart : IsPart get set)
    {R : Rely S' E' L'} {x : Prog S E L α} {Q : α → S' → Prop} {s' : S'}
    (h : wp (R.part set lab err s') x (fun a s => Q a (set s s')) (get s')) : wp R (x.lift get set lab err) Q s' := by
  induction x generalizing s' with
  | pure a =>
    have hEnd : Q a (set (get s') s') := h
    rwa [hPart.set_get] at hEnd
  | act l f k ih =>
    intro hMay
    have hStart : set (get s') s' = s' := hPart.set_get s'
    obtain ⟨hMust, hStep⟩ := h (by rwa [← hStart] at hMay)
    refine ⟨hStart ▸ hMust, ?_⟩
    cases hf : f (get s') with
    | error e =>
      rw [hf] at hStep
      simp only [hf]
      exact hStep
    | ok r =>
      rw [hf] at hStep
      simp only [hf]
      apply ih r.1
      have hSame : R.part set lab err (set r.2 s') = R.part set lab err s' := by
        simp only [Rely.part, hPart.set_set]
      rw [hPart.get_set, hSame]
      simpa only [hPart.set_set] using hStep

end Lift

section Yields

variable {P : α → Prop}

/-- Whatever state it is started in, `x` only returns values of which `P` holds. -/
def Yields (x : Prog S E L α) (P : α → Prop) : Prop := ∀ s, wp .loose x (fun a _ => P a) s

theorem Yields.pure {a : α} (h : P a) : Yields (Pure.pure a : Prog S E L α) P := fun _ => h

theorem Yields.bind {x : Prog S E L β} {k : β → Prog S E L α} (h : ∀ b, Yields (k b) P) : Yields (x >>= k) P := fun s => by
  rw [wp_bind]
  exact wp_trivial Rely.loose_calm (fun _ => trivial) h

theorem Yields.wp {x : Prog S E L α} (h : Yields x P) (hQ : ∀ a s', P a → Q a s') : Prog.wp .loose x Q s := wp_mono (h s) hQ

end Yields

end Prog

end Xv6Rpi
