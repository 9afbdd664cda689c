import Xv6Rpi.Lib.Prog

/-! # When a program goes wrong

The rules of weakest preconditions say what follows when a program does not go wrong. Here it
is said exactly when it does: some action is taken in a state that is not good, and then the
program comes to a bad end, which is a bad stop or a bad last state. A program that is built
from actions which check this themselves needs no more than that; elsewhere the bad end comes
later, and it has to be shown.
-/

namespace Xv6Rpi.Prog

variable {S E L α β : Type}

/-- Which states are good for an action, and with which values a program may stop: as long as
all its actions are good, and after one that is not. As for a `Rely`, only runs whose actions are
taken where they may be count, and of the states in which they are taken something is guaranteed. -/
structure Judge (S E L : Type) where
  may : L → S → Prop
  must : L → S → Prop
  good : L → S → Prop
  fine : E → Prop
  bad : E → Prop

/-- The program comes to a bad end: it stops with a bad value or returns where it should not. -/
def Wrong (J : Judge S E L) (B : α → S → Prop) (x : Prog S E L α) (s : S) : Prop :=
  match x.run s with
  | .error e => J.bad e
  | .ok (a, s') => B a s'

/-- Good actions stop the program only with fine values and lead to the postcondition, and from an
action that is not good on the program comes to a bad end. -/
def judge (J : Judge S E L) : Prog S E L α → (Q B : α → S → Prop) → S → Prop
  | .pure a, Q, _, s => Q a s
  | .act l f k, Q, B, s => J.may l s → (J.good l s → J.must l s ∧ match f s with
      | .error e => J.fine e
      | .ok (b, s') => (k b).judge J Q B s') ∧ (¬J.good l s → Wrong J B (.act l f k) s)

/-- Every action that is not good stops the program at once, with a bad value. -/
def Checked (J : Judge S E L) : Prog S E L α → Prop
  | .pure _ => True
  | .act l f k => (∀ s, ¬J.good l s → ∃ e, J.bad e ∧ f s = .error e) ∧ ∀ b, (k b).Checked J

section Judge

variable {J : Judge S E L} {Q B : α → S → Prop} {s : S}

/-- What is relied on to judge a program by its weakest precondition. -/
def Judge.rely (J : Judge S E L) : Rely S E L where
  stop := J.fine
  may l s := J.may l s ∧ J.good l s
  must := J.must

/-- All actions are good for it. -/
def Rely.judge (R : Rely S E L) : Judge S E L := ⟨R.may, R.must, fun _ _ => True, R.stop, fun _ => False⟩

/-- What is relied on to show that a program comes to a bad end. -/
def Judge.worse (J : Judge S E L) : Rely S E L := ⟨J.bad, fun _ _ => True, fun _ _ => True⟩

theorem Judge.worse_calm (J : Judge S E L) : J.worse.Calm := ⟨fun _ _ => trivial⟩

theorem judge_pure {a : α} (h : Q a s) : judge J (Pure.pure a : Prog S E L α) Q B s := h

theorem wrong_of_wp {x : Prog S E L α} (h : wp J.worse x B s) : Wrong J B x s := by
  have hAlong : x.along J.worse.may s := along_of_forall fun _ _ => trivial
  rw [Wrong]
  cases hRun : x.run s with
  | error e => exact wp_error h hAlong hRun
  | ok r => exact wp_run h hAlong hRun

theorem Wrong.bind {x : Prog S E L β} {g : β → Prog S E L α} (h : Wrong J (fun b => Wrong J B (g b)) x s) :
    Wrong J B (x >>= g) s := by
  rw [Wrong] at h ⊢
  rw [run_bind]
  cases hRun : x.run s with
  | error e =>
    rw [hRun] at h
    exact h
  | ok r =>
    rw [hRun] at h
    exact h

theorem judge_bind {x : Prog S E L β} {g : β → Prog S E L α}
    (h : judge J x (fun b => judge J (g b) Q B) (fun b => Wrong J B (g b)) s) : judge J (x >>= g) Q B s := by
  induction x generalizing s with
  | pure b => exact h
  | act l f k ih =>
    intro hMay
    obtain ⟨hGood, hBad⟩ := h hMay
    refine ⟨fun hl => ?_, fun hl => (hBad hl).bind⟩
    obtain ⟨hMust, hStep⟩ := hGood hl
    refine ⟨hMust, ?_⟩
    cases hf : f s with
    | error e =>
      rw [hf] at hStep
      exact hStep
    | ok r =>
      rw [hf] at hStep
      exact ih r.1 hStep

/-- Where no value is bad to stop with, a program that comes to a bad end returns. -/
theorem Wrong.returns {x : Prog S E L α} (h : Wrong J B x s) (hBad : ∀ e, ¬J.bad e) :
    ∃ a s', x.run s = .ok (a, s') ∧ B a s' := by
  rw [Wrong] at h
  cases hRun : x.run s with
  | error e =>
    rw [hRun] at h
    exact absurd h (hBad e)
  | ok r =>
    rw [hRun] at h
    exact ⟨r.1, r.2, rfl, h⟩

/-- Where it returns nowhere, a program that comes to a bad end stops. -/
theorem Wrong.stops {x : Prog S E L α} (h : Wrong J (fun _ _ => False) x s) : ∃ e, x.run s = .error e ∧ J.bad e := by
  rw [Wrong] at h
  cases hRun : x.run s with
  | error e =>
    rw [hRun] at h
    exact ⟨e, rfl, h⟩
  | ok r =>
    rw [hRun] at h
    exact h.elim

theorem Wrong.mono {x : Prog S E L α} {B' : α → S → Prop} (h : Wrong J B x s) (hB : ∀ a s', B a s' → B' a s') :
    Wrong J B' x s := by
  rw [Wrong] at h ⊢
  cases hRun : x.run s with
  | error e =>
    rw [hRun] at h
    exact h
  | ok r =>
    rw [hRun] at h
    exact hB _ _ h

theorem judge_single {l : L} {f : S → Except E (α × S)}
    (hGood : J.may l s → J.good l s → J.must l s ∧ match f s with
      | .error e => J.fine e
      | .ok (a, s') => Q a s')
    (hBad : J.may l s → ¬J.good l s → Wrong J B (single l f) s) : judge J (single l f) Q B s := by
  refine fun hMay => ⟨fun hl => ?_, hBad hMay⟩
  obtain ⟨hMust, hStep⟩ := hGood hMay hl
  refine ⟨hMust, ?_⟩
  revert hStep
  cases f s with
  | error e => exact id
  | ok r => exact id

/-- A program whose actions check themselves is judged by its weakest precondition. -/
theorem judge_of_wp {x : Prog S E L α} (hChecked : x.Checked J) (h : wp J.rely x Q s) : judge J x Q B s := by
  induction x generalizing s with
  | pure a => exact h
  | act l f k ih =>
    obtain ⟨hHere, hRest⟩ := hChecked
    intro hMay
    constructor
    · intro hl
      obtain ⟨hMust, hStep⟩ := h ⟨hMay, hl⟩
      refine ⟨hMust, ?_⟩
      cases hf : f s with
      | error e =>
        rw [hf] at hStep
        exact hStep
      | ok r =>
        rw [hf] at hStep
        exact ih r.1 (hRest r.1) hStep
    · intro hl
      obtain ⟨e, hBad, hf⟩ := hHere s hl
      rw [Wrong, run, hf]
      exact hBad

theorem wp_of_judge {R : Rely S E L} {x : Prog S E L α} (h : judge R.judge x Q B s) : wp R x Q s := by
  induction x generalizing s with
  | pure a => exact h
  | act l f k ih =>
    intro hMay
    obtain ⟨hMust, hStep⟩ := (h hMay).1 trivial
    refine ⟨hMust, ?_⟩
    revert hStep
    cases f s with
    | error e => exact id
    | ok r => exact ih r.1

/-- A program whose actions are all good stops with a fine value or ends in the postcondition. -/
theorem judge_end {x : Prog S E L α} (h : judge J x Q B s) (hMay : x.along J.may s) (hGood : x.along J.good s) :
    match x.run s with
    | .error e => J.fine e
    | .ok (a, s') => Q a s' := by
  induction x generalizing s with
  | pure a => exact h
  | act l f k ih =>
    rw [along] at hMay hGood
    have hStep := ((h hMay.1).1 hGood.1).2
    rw [run]
    cases hf : f s with
    | error e =>
      rw [hf] at hStep
      exact hStep
    | ok r =>
      rw [hf] at hStep hMay hGood
      exact ih r.1 hStep hMay.2 hGood.2

/-- Where no value is fine to stop with, a program whose actions are all good returns. -/
theorem judge_returns {x : Prog S E L α} (h : judge J x Q B s) (hMay : x.along J.may s) (hGood : x.along J.good s)
    (hFine : ∀ e, ¬J.fine e) : ∃ a s', x.run s = .ok (a, s') ∧ Q a s' := by
  have hEnd := judge_end h hMay hGood
  cases hRun : x.run s with
  | error e =>
    rw [hRun] at hEnd
    exact absurd hEnd (hFine e)
  | ok r =>
    rw [hRun] at hEnd
    exact ⟨r.1, r.2, rfl, hEnd⟩

/-- A program that takes an action which is not good comes to a bad end. -/
theorem wrong_of_not_along {x : Prog S E L α} (h : judge J x Q B s) (hMay : x.along J.may s)
    (hNot : ¬x.along J.good s) : Wrong J B x s := by
  induction x generalizing s with
  | pure a => exact absurd trivial hNot
  | act l f k ih =>
    rw [along] at hMay hNot
    obtain ⟨hGood, hBad⟩ := h hMay.1
    by_cases hl : J.good l s
    · have hStep := (hGood hl).2
      rw [Wrong, run]
      cases hf : f s with
      | error e =>
        rw [hf] at hNot
        exact absurd ⟨hl, trivial⟩ hNot
      | ok r =>
        rw [hf] at hStep hMay hNot
        exact ih r.1 hStep hMay.2 fun hRest => hNot ⟨hl, hRest⟩
    · exact hBad hl

theorem judge_along {x : Prog S E L α} (h : judge J x Q B s) (hMay : x.along J.may s) (hGood : x.along J.good s) :
    x.along J.must s := by
  induction x generalizing s with
  | pure a => trivial
  | act l f k ih =>
    rw [along] at hMay hGood ⊢
    obtain ⟨hMust, hStep⟩ := (h hMay.1).1 hGood.1
    refine ⟨hMust, ?_⟩
    cases hf : f s with
    | error e => trivial
    | ok r =>
      rw [hf] at hStep hMay hGood
      exact ih r.1 hStep hMay.2 hGood.2

theorem judge_run {x : Prog S E L α} (h : judge J x Q B s) (hMay : x.along J.may s) {a : α} {s' : S}
    (hRun : x.run s = .ok (a, s')) : Q a s' ∨ B a s' := by
  by_cases hGood : x.along J.good s
  · have hEnd := judge_end h hMay hGood
    rw [hRun] at hEnd
    exact .inl hEnd
  · have hWrong := wrong_of_not_along h hMay hGood
    rw [Wrong, hRun] at hWrong
    exact .inr hWrong

section Lift

variable {S' E' L' : Type} {get : S' → S} {set : S → S' → S'} {lab : L → L'} {err : E → E'} {J' : Judge S' E' L'}
  {s' : S'}

/-- The judge of a part when the rest is that of `s'`. -/
def Judge.part (J : Judge S' E' L') (set : S → S' → S') (lab : L → L') (err : E → E') (s' : S') : Judge S E L where
  may l s := J.may (lab l) (set s s')
  must l s := J.must (lab l) (set s s')
  good l s := J.good (lab l) (set s s')
  fine e := J.fine (err e)
  bad e := J.bad (err e)

theorem Wrong.lift (hPart : IsPart get set) {x : Prog S E L α} {B : α → S' → Prop}
    (h : Wrong (J'.part set lab err s') (fun a s => B a (set s s')) x (get s')) :
    Wrong J' B (x.lift get set lab err) s' := by
  rw [Wrong, run_lift hPart]
  rw [Wrong] at h
  revert h
  cases x.run (get s') with
  | error e => exact id
  | ok r => exact id

theorem judge_lift (hPart : IsPart get set) {x : Prog S E L α} {Q B : α → S' → Prop}
    (h : judge (J'.part set lab err s') x (fun a s => Q a (set s s')) (fun a s => B a (set s s')) (get s')) :
    judge J' (x.lift get set lab err) Q B s' := by
  have hStart : set (get s') s' = s' := hPart.set_get s'
  induction x generalizing s' with
  | pure a =>
    have hEnd : Q a (set (get s') s') := h
    rwa [hStart] at hEnd
  | act l f k ih =>
    intro hMay
    obtain ⟨hGood, hBad⟩ := h (by rwa [← hStart] at hMay)
    constructor
    · intro hl
      obtain ⟨hMust, hStep⟩ := hGood (by rwa [← hStart] at hl)
      refine ⟨hStart ▸ hMust, ?_⟩
      cases hf : f (get s') with
      | error e =>
        rw [hf] at hStep
        simp only [hf]
        exact hStep
      | ok r =>
        rw [hf] at hStep
        simp only [hf]
        have hSame : J'.part set lab err (set r.2 s') = J'.part set lab err s' := by
          simp only [Judge.part, hPart.set_set]
        refine ih r.1 ?_ (hPart.set_get _)
        rw [hPart.get_set, hSame]
        simpa only [hPart.set_set] using hStep
    · intro hl
      exact (hBad fun hGood' => hl (by rw [← hStart]; exact hGood')).lift hPart

end Lift

-- a goal about a judgment is not to be evaluated along its program
attribute [irreducible] judge

end Judge

section Checked

variable {J : Judge S E L}

theorem checked_pure (a : α) : (Pure.pure a : Prog S E L α).Checked J := trivial

theorem checked_bind {x : Prog S E L β} {g : β → Prog S E L α} (h : x.Checked J) (hg : ∀ b, (g b).Checked J) :
    (x >>= g).Checked J := by
  induction x with
  | pure b => exact hg b
  | act l f k ih => exact ⟨h.1, fun b => ih b (h.2 b)⟩

theorem checked_single {l : L} {f : S → Except E (α × S)} (h : ∀ s, ¬J.good l s → ∃ e, J.bad e ∧ f s = .error e) :
    (single l f).Checked J := ⟨h, fun _ => trivial⟩

theorem checked_of_good {l : L} {f : S → Except E (α × S)} (h : ∀ s, J.good l s) : (single l f).Checked J :=
  checked_single fun s hl => absurd (h s) hl

theorem checked_of_forall (h : ∀ l s, J.good l s) (x : Prog S E L α) : x.Checked J := by
  induction x with
  | pure a => trivial
  | act l f k ih => exact ⟨fun s hl => absurd (h l s) hl, ih⟩

end Checked

section Lift

variable {S' E' L' : Type} {get : S' → S} {set : S → S' → S'} {lab : L → L'} {err : E → E'}

theorem checked_lift_part {J' : Judge S' E' L'} (hPart : IsPart get set) {x : Prog S E L α}
    (h : ∀ s, x.Checked (J'.part set lab err s)) : (x.lift get set lab err).Checked J' := by
  induction x with
  | pure a => trivial
  | act l f k ih =>
    refine ⟨fun s hl => ?_, fun b => ih b fun s => (h s).2 b⟩
    obtain ⟨e, hE, hf⟩ := (h s).1 (get s) fun hGood => hl (by rw [← hPart.set_get s]; exact hGood)
    exact ⟨err e, hE, by simp only [hf]⟩

end Lift

section Keeps

variable {T : Type} {get : S → T}

/-- No action changes this part of the state. -/
def Keeps (get : S → T) : Prog S E L α → Prop
  | .pure _ => True
  | .act _ f k => (∀ s b s', f s = .ok (b, s') → get s' = get s) ∧ ∀ b, (k b).Keeps get

theorem keeps_pure (a : α) : (Pure.pure a : Prog S E L α).Keeps get := trivial

theorem keeps_bind {x : Prog S E L β} {g : β → Prog S E L α} (h : x.Keeps get) (hg : ∀ b, (g b).Keeps get) :
    (x >>= g).Keeps get := by
  induction x with
  | pure b => exact hg b
  | act l f k ih => exact ⟨h.1, fun b => ih b (h.2 b)⟩

theorem keeps_single {l : L} {f : S → Except E (α × S)} (h : ∀ s b s', f s = .ok (b, s') → get s' = get s) :
    (single l f).Keeps get := ⟨h, fun _ => trivial⟩

theorem Keeps.of_keeps {T' : Type} {get' : S → T'} {x : Prog S E L α} (h : x.Keeps get)
    (hGet : ∀ s s', get s' = get s → get' s' = get' s) : x.Keeps get' := by
  induction x with
  | pure a => trivial
  | act l f k ih => exact ⟨fun s b s' hf => hGet s s' (h.1 s b s' hf), fun b => ih b (h.2 b)⟩

theorem wp_keeps {R : Rely S E L} (hR : R.Calm) (hStop : ∀ e, R.stop e) {x : Prog S E L α} (h : x.Keeps get)
    {Q : α → S → Prop} {s : S} (hQ : ∀ a s', get s' = get s → Q a s') : wp R x Q s := by
  induction x generalizing s with
  | pure a => exact hQ a s rfl
  | act l f k ih =>
    obtain ⟨hHere, hRest⟩ := h
    refine fun _ => ⟨hR.must l s, ?_⟩
    cases hf : f s with
    | error e => exact hStop e
    | ok r =>
      have hSame := hHere s r.1 r.2 (by rw [hf])
      exact ih r.1 (hRest r.1) fun a s' hEq => hQ a s' (hEq.trans hSame)

end Keeps

end Xv6Rpi.Prog
