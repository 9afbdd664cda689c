import Mathlib.Logic.Relation
import Xv6Rpi.Lib.Judge

/-! # What programs hold while they take turns

Several programs run on one state by interleaving their actions. Every program has a share of what
the state accounts for, and an invariant ties the state to all shares together. An action may change the
share of its own program, and the shares of those that run no program; what the others hold does not change behind their
backs. A program that by itself goes from share to share does so in every interleaving.
-/

namespace Xv6Rpi

open Prog

/-- How the shares `G` of the holders `H` belong to a state. What is in `C` no program changes, an
idle share is one of a holder without a program, and no action stops with a bad value. -/
structure Sharing (S E C H G : Type) where
  inv : S → C → (H → G) → Prop
  idle : G → Prop
  bad : E → Prop

namespace Sharing

variable {S E L C H G α β : Type} (A : Sharing S E C H G)

/-- The shares of the others are as they were, or idle. -/
def Others (h : H) (g g' : H → G) : Prop := ∀ h', h' ≠ h → g' h' = g h' ∨ A.idle (g h') ∧ A.idle (g' h')

/-- With the share `y` at first, the program of `h` keeps the invariant in any interleaving and comes to
the postcondition; whenever it takes an action its share satisfies `P`. -/
def Holds (P : G → Prop) (h : H) : Prog S E L α → G → (α → G → Prop) → Prop
  | .pure a, y, Q => Q a y
  | .act _ f k, y, Q => P y ∧ ¬A.idle y ∧ ∀ s c g, A.inv s c g → g h = y → match f s with
      | .error e => ¬A.bad e
      | .ok (b, s') => ∃ g', A.inv s' c g' ∧ A.Others h g g' ∧ Holds P h (k b) (g' h) Q

variable {A}

theorem Others.refl (h : H) (g : H → G) : A.Others h g g := fun _ _ => Or.inl rfl

theorem others_update [DecidableEq H] (h : H) (g : H → G) (y : G) : A.Others h g (Function.update g h y) :=
  fun _ hNe => Or.inl (Function.update_of_ne hNe ..)

section Rules

variable {P : G → Prop} {h : H} {y : G} {Q : α → G → Prop}

theorem holds_pure {a : α} (hQ : Q a y) : A.Holds P h (Pure.pure a : Prog S E L α) y Q := hQ

theorem holds_bind {x : Prog S E L β} {k : β → Prog S E L α} (hx : A.Holds P h x y fun b y' => A.Holds P h (k b) y' Q) :
    A.Holds P h (x >>= k) y Q := by
  induction x generalizing y with
  | pure b => exact hx
  | act l f r ih =>
    obtain ⟨hP, hIdle, hStep⟩ := hx
    refine ⟨hP, hIdle, fun s c g hInv hg => ?_⟩
    have hThis := hStep s c g hInv hg
    revert hThis
    cases f s with
    | error e => exact id
    | ok b =>
      rintro ⟨g', hInv', hOthers, hRest⟩
      exact ⟨g', hInv', hOthers, ih b.1 hRest⟩

theorem Holds.mono {x : Prog S E L α} {Q' : α → G → Prop} (hx : A.Holds P h x y Q) (hQ : ∀ a y', Q a y' → Q' a y') :
    A.Holds P h x y Q' := by
  induction x generalizing y with
  | pure a => exact hQ a y hx
  | act l f r ih =>
    obtain ⟨hP, hIdle, hStep⟩ := hx
    refine ⟨hP, hIdle, fun s c g hInv hg => ?_⟩
    have hThis := hStep s c g hInv hg
    revert hThis
    cases f s with
    | error e => exact id
    | ok b =>
      rintro ⟨g', hInv', hOthers, hRest⟩
      exact ⟨g', hInv', hOthers, ih b.1 hRest⟩

theorem holds_single {l : L} {f : S → Except E (α × S)} (hP : P y) (hIdle : ¬A.idle y)
    (hf : ∀ s c g, A.inv s c g → g h = y → match f s with
      | .error e => ¬A.bad e
      | .ok (a, s') => ∃ g', A.inv s' c g' ∧ A.Others h g g' ∧ Q a (g' h)) : A.Holds P h (Prog.single l f) y Q := by
  refine ⟨hP, hIdle, fun s c g hInv hg => ?_⟩
  have hThis := hf s c g hInv hg
  revert hThis
  cases f s with
  | error e => exact id
  | ok b => exact id

theorem holds_single_run {l : L} {f : S → Except E (α × S)} (hP : P y) (hIdle : ¬A.idle y)
    (hOk : ∀ s c g a s', A.inv s c g → g h = y → (Prog.single l f).run s = .ok (a, s') →
      ∃ g', A.inv s' c g' ∧ A.Others h g g' ∧ Q a (g' h))
    (hErr : ∀ s c g e, A.inv s c g → g h = y → (Prog.single l f).run s = .error e → ¬A.bad e) :
    A.Holds P h (Prog.single l f) y Q := by
  refine holds_single hP hIdle fun s c g hInv hg => ?_
  have hRun : (Prog.single l f).run s = f s := by
    rw [Prog.single, Prog.run]
    cases f s with
    | error e => rfl
    | ok r => rfl
  cases hf : f s with
  | error e => exact hErr s c g e hInv hg (hRun.trans hf)
  | ok r => exact hOk s c g r.1 r.2 hInv hg (hRun.trans hf)

/-- A program whose actions change no part of the state that is accounted for keeps its share. -/
theorem holds_keeps {T : Type} {get : S → T} (hInv : ∀ s s' c g, get s' = get s → A.inv s c g → A.inv s' c g)
    (hBad : ∀ e, ¬A.bad e) (hP : P y) (hIdle : ¬A.idle y) {x : Prog S E L α} (hx : x.Keeps get) (hQ : ∀ a, Q a y) :
    A.Holds P h x y Q := by
  induction x with
  | pure a => exact hQ a
  | act l f r ih =>
    obtain ⟨hHere, hRest⟩ := hx
    refine ⟨hP, hIdle, fun s c g hs hg => ?_⟩
    cases hf : f s with
    | error e => exact hBad e
    | ok b =>
      refine ⟨g, hInv s b.2 c g (hHere s b.1 b.2 (by rw [hf])) hs, .refl h g, ?_⟩
      rw [hg]
      exact ih b.1 (hRest b.1)

end Rules

section Lift

variable {S' E' L' C' H' G' : Type} {A' : Sharing S' E' C' H' G'} {get : S' → S} {set : S → S' → S'} {lab : L → L'}
  {err : E → E'} {P : G → Prop} {P' : G' → Prop} {h : H} {h' : H'}

/-- The share `put y` of `h'` contains the share `y` of `h` in a part of the state. -/
def Contains (A : Sharing S E C H G) (A' : Sharing S' E' C' H' G') (get : S' → S) (set : S → S' → S') (h : H) (h' : H')
    (put : G → G') : Prop :=
  ∀ s' c' g' y, A'.inv s' c' g' → g' h' = put y → ∃ c g, A.inv (get s') c g ∧ g h = y ∧
    ∀ s₁ g₁, A.inv s₁ c g₁ → A.Others h g g₁ → ∃ g₂, A'.inv (set s₁ s') c' g₂ ∧ A'.Others h' g' g₂ ∧ g₂ h' = put (g₁ h)

theorem holds_lift {put : G → G'} (hPut : A.Contains A' get set h h' put) (hP : ∀ y, P' (put y)) (hIdle : ∀ y, ¬A'.idle (put y))
    (hBad : ∀ e, ¬A'.bad (err e)) {x : Prog S E L α} {y : G} {Q : α → G → Prop} {Q' : α → G' → Prop}
    (hx : A.Holds P h x y Q) (hQ : ∀ a y', Q a y' → Q' a (put y')) :
    A'.Holds P' h' (x.lift get set lab err) (put y) Q' := by
  induction x generalizing y with
  | pure a => exact hQ a y hx
  | act l f k ih =>
    refine ⟨hP y, hIdle y, fun s' c' g' hInv hg => ?_⟩
    obtain ⟨c, g, hIn, hy, hBack⟩ := hPut s' c' g' y hInv hg
    have hThis := hx.2.2 (get s') c g hIn hy
    cases hf : f (get s') with
    | error e =>
      simp only [hf]
      exact hBad e
    | ok r =>
      rw [hf] at hThis
      obtain ⟨g₁, hIn₁, hOthers, hRest⟩ := hThis
      simp only [hf]
      obtain ⟨g₂, hInv₂, hOthers₂, hEq⟩ := hBack r.2 g₁ hIn₁ hOthers
      refine ⟨g₂, hInv₂, hOthers₂, ?_⟩
      rw [hEq]
      exact ih r.1 hRest

/-- A program on a part whose actions change nothing there that is accounted for keeps its share. -/
theorem holds_lift_keeps {T : Type} {look : S → T}
    (hInv : ∀ s' s₁ c g, look s₁ = look (get s') → A'.inv s' c g → A'.inv (set s₁ s') c g) (hBad : ∀ e, ¬A'.bad (err e))
    {y : G'} (hP : P' y) (hIdle : ¬A'.idle y) {x : Prog S E L α} (hx : x.Keeps look) {Q : α → G' → Prop} (hQ : ∀ a, Q a y) :
    A'.Holds P' h' (x.lift get set lab err) y Q := by
  induction x with
  | pure a => exact hQ a
  | act l f k ih =>
    obtain ⟨hHere, hRest⟩ := hx
    refine ⟨hP, hIdle, fun s' c g hs hg => ?_⟩
    cases hf : f (get s') with
    | error e =>
      simp only [hf]
      exact hBad e
    | ok r =>
      simp only [hf]
      refine ⟨g, hInv s' r.2 c g (hHere (get s') r.1 r.2 (by rw [hf])) hs, .refl h' g, ?_⟩
      rw [hg]
      exact ih r.1 (hRest r.1)

end Lift

end Sharing

/-- Holders that run programs, each under a name that says which kind of program it is. -/
structure Crowd (S E L H K α : Type) where
  state : S
  prog : H → Option (K × Prog S E L α)

namespace Crowd

variable {S E L C H G K α : Type}

/-- One action of one program, the end of a program, or the start of one. -/
inductive Step [DecidableEq H] (starts : S → H → K → Prog S E L α → Prop) : Crowd S E L H K α → Crowd S E L H K α → Prop where
  | act (c : Crowd S E L H K α) (h : H) (k : K) {β : Type} (l : L) (f : S → Except E (β × S)) (r : β → Prog S E L α) (b : β)
      (s' : S) (hProg : c.prog h = some (k, .act l f r)) (hf : f c.state = .ok (b, s')) :
      Step starts c ⟨s', Function.update c.prog h (some (k, r b))⟩
  | ends (c : Crowd S E L H K α) (h : H) (k : K) (a : α) (hProg : c.prog h = some (k, .pure a)) :
      Step starts c ⟨c.state, Function.update c.prog h none⟩
  | start (c : Crowd S E L H K α) (h : H) (k : K) (x : Prog S E L α) (hProg : c.prog h = none)
      (hStart : starts c.state h k x) : Step starts c ⟨c.state, Function.update c.prog h (some (k, x))⟩

theorem runs_on [DecidableEq H] {starts : S → H → K → Prog S E L α → Prop} {c : Crowd S E L H K α} {h : H} {k : K}
    {x : Prog S E L α} {a : α} {s' : S} (hProg : c.prog h = some (k, x)) (hRun : x.run c.state = .ok (a, s')) :
    Relation.ReflTransGen (Step starts) c ⟨s', Function.update c.prog h none⟩ := by
  induction x generalizing c with
  | pure b =>
    have hEnd : Step starts c ⟨c.state, Function.update c.prog h none⟩ := .ends c h k b hProg
    cases hRun
    exact .single hEnd
  | act l f r ih =>
    rw [Prog.run] at hRun
    cases hf : f c.state with
    | error e =>
      rw [hf] at hRun
      cases hRun
    | ok b =>
      rw [hf] at hRun
      have hStep : Step starts c ⟨b.2, Function.update c.prog h (some (k, r b.1))⟩ := .act c h k l f r b.1 b.2 hProg hf
      have hRest := ih b.1 (c := ⟨b.2, Function.update c.prog h (some (k, r b.1))⟩) (Function.update_self ..) hRun
      rw [Function.update_idem] at hRest
      exact .head hStep hRest

theorem call [DecidableEq H] {starts : S → H → K → Prog S E L α → Prop} {c : Crowd S E L H K α} {h : H} {k : K} {x : Prog S E L α}
    {a : α} {s' : S} (hProg : c.prog h = none) (hStart : starts c.state h k x) (hRun : x.run c.state = .ok (a, s')) :
    Relation.ReflTransGen (Step starts) c ⟨s', c.prog⟩ := by
  have hRest : Relation.ReflTransGen (Step starts) ⟨c.state, Function.update c.prog h (some (k, x))⟩
      ⟨s', Function.update (Function.update c.prog h (some (k, x))) h none⟩ := runs_on (Function.update_self ..) hRun
  rw [Function.update_idem, ← hProg, Function.update_eq_self] at hRest
  exact .head (.start c h k x hProg hStart) hRest

variable (A : Sharing S E C H G) (P : K → G → Prop) (Q : K → α → G → Prop)

/-- What a holder is doing agrees with its share. A program may give up its share with its last action. -/
def Busy (h : H) (y : G) : Option (K × Prog S E L α) → Prop
  | none => A.idle y
  | some (k, x) => A.Holds (P k) h x y fun a y' => A.idle y' ∨ Q k a y'

/-- The shares belong to the state, and every program goes on with its share. -/
structure Inv (c : Crowd S E L H K α) (e : C) (g : H → G) : Prop where
  inv : A.inv c.state e g
  busy : ∀ h, Busy A P Q h (g h) (c.prog h)

/-- A program starts with a share that it gets, and leaves an idle one. -/
structure Fair (starts : S → H → K → Prog S E L α → Prop) : Prop where
  start : ∀ s e g h k x, A.inv s e g → A.idle (g h) → starts s h k x →
    ∃ g', A.inv s e g' ∧ A.Others h g g' ∧ A.Holds (P k) h x (g' h) fun a y => A.idle y ∨ Q k a y
  ends : ∀ s e g h k a, A.inv s e g → Q k a (g h) → ∃ g', A.inv s e g' ∧ A.Others h g g' ∧ A.idle (g' h)

variable {A P Q} {starts : S → H → K → Prog S E L α → Prop} {c c' : Crowd S E L H K α} {e : C} {g g' : H → G} {h : H}

theorem Inv.others (hc : Inv A P Q c e g) (hOthers : A.Others h g g') {h' : H} (hNe : h' ≠ h) :
    Busy A P Q h' (g' h') (c.prog h') := by
  have hBusy := hc.busy h'
  rcases hOthers h' hNe with hSame | hIdle
  · rwa [hSame]
  · revert hBusy
    cases c.prog h' with
    | none => exact fun _ => hIdle.2
    | some q =>
      obtain ⟨k, x⟩ := q
      cases x with
      | pure a => exact fun _ => Or.inl hIdle.2
      | act l f r => exact fun hBusy => absurd hIdle.1 hBusy.2.1

theorem Inv.update [DecidableEq H] (hc : Inv A P Q c e g) {s' : S} {q : Option (K × Prog S E L α)}
    (hInv : A.inv s' e g') (hOthers : A.Others h g g') (hq : Busy A P Q h (g' h) q) :
    Inv A P Q ⟨s', Function.update c.prog h q⟩ e g' := by
  refine ⟨hInv, fun h' => ?_⟩
  by_cases hh : h' = h
  · rw [hh]
    dsimp only
    rwa [Function.update_self]
  · dsimp only
    rw [Function.update_of_ne hh]
    exact hc.others hOthers hh

theorem Inv.step [DecidableEq H] (hFair : Fair A P Q starts) (hc : Inv A P Q c e g) (hStep : Step starts c c') :
    ∃ g', Inv A P Q c' e g' := by
  cases hStep with
  | act h k l f r b s' hProg hf =>
    have hBusy := hc.busy h
    rw [hProg] at hBusy
    have hThis := hBusy.2.2 c.state e g hc.inv rfl
    rw [hf] at hThis
    obtain ⟨g', hInv, hOthers, hRest⟩ := hThis
    exact ⟨g', hc.update hInv hOthers hRest⟩
  | ends h k a hProg =>
    have hBusy := hc.busy h
    rw [hProg] at hBusy
    rcases hBusy with hIdle | hEnd
    · exact ⟨g, hc.update hc.inv (.refl h g) hIdle⟩
    · obtain ⟨g', hInv, hOthers, hIdle⟩ := hFair.ends c.state e g h k a hc.inv hEnd
      exact ⟨g', hc.update hInv hOthers hIdle⟩
  | start h k x hProg hStart =>
    have hBusy := hc.busy h
    rw [hProg] at hBusy
    obtain ⟨g', hInv, hOthers, hRest⟩ := hFair.start c.state e g h k x hc.inv hBusy hStart
    exact ⟨g', hc.update hInv hOthers hRest⟩

theorem Inv.run [DecidableEq H] (hFair : Fair A P Q starts) (hc : Inv A P Q c e g) (hRun : Relation.ReflTransGen (Step starts) c c') :
    ∃ g', Inv A P Q c' e g' := by
  induction hRun with
  | refl => exact ⟨g, hc⟩
  | tail _ hStep ih =>
    obtain ⟨g₁, h₁⟩ := ih
    exact h₁.step hFair hStep

theorem Inv.not_bad (hc : Inv A P Q c e g) {k : K} {β : Type} {l : L} {f : S → Except E (β × S)} {r : β → Prog S E L α}
    (hProg : c.prog h = some (k, .act l f r)) {stop : E} (hf : f c.state = .error stop) : ¬A.bad stop := by
  have hBusy := hc.busy h
  rw [hProg] at hBusy
  have hThis := hBusy.2.2 c.state e g hc.inv rfl
  rwa [hf] at hThis

end Crowd

end Xv6Rpi
