import Mathlib.Logic.Function.Basic
import Xv6Rpi.Lib.Prog

/-! # Programs that take turns

Several programs run on one state by interleaving their actions. Some actions may only be
taken inside a session: a program opens a session, takes them, and closes it, and at most
one session is open at a time. A flag of the state shows whether one is. A program that
keeps to this discipline by itself keeps to it in every interleaving.
-/

namespace Xv6Rpi

/-- What an action has to do with sessions. -/
inductive Kind where
  | plain
  | inside
  | opens
  | closes
  deriving DecidableEq

/-- Whether the program is in a session after an action. -/
def Kind.next (t : Bool) : Kind → Bool
  | .plain => t
  | .inside => t
  | .opens => true
  | .closes => false

/-- Sessions of programs: the kinds of actions, the flag of the state, the actions that are
taken outside a session, and the stops that must only come from an action outside one. -/
structure Discipline (S E L : Type) where
  kind : L → Kind
  flag : S → Bool
  may : L → S → Prop
  bad : E → Prop

namespace Discipline

variable {S E L α β : Type} (D : Discipline S E L)

/-- An action keeps the flag in step with the session it belongs to. -/
structure Sound (l : L) (f : S → Except E (α × S)) : Prop where
  flag : ∀ s a s', f s = .ok (a, s') → D.flag s' = (D.kind l).next (D.flag s)
  opens : ∀ s a s', f s = .ok (a, s') → D.kind l = .opens → D.flag s = false
  bad : ∀ s e, f s = .error e → D.bad e → D.kind l = .inside ∧ D.flag s = false

/-- Started in a session or outside one, the program keeps to the discipline. -/
def Keeps : Prog S E L α → Bool → (α → Bool → Prop) → Prop
  | .pure a, t, P => P a t
  | .act l f k, t, P =>
    (D.kind l = .inside ∨ D.kind l = .closes → t = true) ∧ (D.kind l = .opens → t = false) ∧ D.Sound l f ∧
      ∀ s b s', f s = .ok (b, s') → (t = false → D.may l s) → Keeps (k b) ((D.kind l).next t) P

variable {D}

theorem keeps_bind {x : Prog S E L β} {g : β → Prog S E L α} {t : Bool} {P : α → Bool → Prop}
    (h : D.Keeps x t fun b t' => D.Keeps (g b) t' P) : D.Keeps (x >>= g) t P := by
  induction x generalizing t with
  | pure b => exact h
  | act l f k ih =>
    obtain ⟨h1, h2, h3, h4⟩ := h
    exact ⟨h1, h2, h3, fun s b s' hf hMay => ih b (h4 s b s' hf hMay)⟩

theorem keeps_single {l : L} {f : S → Except E (α × S)} {t : Bool} {P : α → Bool → Prop}
    (hIn : D.kind l = .inside ∨ D.kind l = .closes → t = true) (hOpen : D.kind l = .opens → t = false)
    (hf : D.Sound l f)
    (hP : ∀ s a s', f s = .ok (a, s') → (t = false → D.may l s) → P a ((D.kind l).next t)) :
    D.Keeps (Prog.single l f) t P := ⟨hIn, hOpen, hf, hP⟩

theorem Keeps.mono {x : Prog S E L α} {t : Bool} {P P' : α → Bool → Prop} (h : D.Keeps x t P)
    (hP : ∀ a t', P a t' → P' a t') : D.Keeps x t P' := by
  induction x generalizing t with
  | pure a => exact hP a t h
  | act l f k ih =>
    obtain ⟨h1, h2, h3, h4⟩ := h
    exact ⟨h1, h2, h3, fun s b s' hf hMay => ih b (h4 s b s' hf hMay)⟩

variable (D)

/-- The program ends where it started, in a session or outside one. -/
def Stays (t : Bool) (x : Prog S E L α) : Prop := D.Keeps x t fun _ t' => t' = t

variable {D}

theorem Stays.pure (t : Bool) (a : α) : D.Stays t (Pure.pure a : Prog S E L α) := rfl

theorem Stays.bind {t : Bool} {x : Prog S E L β} {g : β → Prog S E L α} (h : D.Stays t x)
    (hg : ∀ b, D.Stays t (g b)) : D.Stays t (x >>= g) := by
  apply keeps_bind
  refine Keeps.mono h fun b t' ht => ?_
  subst ht
  exact hg b

end Discipline

/-- A pool of programs that run on one state; `inside` shows which of them are in a session. -/
structure Pool (S E L : Type) where
  state : S
  prog : Nat → Prog S E L Unit
  inside : Nat → Bool

namespace Pool

variable {S E L : Type} (D : Discipline S E L) (starts : Pool S E L → Nat → Prog S E L Unit → Prop)

/-- One action of one program, or a program that has ended begins anew. -/
inductive Step : Pool S E L → Pool S E L → Prop where
  | act (c : Pool S E L) (p : Nat) {β : Type} (l : L) (f : S → Except E (β × S)) (k : β → Prog S E L Unit) (b : β)
      (s' : S) (hProg : c.prog p = .act l f k) (hf : f c.state = .ok (b, s'))
      (hMay : c.inside p = false → D.may l c.state) :
      Step c ⟨s', Function.update c.prog p (k b), Function.update c.inside p ((D.kind l).next (c.inside p))⟩
  | start (c : Pool S E L) (p : Nat) (x : Prog S E L Unit) (hDone : c.prog p = .pure ())
      (hStart : starts c p x) : Step c { c with prog := Function.update c.prog p x }

/-- Every program keeps to the discipline, and the flag shows the one open session. -/
structure Inv (c : Pool S E L) : Prop where
  keeps : ∀ p, D.Keeps (c.prog p) (c.inside p) fun _ t => t = false
  one : ∀ p q, c.inside p = true → c.inside q = true → p = q
  flag : ∀ p, c.inside p = true → D.flag c.state = true

variable {D starts}

section Step

variable {c c' : Pool S E L} {p : Nat} {β : Type} {l : L} {f : S → Except E (β × S)}
  {k : β → Prog S E L Unit} {b : β} {s' : S}

theorem Inv.act (h : Inv D c) (hProg : c.prog p = .act l f k) (hf : f c.state = .ok (b, s'))
    (hMay : c.inside p = false → D.may l c.state) :
    Inv D ⟨s', Function.update c.prog p (k b), Function.update c.inside p ((D.kind l).next (c.inside p))⟩ := by
  have hKeeps := h.keeps p
  rw [hProg] at hKeeps
  obtain ⟨hIn, hOpen, hSound, hNext⟩ := hKeeps
  have hFlag := hSound.flag _ _ _ hf
  refine ⟨fun q => ?_, fun q r hq hr => ?_, fun q hq => ?_⟩
  · by_cases hqp : q = p
    · subst hqp
      simp only [Function.update_self]
      exact hNext _ _ _ hf hMay
    · simp only [Function.update_of_ne hqp]
      exact h.keeps q
  · dsimp only at hq hr
    cases hKind : D.kind l with
    | plain =>
      rw [hKind, Kind.next, Function.update_eq_self] at hq hr
      exact h.one q r hq hr
    | inside =>
      rw [hKind, Kind.next, Function.update_eq_self] at hq hr
      exact h.one q r hq hr
    | closes =>
      have hp := hIn (Or.inr hKind)
      rw [hKind, Kind.next] at hq hr
      by_cases hqp : q = p
      · rw [hqp, Function.update_self] at hq
        cases hq
      · rw [Function.update_of_ne hqp] at hq
        exact absurd (h.one q p hq hp) hqp
    | opens =>
      have hFree := hSound.opens _ _ _ hf hKind
      have hNone : ∀ r, c.inside r = true → False := fun r hr => by
        rw [h.flag r hr] at hFree
        cases hFree
      have hOnly : ∀ r, Function.update c.inside p ((D.kind l).next (c.inside p)) r = true → r = p := by
        intro r hr
        by_contra hne
        rw [Function.update_of_ne hne] at hr
        exact hNone r hr
      rw [hOnly q hq, hOnly r hr]
  · dsimp only at hq ⊢
    cases hKind : D.kind l with
    | plain =>
      rw [hKind, Kind.next] at hFlag hq
      rw [Function.update_eq_self] at hq
      rw [hFlag]
      exact h.flag q hq
    | inside =>
      rw [hKind, Kind.next] at hFlag hq
      rw [Function.update_eq_self] at hq
      rw [hFlag]
      exact h.flag q hq
    | closes =>
      have hp := hIn (Or.inr hKind)
      rw [hKind, Kind.next] at hq
      by_cases hqp : q = p
      · rw [hqp, Function.update_self] at hq
        cases hq
      · rw [Function.update_of_ne hqp] at hq
        exact absurd (h.one q p hq hp) hqp
    | opens =>
      rw [hKind, Kind.next] at hFlag
      exact hFlag

theorem Inv.start {x : Prog S E L Unit} (h : Inv D c) (hDone : c.prog p = .pure ())
    (hx : D.Keeps x false fun _ t => t = false) : Inv D { c with prog := Function.update c.prog p x } := by
  refine ⟨fun q => ?_, h.one, h.flag⟩
  dsimp only
  by_cases hqp : q = p
  · have hOut := h.keeps p
    rw [hDone, Discipline.Keeps] at hOut
    rw [hqp, Function.update_self, hOut]
    exact hx
  · rw [Function.update_of_ne hqp]
    exact h.keeps q

theorem Inv.step (hStarts : ∀ c p x, starts c p x → D.Keeps x false fun _ t => t = false) (h : Inv D c)
    (hStep : Step D starts c c') : Inv D c' := by
  cases hStep with
  | act p l f k b s' hProg hf hMay => exact h.act hProg hf hMay
  | start p x hDone hStart => exact h.start hDone (hStarts c p x hStart)

theorem Inv.run (hStarts : ∀ c p x, starts c p x → D.Keeps x false fun _ t => t = false) (h : Inv D c)
    (hRun : Relation.ReflTransGen (Step D starts) c c') : Inv D c' := by
  induction hRun with
  | refl => exact h
  | tail _ hStep ih => exact ih.step hStarts hStep

/-- Only the program whose session is open takes an action that needs one. -/
theorem Inv.inside_of_act (h : Inv D c) (hProg : c.prog p = .act l f k) (hKind : D.kind l = .inside) :
    c.inside p = true := by
  have hKeeps := h.keeps p
  rw [hProg] at hKeeps
  exact hKeeps.1 (Or.inl hKind)

theorem Inv.not_bad (h : Inv D c) (hProg : c.prog p = .act l f k) {e : E} (hf : f c.state = .error e) :
    ¬D.bad e := by
  intro hBad
  have hKeeps := h.keeps p
  rw [hProg] at hKeeps
  obtain ⟨hKind, hFlag⟩ := hKeeps.2.2.1.bad _ _ hf hBad
  rw [h.flag p (h.inside_of_act hProg hKind)] at hFlag
  cases hFlag

end Step

section Single

variable {c : Pool S E L} {p : Nat}

theorem run_of_run (starts : Pool S E L → Nat → Prog S E L Unit → Prop) {x : Prog S E L Unit} {s' : S}
    (hAll : ∀ l s, D.may l s) (hProg : c.prog p = x)
    (hRun : x.run c.state = .ok ((), s')) :
    ∃ c', Relation.ReflTransGen (Step D starts) c c' ∧ c'.state = s' ∧ c'.prog = Function.update c.prog p (.pure ()) := by
  induction x generalizing c with
  | pure a =>
    refine ⟨c, .refl, (Prod.mk.inj (Except.ok.inj hRun)).2, ?_⟩
    rw [← hProg, Function.update_eq_self]
  | act l f k ih =>
    rw [Prog.run] at hRun
    cases hf : f c.state with
    | error e =>
      rw [hf] at hRun
      cases hRun
    | ok r =>
      rw [hf] at hRun
      obtain ⟨c', hRest, hState, hProgs⟩ := ih r.1 (c := ⟨r.2, Function.update c.prog p (k r.1),
        Function.update c.inside p ((D.kind l).next (c.inside p))⟩) (Function.update_self ..) hRun
      refine ⟨c', .head (.act c p l f k r.1 r.2 hProg hf fun _ => hAll l c.state) hRest, hState, ?_⟩
      rw [hProgs]
      exact Function.update_idem ..

theorem stop_of_run (starts : Pool S E L → Nat → Prog S E L Unit → Prop) {x : Prog S E L Unit} {e : E}
    (hAll : ∀ l s, D.may l s) (hProg : c.prog p = x)
    (hRun : x.run c.state = .error e) :
    ∃ c', Relation.ReflTransGen (Step D starts) c c' ∧
      ∃ (β : Type) (l : L) (f : S → Except E (β × S)) (k : β → Prog S E L Unit),
        c'.prog p = .act l f k ∧ f c'.state = .error e := by
  induction x generalizing c with
  | pure a => cases hRun
  | act l f k ih =>
    rw [Prog.run] at hRun
    cases hf : f c.state with
    | error e' =>
      rw [hf] at hRun
      cases hRun
      exact ⟨c, .refl, _, l, f, k, hProg, hf⟩
    | ok r =>
      rw [hf] at hRun
      obtain ⟨c', hRest, hStop⟩ := ih r.1 (c := ⟨r.2, Function.update c.prog p (k r.1),
        Function.update c.inside p ((D.kind l).next (c.inside p))⟩) (Function.update_self ..) hRun
      exact ⟨c', .head (.act c p l f k r.1 r.2 hProg hf fun _ => hAll l c.state) hRest, hStop⟩

/-- One program takes `n` actions. -/
def advance (D : Discipline S E L) [∀ l s, Decidable (D.may l s)] (p : Nat) : Nat → Pool S E L → Option (Pool S E L)
  | 0, c => some c
  | n + 1, c => match c.prog p with
    | .pure _ => none
    | .act l f k => match f c.state with
      | .error _ => none
      | .ok (b, s') =>
        if c.inside p = false → D.may l c.state then
          advance D p n
            ⟨s', Function.update c.prog p (k b), Function.update c.inside p ((D.kind l).next (c.inside p))⟩
        else none

theorem run_of_advance (starts : Pool S E L → Nat → Prog S E L Unit → Prop) [∀ l s, Decidable (D.may l s)] {n : Nat}
    {c' : Pool S E L} (h : advance D p n c = some c') : Relation.ReflTransGen (Step D starts) c c' := by
  induction n generalizing c with
  | zero =>
    obtain rfl := Option.some.inj h
    exact .refl
  | succ n ih =>
    rw [advance] at h
    cases hProg : c.prog p with
    | pure a =>
      rw [hProg] at h
      cases h
    | act l f k =>
      rw [hProg] at h
      dsimp only at h
      cases hf : f c.state with
      | error e =>
        rw [hf] at h
        cases h
      | ok r =>
        rw [hf] at h
        dsimp only at h
        split_ifs at h with hMay
        exact .head (.act c p l f k r.1 r.2 hProg hf hMay) (ih h)

end Single

end Pool

end Xv6Rpi
