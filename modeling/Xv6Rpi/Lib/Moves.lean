import Mathlib.Order.Defs.Unbundled
import Xv6Rpi.Lib.Judge

/-! # Where a program can lead

A relation between the states before and after a program that is reflexive and transitive is shown of
a program by showing it of its parts. And what is shown of the runs of a program in two ways holds of
them together.
-/

namespace Xv6Rpi.Prog

variable {S E L α β : Type} {rel : S → S → Prop}

theorem wp_loose_single {l : L} {f : S → Except E (α × S)} {Q : α → S → Prop} {s : S} (h : ∀ a s', f s = .ok (a, s') → Q a s') :
    wp .loose (single l f) Q s := by
  rw [wp_single]
  refine fun _ => ⟨trivial, ?_⟩
  cases hf : f s with
  | error e => trivial
  | ok r => exact h r.1 r.2 hf

/-- From every state the program leads to a related one, if it does not stop. -/
def Leads (rel : S → S → Prop) (x : Prog S E L α) : Prop := ∀ s, wp .loose x (fun _ s' => rel s s') s

theorem Leads.wp {x : Prog S E L α} (h : Leads rel x) {Q : α → S → Prop} {s : S} (hQ : ∀ a s', rel s s' → Q a s') :
    wp .loose x Q s := wp_mono (h s) hQ

theorem leads_single {l : L} {f : S → Except E (α × S)} (h : ∀ s a s', f s = .ok (a, s') → rel s s') :
    Leads rel (single l f) := fun s => wp_loose_single (h s)

/-- A program whose actions keep a part of the state leads to states that are related by it. -/
theorem Keeps.leads {T : Type} {get : S → T} {x : Prog S E L α} (h : x.Keeps get)
    (hRel : ∀ s s', get s' = get s → rel s s') : Leads rel x :=
  fun s => wp_keeps Rely.loose_calm (fun _ => trivial) h fun _ s' => hRel s s'

section Preorder

variable [IsPreorder S rel]

theorem leads_pure (a : α) : Leads rel (Pure.pure a : Prog S E L α) := fun s => refl_of rel s

theorem leads_bind {x : Prog S E L β} {g : β → Prog S E L α} (h : Leads rel x) (hg : ∀ b, Leads rel (g b)) :
    Leads rel (x >>= g) := by
  intro s
  rw [wp_bind]
  exact h.wp fun b s₁ h₁ => (hg b).wp fun a s' h₂ => trans_of rel h₁ h₂

end Preorder

/-- The postconditions of two rules hold together; the second one says nothing about stops. -/
theorem wp_and {R : Rely S E L} {x : Prog S E L α} {Q Q' : α → S → Prop} {s : S} (h : wp R x Q s) (h' : wp .loose x Q' s) :
    wp R x (fun a s' => Q a s' ∧ Q' a s') s := by
  induction x generalizing s with
  | pure a => exact ⟨h, h'⟩
  | act l f k ih =>
    intro hMay
    obtain ⟨hMust, hStep⟩ := h hMay
    refine ⟨hMust, ?_⟩
    have hLoose := (h' trivial).2
    revert hStep hLoose
    cases f s with
    | error e => exact fun hStop _ => hStop
    | ok r => exact fun hStep hLoose => ih r.1 hStep hLoose

end Xv6Rpi.Prog
