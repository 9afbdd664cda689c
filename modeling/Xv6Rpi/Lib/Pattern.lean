import Mathlib.Computability.Language

/-! # Texts that begin with a word of a language

The words of a language are looked for at the front of a text, with a condition on what follows them.
For languages that start with single letters, or with any number of them, the search can be taken one
letter at a time.
-/

namespace Xv6Rpi.Pattern

open Computability

variable {α : Type} {L M : Language α} {E : List α → Prop} {S : α → Prop} {text : List α}

/-- The words of one letter that has `S`. -/
def letters (S : α → Prop) : Language α := {w | ∃ x, S x ∧ w = [x]}

/-- The text begins with a word of `L`, and what follows has `E`. -/
def Begins (L : Language α) (E : List α → Prop) (text : List α) : Prop := ∃ s rest, text = s ++ rest ∧ s ∈ L ∧ E rest

theorem begins_one : Begins 1 E text ↔ E text := by
  constructor
  · rintro ⟨s, rest, rfl, hs, hE⟩
    obtain rfl := (Language.mem_one _).mp hs
    exact hE
  · intro hE
    exact ⟨[], text, rfl, Language.nil_mem_one, hE⟩

theorem begins_add : Begins (L + M) E text ↔ Begins L E text ∨ Begins M E text := by
  constructor
  · rintro ⟨s, rest, hText, hs, hE⟩
    cases (Language.mem_add _ _ _).mp hs with
    | inl hs => exact Or.inl ⟨s, rest, hText, hs, hE⟩
    | inr hs => exact Or.inr ⟨s, rest, hText, hs, hE⟩
  · rintro (⟨s, rest, hText, hs, hE⟩ | ⟨s, rest, hText, hs, hE⟩)
    · exact ⟨s, rest, hText, (Language.mem_add _ _ _).mpr (Or.inl hs), hE⟩
    · exact ⟨s, rest, hText, (Language.mem_add _ _ _).mpr (Or.inr hs), hE⟩

theorem begins_letters_mul : Begins (letters S * L) E text ↔ ∃ x text', text = x :: text' ∧ S x ∧ Begins L E text' := by
  constructor
  · rintro ⟨s, rest, rfl, hs, hE⟩
    obtain ⟨_, ⟨x, hx, rfl⟩, s', hs', rfl⟩ := Language.mem_mul.mp hs
    exact ⟨x, s' ++ rest, rfl, hx, s', rest, rfl, hs', hE⟩
  · rintro ⟨x, _, rfl, hx, s, rest, rfl, hs, hE⟩
    exact ⟨x :: s, rest, rfl, Language.mem_mul.mpr ⟨[x], ⟨x, hx, rfl⟩, s, hs, rfl⟩, hE⟩

theorem begins_kstar_mul : Begins ((letters S)∗ * L) E text ↔
    Begins L E text ∨ ∃ x text', text = x :: text' ∧ S x ∧ Begins ((letters S)∗ * L) E text' := by
  have hUnfold : (letters S)∗ * L = L + letters S * ((letters S)∗ * L) := by
    calc (letters S)∗ * L = (1 + letters S * (letters S)∗) * L := by rw [Language.one_add_self_mul_kstar_eq_kstar]
      _ = L + letters S * ((letters S)∗ * L) := by rw [one_add_mul, mul_assoc]
  rw [← begins_letters_mul, ← begins_add, ← hUnfold]

end Xv6Rpi.Pattern
