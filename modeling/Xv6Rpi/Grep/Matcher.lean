import Xv6Rpi.Base
import Xv6Rpi.Lib.Pattern

/-! # The matcher of grep.c

A string is the list of its bytes before the NUL, and a pointer into it is the rest of the list. What
a pattern means is a language and, if `$` is its last character, the demand that the text ends; the
matcher finds a word of the language in the text.
-/

namespace Xv6Rpi.Grep

open Pattern Computability

def caret : UInt8 := 94
def dollar : UInt8 := 36
def star : UInt8 := 42
def dot : UInt8 := 46

/-- `matchstar(c, re, text)`; `here` is `matchhere` with `re`. -/
def matchstar (c : UInt8) (here : List UInt8 → Bool) : List UInt8 → Bool
  | [] => here []
  | t :: text => here (t :: text) || ((t == c || c == dot) && matchstar c here text)

/-- The end of `matchhere`: the first character stands for the text's first, and `here` is `matchhere`
with the rest of the pattern. -/
def matchone (c : UInt8) (here : List UInt8 → Bool) : List UInt8 → Bool
  | [] => false
  | t :: text => (c == dot || c == t) && here text

def matchhere : List UInt8 → List UInt8 → Bool
  | [], _ => true
  | [c], text => if c = dollar then text.isEmpty else matchone c (matchhere []) text
  | c :: d :: re, text =>
    if d = star then matchstar c (matchhere re) text else matchone c (matchhere (d :: re)) text

/-- The loop of `match` over the text, the empty string at its end included. -/
def matchany (re : List UInt8) : List UInt8 → Bool
  | [] => matchhere re []
  | t :: text => matchhere re (t :: text) || matchany re text

def match_ (re text : List UInt8) : Bool :=
  if re.head? = some caret then matchhere re.tail text else matchany re text

/-! ## What patterns mean -/

def Stands (c x : UInt8) : Prop := c = dot ∨ c = x

/-- The strings that a pattern denotes, read from left to right. -/
def lang : List UInt8 → Language UInt8
  | [] => 1
  | [c] => if c = dollar then 1 else letters (Stands c)
  | c :: d :: re => if d = star then (letters (Stands c))∗ * lang re else letters (Stands c) * lang (d :: re)

/-- `$` as the last character denotes the end of the text. -/
def Ends (re rest : List UInt8) : Prop := re.getLast? = some dollar → rest = []

/-- A pattern without the `^` that ties it to the start of the text. -/
def body (re : List UInt8) : List UInt8 := if re.head? = some caret then re.tail else re

section Match

variable {re text : List UInt8} {c : UInt8} {here : List UInt8 → Bool} {L : Language UInt8} {E : List UInt8 → Prop}

theorem matchone_iff (hHere : ∀ t, here t = true ↔ Begins L E t) :
    matchone c here text = true ↔ Begins (letters (Stands c) * L) E text := by
  rw [begins_letters_mul]
  cases text with
  | nil => simp [matchone]
  | cons t text =>
    rw [matchone, Bool.and_eq_true, hHere, Bool.or_eq_true, beq_iff_eq, beq_iff_eq]
    constructor
    · rintro ⟨hc, h⟩
      exact ⟨t, text, rfl, hc, h⟩
    · rintro ⟨x, text', hEq, hc, h⟩
      obtain ⟨rfl, rfl⟩ := List.cons.inj hEq
      exact ⟨hc, h⟩

theorem matchstar_iff (hHere : ∀ t, here t = true ↔ Begins L E t) :
    matchstar c here text = true ↔ Begins ((letters (Stands c))∗ * L) E text := by
  induction text with
  | nil =>
    rw [matchstar, hHere, begins_kstar_mul]
    simp
  | cons t text ih =>
    rw [matchstar, Bool.or_eq_true, hHere, begins_kstar_mul, Bool.and_eq_true, ih, Bool.or_eq_true, beq_iff_eq,
      beq_iff_eq]
    apply or_congr_right
    constructor
    · rintro ⟨hc, h⟩
      exact ⟨t, text, rfl, hc.symm.imp id Eq.symm, h⟩
    · rintro ⟨x, text', hEq, hc, h⟩
      obtain ⟨rfl, rfl⟩ := List.cons.inj hEq
      exact ⟨hc.symm.imp Eq.symm id, h⟩

theorem ends_cons (d : UInt8) : Ends (c :: d :: re) = Ends (d :: re) := by
  funext rest
  rw [Ends, Ends, List.getLast?_cons_cons]

/-- What follows a `*` is not the end of the pattern's first character. -/
theorem ends_star (d : UInt8) (hd : d = star) : Ends (c :: d :: re) = Ends re := by
  funext rest
  rw [Ends, Ends, List.getLast?_cons_cons]
  cases re with
  | nil =>
    rw [hd]
    simp [star, dollar]
  | cons e re => rw [List.getLast?_cons_cons]

theorem matchhere_iff : matchhere re text = true ↔ Begins (lang re) (Ends re) text := by
  induction re using lang.induct generalizing text with
  | case1 =>
    rw [matchhere, lang, begins_one, Ends]
    simp
  | case2 =>
    rw [matchhere, lang, if_pos rfl, if_pos rfl, begins_one, Ends, List.isEmpty_iff]
    simp
  | case3 c hc =>
    have hNil (t : List UInt8) : matchhere [] t = true ↔ Begins 1 (Ends [c]) t := by
      rw [matchhere, begins_one, Ends]
      simp [hc]
    rw [matchhere, lang, if_neg hc, if_neg hc, matchone_iff hNil, mul_one]
  | case4 c re ih =>
    rw [matchhere, lang, if_pos rfl, if_pos rfl, ends_star star rfl]
    exact matchstar_iff fun t => ih
  | case5 c d re hd ih =>
    rw [matchhere, lang, if_neg hd, if_neg hd, ends_cons]
    exact matchone_iff fun t => ih

theorem matchany_iff : matchany re text = true ↔ ∃ pre, ∃ rest, text = pre ++ rest ∧ matchhere re rest = true := by
  induction text with
  | nil =>
    rw [matchany]
    constructor
    · intro h
      exact ⟨[], [], rfl, h⟩
    · rintro ⟨pre, rest, hText, h⟩
      rwa [(List.append_eq_nil_iff.mp hText.symm).2] at h
  | cons t text ih =>
    rw [matchany, Bool.or_eq_true, ih]
    constructor
    · rintro (h | ⟨pre, rest, rfl, h⟩)
      · exact ⟨[], t :: text, rfl, h⟩
      · exact ⟨t :: pre, rest, rfl, h⟩
    · rintro ⟨pre, rest, hText, h⟩
      cases pre with
      | nil =>
        rw [List.nil_append] at hText
        rw [hText]
        exact Or.inl h
      | cons x pre => exact Or.inr ⟨pre, rest, (List.cons.inj hText).2, h⟩

end Match

/-- `match` finds a word of the pattern's language in the text: at its start if the pattern begins with
`^`, at its end if it ends with `$`. -/
theorem match_iff (re text : List UInt8) : match_ re text = true ↔
    ∃ pre s rest, text = pre ++ s ++ rest ∧ s ∈ lang (body re) ∧ (re.head? = some caret → pre = []) ∧
      Ends (body re) rest := by
  rw [match_, body]
  split
  · rename_i hCaret
    rw [matchhere_iff]
    constructor
    · rintro ⟨s, rest, rfl, hs, hEnd⟩
      exact ⟨[], s, rest, rfl, hs, fun _ => rfl, hEnd⟩
    · rintro ⟨pre, s, rest, rfl, hs, hStart, hEnd⟩
      rw [hStart hCaret]
      exact ⟨s, rest, rfl, hs, hEnd⟩
  · rename_i hCaret
    rw [matchany_iff]
    constructor
    · rintro ⟨pre, text', rfl, h⟩
      obtain ⟨s, rest, rfl, hs, hEnd⟩ := matchhere_iff.mp h
      exact ⟨pre, s, rest, (List.append_assoc ..).symm, hs, fun h => absurd h hCaret, hEnd⟩
    · rintro ⟨pre, s, rest, rfl, hs, -, hEnd⟩
      exact ⟨pre, s ++ rest, List.append_assoc .., matchhere_iff.mpr ⟨s, rest, rfl, hs, hEnd⟩⟩

/-- `x.*y$` in `axby`. -/
example : match_ [120, 46, 42, 121, 36] [97, 120, 98, 121] = true := by decide

end Xv6Rpi.Grep
