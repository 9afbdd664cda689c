import Mathlib.Data.List.Basic
import Mathlib.Logic.Function.Basic

/-! # Segments of linked cells

A function gives every cell the next one. A segment leads from a cell through those of a list to
another cell; a ring is a segment back to where it begins. A loop that follows the links through a
segment stops at the first cell of the list where it may.
-/

namespace Links

variable {ι : Type*} {next next' : ι → ι} {p q r b : ι} {l xs ys : List ι}

/-- From `p` through the cells of the list to `q`. -/
def Seg (next : ι → ι) : ι → List ι → ι → Prop
  | p, [], q => p = q
  | p, a :: l, q => p = a ∧ Seg next (next a) l q

@[simp] theorem seg_nil : Seg next p [] q ↔ p = q := Iff.rfl

@[simp] theorem seg_cons {a : ι} : Seg next p (a :: l) q ↔ p = a ∧ Seg next (next a) l q := Iff.rfl

theorem seg_append : Seg next p (xs ++ ys) q ↔ ∃ r, Seg next p xs r ∧ Seg next r ys q := by
  induction xs generalizing p with
  | nil => simp
  | cons a xs ih =>
    simp only [List.cons_append, seg_cons, ih]
    constructor
    · rintro ⟨rfl, r, hLeft, hRight⟩
      exact ⟨r, ⟨rfl, hLeft⟩, hRight⟩
    · rintro ⟨r, ⟨rfl, hLeft⟩, hRight⟩
      exact ⟨rfl, r, hLeft, hRight⟩

theorem seg_split : Seg next p (xs ++ r :: ys) q ↔ Seg next p xs r ∧ Seg next (next r) ys q := by
  rw [seg_append]
  constructor
  · rintro ⟨_, hLeft, rfl, hRight⟩
    exact ⟨hLeft, hRight⟩
  · rintro ⟨hLeft, hRight⟩
    exact ⟨r, hLeft, rfl, hRight⟩

theorem Seg.trans (hLeft : Seg next p xs r) (hRight : Seg next r ys q) : Seg next p (xs ++ ys) q :=
  seg_append.mpr ⟨r, hLeft, hRight⟩

theorem Seg.congr (h : Seg next p l q) (hNext : ∀ a ∈ l, next' a = next a) : Seg next' p l q := by
  induction l generalizing p with
  | nil => exact h
  | cons a l ih =>
    obtain ⟨rfl, hRest⟩ := h
    refine ⟨rfl, ?_⟩
    rw [hNext p List.mem_cons_self]
    exact ih hRest fun b hb => hNext b (List.mem_cons_of_mem p hb)

/-- The segment begins with the first cell of its list, or where it ends. -/
theorem Seg.start (h : Seg next p l q) : p = l.headD q := by
  cases l with
  | nil => exact h
  | cons a l => exact h.1

theorem Seg.rotate (h : Seg next p (xs ++ r :: ys) p) : Seg next (next r) (ys ++ xs) r := by
  obtain ⟨hLeft, hRight⟩ := seg_split.mp h
  exact hRight.trans hLeft

theorem Seg.insert (h : Seg next p (xs ++ r :: ys) q) (hNew : next' b = next r)
    (hLink : next' r = b) (hLeft : ∀ a ∈ xs, next' a = next a)
    (hRight : ∀ a ∈ ys, next' a = next a) : Seg next' p (xs ++ r :: b :: ys) q := by
  obtain ⟨hBefore, hBehind⟩ := seg_split.mp h
  refine seg_split.mpr ⟨hBefore.congr hLeft, hLink, ?_⟩
  rw [hNew]
  exact hBehind.congr hRight

theorem Seg.remove (h : Seg next p (xs ++ r :: b :: ys) q) (hLink : next' r = next b)
    (hLeft : ∀ a ∈ xs, next' a = next a) (hRight : ∀ a ∈ ys, next' a = next a) :
    Seg next' p (xs ++ r :: ys) q := by
  obtain ⟨hBefore, -, hBehind⟩ := seg_split.mp h
  refine seg_split.mpr ⟨hBefore.congr hLeft, ?_⟩
  rw [hLink]
  exact hBehind.congr hRight

end Links
