import Mathlib.Data.Set.Pairwise.Lattice
import Mathlib.Order.Interval.Set.Basic
import Mathlib.Data.Set.Insert
import Mathlib.Tactic
import Mathlib.Order.CompletePartialOrder

/-! # Packings of dyadic blocks

A dyadic block of order `o` and number `i` covers the numbers from `i * 2 ^ o` up to
`(i + 1) * 2 ^ o`. A packing is a set of blocks no two of which meet. A binary buddy
allocator only ever trades a block for its two halves or two halves for their block,
and both trades keep a packing.
-/

namespace Dyadic

/-- The numbers covered by the block of order `o` and number `i`. -/
def span (b : Nat × Nat) : Set Nat := Set.Ico (b.2 * 2 ^ b.1) ((b.2 + 1) * 2 ^ b.1)

theorem mem_span {b : Nat × Nat} {x : Nat} :
    x ∈ span b ↔ b.2 * 2 ^ b.1 ≤ x ∧ x < (b.2 + 1) * 2 ^ b.1 := Iff.rfl

theorem first_mem_span (b : Nat × Nat) : b.2 * 2 ^ b.1 ∈ span b := by
  refine ⟨le_rfl, ?_⟩
  have hPow : 0 < 2 ^ b.1 := by positivity
  nlinarith

theorem mem_span_iff_div {b : Nat × Nat} {x : Nat} : x ∈ span b ↔ x / 2 ^ b.1 = b.2 := by
  have hPow : 0 < 2 ^ b.1 := by positivity
  rw [mem_span, Nat.div_eq_iff hPow, Nat.add_mul, Nat.one_mul]
  omega

theorem span_succ (o i : Nat) : span (o + 1, i) = span (o, 2 * i) ∪ span (o, 2 * i + 1) := by
  ext x
  have hPow : 2 ^ (o + 1) = 2 * 2 ^ o := by rw [Nat.pow_succ, Nat.mul_comm]
  simp only [Set.mem_union, mem_span]
  rw [hPow]
  constructor
  · rintro ⟨hLow, hHigh⟩
    by_cases hx : x < (2 * i + 1) * 2 ^ o
    · left
      constructor <;> nlinarith
    · right
      constructor <;> nlinarith
  · rintro (⟨hLow, hHigh⟩ | ⟨hLow, hHigh⟩) <;> constructor <;> nlinarith

theorem halves_disjoint (o i : Nat) : Disjoint (span (o, 2 * i)) (span (o, 2 * i + 1)) := by
  rw [Set.disjoint_left]
  intro x hx hx'
  rw [mem_span_iff_div] at hx hx'
  simp only at hx hx'
  omega

theorem half_subset (o i : Nat) : span (o, i) ⊆ span (o + 1, i / 2) := by
  rw [span_succ]
  rcases Nat.mod_two_eq_zero_or_one i with h | h
  · have hi : i = 2 * (i / 2) := by omega
    exact fun x hx => Or.inl (hi ▸ hx)
  · have hi : i = 2 * (i / 2) + 1 := by omega
    exact fun x hx => Or.inr (hi ▸ hx)

theorem disjoint_of_same_order {o i j : Nat} (h : i ≠ j) : Disjoint (span (o, i)) (span (o, j)) := by
  rw [Set.disjoint_left]
  intro x hx hx'
  rw [mem_span_iff_div] at hx hx'
  exact h (hx.symm.trans hx')

/-- No two blocks of the set meet. -/
def Packing (F : Set (Nat × Nat)) : Prop := F.PairwiseDisjoint span

theorem Packing.mono {F G : Set (Nat × Nat)} (h : Packing G) (hFG : F ⊆ G) : Packing F :=
  Set.PairwiseDisjoint.subset h hFG

theorem packing_insert {F : Set (Nat × Nat)} {b : Nat × Nat} :
    Packing (insert b F) ↔ Packing F ∧ ∀ c ∈ F, b ≠ c → Disjoint (span b) (span c) :=
  Set.pairwiseDisjoint_insert

theorem packing_insert_of_notMem {F : Set (Nat × Nat)} {b : Nat × Nat} (hb : b ∉ F) :
    Packing (insert b F) ↔ Packing F ∧ ∀ c ∈ F, Disjoint (span b) (span c) :=
  Set.pairwiseDisjoint_insert_of_notMem hb

theorem Packing.split {F : Set (Nat × Nat)} {o i : Nat} (h : Packing (insert (o + 1, i) F))
    (hb : (o + 1, i) ∉ F) : Packing (insert (o, 2 * i) (insert (o, 2 * i + 1) F)) := by
  obtain ⟨hF, hDisj⟩ := (packing_insert_of_notMem hb).mp h
  have hLow : ∀ c ∈ F, Disjoint (span (o, 2 * i)) (span c) := fun c hc =>
    (hDisj c hc).mono_left (span_succ o i ▸ Set.subset_union_left)
  have hHigh : ∀ c ∈ F, Disjoint (span (o, 2 * i + 1)) (span c) := fun c hc =>
    (hDisj c hc).mono_left (span_succ o i ▸ Set.subset_union_right)
  rw [packing_insert, packing_insert]
  refine ⟨⟨hF, fun c hc _ => hHigh c hc⟩, ?_⟩
  rintro c (rfl | hc) _
  · exact halves_disjoint o i
  · exact hLow c hc

theorem Packing.merge {F : Set (Nat × Nat)} {o i : Nat}
    (h : Packing (insert (o, 2 * i) (insert (o, 2 * i + 1) F)))
    (hLow : (o, 2 * i) ∉ F) (hHigh : (o, 2 * i + 1) ∉ F) : Packing (insert (o + 1, i) F) := by
  rw [packing_insert, packing_insert] at h
  obtain ⟨⟨hF, hHighDisj⟩, hLowDisj⟩ := h
  rw [packing_insert]
  refine ⟨hF, fun c hc _ => ?_⟩
  rw [span_succ, Set.disjoint_union_left]
  refine ⟨hLowDisj c (Or.inr hc) ?_, hHighDisj c hc ?_⟩
  · rintro rfl
    exact hLow hc
  · rintro rfl
    exact hHigh hc

/-- A block of a packing cannot contain another one, so a block that contains a member
of the packing as one half is not itself a member. -/
theorem Packing.parent_notMem {F : Set (Nat × Nat)} {o i : Nat} (h : Packing F)
    (hb : (o, i) ∈ F) : (o + 1, i / 2) ∉ F := by
  intro hp
  have hDisj : Disjoint (span (o, i)) (span (o + 1, i / 2)) := by
    apply h hb hp
    simp
  exact (Set.disjoint_left.mp hDisj (first_mem_span (o, i))) (half_subset o i (first_mem_span (o, i)))

/-! ## Merged packings

In a merged packing no two halves of one block are both members. The blocks of such a
packing are the largest ones that its numbers contain, so the numbers determine it.
-/

/-- A block lies inside every block of at least its order that it meets. -/
theorem span_subset {b c : Nat × Nat} {x : Nat} (hb : x ∈ span b) (hc : x ∈ span c)
    (hLe : b.1 ≤ c.1) : span b ⊆ span c := by
  rw [mem_span_iff_div] at hb hc
  have hPow : 2 ^ c.1 = 2 ^ b.1 * 2 ^ (c.1 - b.1) := by
    rw [← Nat.pow_add, Nat.add_sub_cancel' hLe]
  intro y hy
  rw [mem_span_iff_div] at hy ⊢
  rw [hPow, ← Nat.div_div_eq_div_mul] at hc ⊢
  rw [hy, ← hb, hc]

theorem order_le_of_subset {b c : Nat × Nat} (h : span b ⊆ span c) : b.1 ≤ c.1 := by
  by_contra hLt
  push Not at hLt
  -- otherwise `c` is inside the half of `b` that it meets, and `b` is not
  have hMem := h (first_mem_span b)
  have hBack := span_subset hMem (first_mem_span b) hLt.le
  have hEnd : b.2 * 2 ^ b.1 + 2 ^ c.1 ∈ span b := by
    have hPow : 2 ^ c.1 < 2 ^ b.1 := Nat.pow_lt_pow_right (by decide) hLt
    have hPos := Nat.two_pow_pos c.1
    rw [mem_span, Nat.add_mul]
    omega
  rw [mem_span_iff_div] at hMem
  have hEndC := h hEnd
  rw [mem_span_iff_div, Nat.add_div_right _ (Nat.two_pow_pos _), hMem] at hEndC
  exact Nat.succ_ne_self _ hEndC

theorem span_injective : Function.Injective span := by
  intro b c h
  have hOrder : b.1 = c.1 :=
    Nat.le_antisymm (order_le_of_subset h.subset) (order_le_of_subset h.symm.subset)
  have hMem : b.2 * 2 ^ b.1 ∈ span c := h ▸ first_mem_span b
  rw [mem_span_iff_div, ← hOrder, Nat.mul_div_cancel _ (Nat.two_pow_pos _)] at hMem
  exact Prod.ext hOrder hMem

/-- The numbers that some block of the set covers. -/
def cover (F : Set (Nat × Nat)) : Set Nat := {x | ∃ b ∈ F, x ∈ span b}

theorem span_subset_cover {F : Set (Nat × Nat)} {b : Nat × Nat} (hb : b ∈ F) : span b ⊆ cover F :=
  fun _ hx => ⟨b, hb, hx⟩

theorem cover_insert (F : Set (Nat × Nat)) (b : Nat × Nat) : cover (insert b F) = cover F ∪ span b := by
  ext x
  constructor
  · rintro ⟨c, rfl | hc, hx⟩
    · exact Or.inr hx
    · exact Or.inl ⟨c, hc, hx⟩
  · rintro (⟨c, hc, hx⟩ | hx)
    · exact ⟨c, Or.inr hc, hx⟩
    · exact ⟨b, Or.inl rfl, hx⟩

theorem Packing.eq_of_mem {F : Set (Nat × Nat)} (h : Packing F) {b c : Nat × Nat} (hb : b ∈ F)
    (hc : c ∈ F) {x : Nat} (hxb : x ∈ span b) (hxc : x ∈ span c) : b = c := by
  by_contra hne
  exact Set.disjoint_left.mp (h hb hc hne) hxb hxc

theorem Packing.cover_erase {F : Set (Nat × Nat)} (h : Packing F) {b : Nat × Nat} (hb : b ∈ F) :
    cover (F \ {b}) = cover F \ span b := by
  ext x
  constructor
  · rintro ⟨c, ⟨hc, hne⟩, hx⟩
    exact ⟨⟨c, hc, hx⟩, fun hxb => hne (h.eq_of_mem hc hb hx hxb)⟩
  · rintro ⟨⟨c, hc, hx⟩, hNot⟩
    exact ⟨c, ⟨hc, fun hEq => hNot (hEq ▸ hx)⟩, hx⟩

/-- Below order `top` no block has both of its halves in the set. -/
def Merged (top : Nat) (F : Set (Nat × Nat)) : Prop :=
  ∀ o < top, ∀ i, (o, 2 * i) ∈ F → (o, 2 * i + 1) ∉ F

variable {top : Nat} {F G : Set (Nat × Nat)}

theorem Merged.mono (h : Merged top F) (hGF : G ⊆ F) : Merged top G :=
  fun o ho i hLow hHigh => h o ho i (hGF hLow) (hGF hHigh)

theorem Merged.insert {o i : Nat} (h : Merged top F)
    (hBuddy : ∀ j, i = 2 * j ∧ (o, 2 * j + 1) ∈ F ∨ i = 2 * j + 1 ∧ (o, 2 * j) ∈ F → top ≤ o) :
    Merged top (insert (o, i) F) := by
  rintro o' ho' j (hLow | hLow) (hHigh | hHigh)
  · have hi := (Prod.mk.inj (hLow.trans hHigh.symm)).2
    omega
  · obtain ⟨rfl, rfl⟩ := Prod.mk.inj hLow
    exact absurd (hBuddy j (Or.inl ⟨rfl, hHigh⟩)) (Nat.not_le.mpr ho')
  · obtain ⟨rfl, rfl⟩ := Prod.mk.inj hHigh
    exact absurd (hBuddy j (Or.inr ⟨rfl, hLow⟩)) (Nat.not_le.mpr ho')
  · exact h o' ho' j hLow hHigh

/-- A block whose numbers are all covered lies inside one member of a merged packing. -/
theorem Merged.exists_superset (h : Merged top F) {b : Nat × Nat} (ho : b.1 ≤ top)
    (hb : span b ⊆ cover F) : ∃ c ∈ F, span b ⊆ span c := by
  obtain ⟨o, i⟩ := b
  induction o generalizing i with
  | zero =>
    obtain ⟨c, hc, hx⟩ := hb (first_mem_span (0, i))
    exact ⟨c, hc, span_subset (first_mem_span (0, i)) hx (Nat.zero_le _)⟩
  | succ o ih =>
    have ho' : o < top := ho
    rw [span_succ] at hb ⊢
    obtain ⟨c, hc, hLow⟩ := ih (2 * i) ho'.le (Set.subset_union_left.trans hb)
    obtain ⟨d, hd, hHigh⟩ := ih (2 * i + 1) ho'.le (Set.subset_union_right.trans hb)
    -- a member that contains one half is this half or contains the block
    have hUp : ∀ (e : Nat × Nat) (j : Nat), j / 2 = i → span (o, j) ⊆ span e → e ≠ (o, j) →
        span (o, 2 * i) ∪ span (o, 2 * i + 1) ⊆ span e := by
      intro e j hj hSub hne
      have hLt : o < e.1 := by
        apply lt_of_le_of_ne (order_le_of_subset hSub)
        rintro hEq
        have hSame := span_subset (hSub (first_mem_span (o, j))) (first_mem_span (o, j)) hEq.ge
        exact hne (span_injective (hSame.antisymm hSub))
      rw [← span_succ]
      have hIn : j * 2 ^ o ∈ span (o + 1, i) := hj ▸ half_subset o j (first_mem_span (o, j))
      exact span_subset hIn (hSub (first_mem_span (o, j))) hLt
    by_cases hcLow : c = (o, 2 * i)
    · by_cases hdHigh : d = (o, 2 * i + 1)
      · exact absurd (hdHigh ▸ hd) (h o ho' i (hcLow ▸ hc))
      · exact ⟨d, hd, hUp d (2 * i + 1) (by omega) hHigh hdHigh⟩
    · exact ⟨c, hc, hUp c (2 * i) (by omega) hLow hcLow⟩

theorem Merged.mem_or_parent (h : Merged top F) {o i : Nat} (ho : o ≤ top)
    (hb : span (o, i) ⊆ cover F) : (o, i) ∈ F ∨ ∃ c ∈ F, o < c.1 ∧ span (o + 1, i / 2) ⊆ span c := by
  obtain ⟨c, hc, hSub⟩ := h.exists_superset ho hb
  have hMem := first_mem_span (o, i)
  rcases Nat.eq_or_lt_of_le (order_le_of_subset hSub) with hEq | hLt
  · have hSame := span_subset (hSub hMem) hMem hEq.ge
    rw [← span_injective (hSame.antisymm hSub)]
    exact Or.inl hc
  · exact Or.inr ⟨c, hc, hLt, span_subset (half_subset o i hMem) (hSub hMem) hLt⟩

theorem Merged.subset_of_cover_eq (hF : Packing F) (hMF : Merged top F) (hMG : Merged top G)
    (hTopF : ∀ b ∈ F, b.1 ≤ top) (hTopG : ∀ b ∈ G, b.1 ≤ top) (hCover : cover F = cover G) : F ⊆ G := by
  intro b hb
  obtain ⟨c, hc, hbc⟩ := hMG.exists_superset (hTopF b hb) (hCover ▸ span_subset_cover hb)
  obtain ⟨d, hd, hcd⟩ := hMF.exists_superset (hTopG c hc) (hCover ▸ span_subset_cover hc)
  have hx := first_mem_span b
  obtain rfl : b = d := hF.eq_of_mem hb hd hx (hcd (hbc hx))
  rwa [span_injective (hbc.antisymm hcd)]

theorem Merged.eq_of_cover_eq (hF : Packing F) (hG : Packing G) (hMF : Merged top F)
    (hMG : Merged top G) (hTopF : ∀ b ∈ F, b.1 ≤ top) (hTopG : ∀ b ∈ G, b.1 ≤ top)
    (hCover : cover F = cover G) : F = G :=
  (Merged.subset_of_cover_eq hF hMF hMG hTopF hTopG hCover).antisymm
    (Merged.subset_of_cover_eq hG hMG hMF hTopG hTopF hCover.symm)

end Dyadic
