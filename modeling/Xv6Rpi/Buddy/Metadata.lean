import Xv6Rpi.Buddy.Heap

/-! # Where the marks lie

The number of marks is estimated from the whole region and doubled for each smaller order, while
blocks are numbered from the heap that starts behind the marks. The estimate is large enough at every
size of the region: the marks of all orders are separate, they end where the heap starts, and every
block of the heap has its bit in a mark of its own order.
-/

namespace Xv6Rpi.Buddy

def markSize : Nat := 8

def markAddr (k : Kmem) (order idx : Nat) : Nat := (k.start + ((k.ord order).offset + idx) * markSize) % 2 ^ 32

def markRange (k : Kmem) (order m : Nat) : Set Nat :=
  {a | ∃ i < m, markAddr k order i ≤ a ∧ a < markAddr k order i + markSize}

section Metadata

variable {k : Kmem} {vstart vend n o i : Nat}

theorem Layout.offset_le (h : Layout k n) (ho : IsOrd o) (hi : i < nmarks n o) :
    (k.ord o).offset + i + 1 ≤ n * (2 ^ nOrd - 1) := by
  rw [h.offset o ho]
  have hPow : 2 ^ (maxOrd - o) ≤ 2 ^ (nOrd - 1) := by
    apply Nat.pow_le_pow_right (by decide)
    have hLow := ho.1
    simp only [nOrd, maxOrd, minOrd] at *
    omega
  have hPos := Nat.two_pow_pos (maxOrd - o)
  rw [nmarks] at hi
  calc n * (2 ^ (maxOrd - o) - 1) + i + 1
      ≤ n * (2 ^ (maxOrd - o) - 1) + n * 2 ^ (maxOrd - o) := Nat.add_le_add_left hi _
    _ = n * (2 ^ (maxOrd - o) - 1 + 2 ^ (maxOrd - o)) := (Nat.mul_add ..).symm
    _ ≤ n * (2 ^ nOrd - 1) := by
      apply Nat.mul_le_mul_left
      rw [show 2 ^ nOrd = 2 * 2 ^ (nOrd - 1) by decide]
      omega

theorem Layout.markAddr_eq (h : Layout k n) (hEnd : k.start + n * (2 ^ nOrd - 1) * markSize ≤ k.startHeap)
    (ho : IsOrd o) (hi : i < nmarks n o) :
    markAddr k o i = k.start + ((k.ord o).offset + i) * markSize ∧ markAddr k o i + markSize ≤ k.startHeap := by
  have hLe : ((k.ord o).offset + i + 1) * markSize ≤ n * (2 ^ nOrd - 1) * markSize :=
    Nat.mul_le_mul_right _ (h.offset_le ho hi)
  have hLt := h.heapLt
  rw [Nat.add_mul, Nat.one_mul] at hLe
  have hEq : markAddr k o i = k.start + ((k.ord o).offset + i) * markSize := by
    rw [markAddr, Nat.mod_eq_of_lt]
    have : 0 < markSize := by decide
    omega
  refine ⟨hEq, ?_⟩
  rw [hEq]
  omega

theorem Layout.markRange_subset (h : Layout k n) (hEnd : k.start + n * (2 ^ nOrd - 1) * markSize ≤ k.startHeap)
    (ho : IsOrd o) : markRange k o (nmarks n o) ⊆ Set.Ico k.start k.startHeap := by
  rintro a ⟨i, hi, hLow, hHigh⟩
  obtain ⟨hEq, hLe⟩ := h.markAddr_eq hEnd ho hi
  constructor
  · omega
  · omega

theorem Layout.markRange_disjoint (h : Layout k n) (hEnd : k.start + n * (2 ^ nOrd - 1) * markSize ≤ k.startHeap)
    {o' : Nat} (ho : IsOrd o) (ho' : IsOrd o') (hNe : o ≠ o') :
    Disjoint (markRange k o (nmarks n o)) (markRange k o' (nmarks n o')) := by
  rw [Set.disjoint_left]
  rintro a ⟨i, hi, hLow, hHigh⟩ ⟨i', hi', hLow', hHigh'⟩
  rw [(h.markAddr_eq hEnd ho hi).1] at hLow hHigh
  rw [(h.markAddr_eq hEnd ho' hi').1] at hLow' hHigh'
  -- two marks that share a byte are the same mark
  have hSame : (k.ord o).offset + i = (k.ord o').offset + i' := by
    simp only [markSize] at *
    omega
  exact hNe (offset_inj h ho ho' hi hi' hSame).1

/-- An aligned address inside the heap is where a numbered block starts. -/
theorem Layout.exists_block (h : Layout k n) {mem : Nat} (ho : IsOrd o) (hMod : mem % 2 ^ o = 0)
    (hLow : k.startHeap ≤ mem) (hHigh : mem + 2 ^ o ≤ k.stop) : ∃ id, InHeap k (o, id) ∧ addr k (o, id) = mem := by
  have hStart : 2 ^ o ∣ k.startHeap :=
    (Nat.pow_dvd_pow 2 ho.2).trans (Nat.dvd_of_mod_eq_zero h.aligned)
  obtain ⟨id, hId⟩ := Nat.dvd_sub (Nat.dvd_of_mod_eq_zero hMod) hStart
  rw [Nat.mul_comm] at hId
  refine ⟨id, ⟨ho, ?_⟩, ?_⟩
  · have hLen : k.stop - k.startHeap ≤ heapLen k := by
      simp only [heapLen, maxOrd]
      omega
    rw [Nat.add_mul, Nat.one_mul]
    dsimp only
    omega
  · rw [addr]
    dsimp only
    omega

end Metadata

/-- Whatever the size of the region, `kmem_init2` leaves the marks of the seven orders pairwise
disjoint and in front of the heap, and every block of the heap with a bit of its own order, in the
mark that has its buddy's as well. The sum that must not wrap is the one `align_up` computes. -/
theorem marks_cover_heap {vstart vend : Nat} (hs : vstart < 2 ^ 32) (he : vend < 2 ^ 32)
    (hAlign : vend % 2 ^ maxOrd = 0)
    (hWrap : vstart + numMarks vstart vend * (2 ^ nOrd - 1) * markSize + (2 ^ maxOrd - 1) < 2 ^ 32) (k₀ : Kmem) :
    ∃ k, kmemInit2 k₀ vstart vend = .ok k ∧
      (∀ o, IsOrd o → markRange k o (nmarks (numMarks vstart vend) o) ⊆ Set.Ico vstart k.startHeap) ∧
      (∀ o o', IsOrd o → IsOrd o' → o ≠ o' →
        Disjoint (markRange k o (nmarks (numMarks vstart vend) o)) (markRange k o' (nmarks (numMarks vstart vend) o'))) ∧
      ∀ o mem, IsOrd o → mem % 2 ^ o = 0 → k.startHeap ≤ mem → mem + 2 ^ o ≤ vend →
        mem2blkid k o mem >>> 5 < nmarks (numMarks vstart vend) o ∧
        blkid2mem k o (mem2blkid k o mem) = mem ∧
        (mem2blkid k o mem ^^^ 1) >>> 5 = mem2blkid k o mem >>> 5 := by
  have hRegion := region_of_aligned hs he hAlign hWrap
  obtain ⟨k, hk, rfl, hHeap, hStop, hFilled, -⟩ :=
    kmemInit2_rule k₀ hRegion (fun _ _ => True) trivial (fun _ _ _ _ _ _ _ _ _ => trivial)
  have hL := hFilled.layout
  have hEnd : k.start + numMarks k.start vend * (2 ^ nOrd - 1) * markSize ≤ k.startHeap := by
    rw [hHeap, heapStart]
    simp only [markSize, maxOrd]
    omega
  refine ⟨k, hk, fun o => hL.markRange_subset hEnd, fun o o' => hL.markRange_disjoint hEnd, ?_⟩
  intro o mem ho hMod hLow hHigh
  obtain ⟨id, hIn, rfl⟩ := hL.exists_block ho hMod hLow (by rwa [hStop])
  rw [mem2blkid_addr hL hIn, blkid2mem_eq hL hIn, shiftRight_five, shiftRight_five]
  exact ⟨(hIn.hasBit hL).2, rfl, xor_one_div_32 id⟩

theorem marks_cover_heap_boot : ∃ k, kmemInit2 ⟨0, 0, 0, fun _ => ⟨nil, 0⟩, fun _ => emptyMark⟩ 0x80123401 0x80200000 = .ok k ∧
    (∀ o, IsOrd o → markRange k o (nmarks (numMarks 0x80123401 0x80200000) o) ⊆ Set.Ico 0x80123401 k.startHeap) := by
  obtain ⟨k, hk, hSub, -⟩ := @marks_cover_heap 0x80123401 0x80200000 (by decide) (by decide) (by decide)
    (by decide +kernel) ⟨0, 0, 0, fun _ => ⟨nil, 0⟩, fun _ => emptyMark⟩
  exact ⟨k, hk, hSub⟩

end Xv6Rpi.Buddy
