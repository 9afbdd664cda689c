import Xv6Rpi.Buddy.Marks
import Xv6Rpi.Lib.Dyadic

/-! # Available and held blocks form a packing

A block is a pair of an order and a block number, as `blkid2mem` reads it. The invariant
speaks of the available blocks, all orders at once, together with the set of blocks
that are held outside the allocator: no two of them meet and all lie in the heap.
-/

namespace Xv6Rpi.Buddy

open Dyadic

/-- The bytes from `start_heap` that `kmem_init2` adds to the largest order. -/
def heapLen (k : Kmem) : Nat := (k.stop - k.startHeap + (2 ^ maxOrd - 1)) / 2 ^ maxOrd * 2 ^ maxOrd

def addr (k : Kmem) (b : Nat × Nat) : Nat := k.startHeap + b.2 * 2 ^ b.1

def InHeap (k : Kmem) (b : Nat × Nat) : Prop := IsOrd b.1 ∧ (b.2 + 1) * 2 ^ b.1 ≤ heapLen k

def availSet (k : Kmem) (n : Nat) : Set (Nat × Nat) := {b | HasBit n b.1 b.2 ∧ Avail k b.1 b.2}

/-- The blocks of `H` are held outside the allocator. -/
structure Inv (k : Kmem) (n : Nat) (H : Set (Nat × Nat)) : Prop where
  layout : Layout k n
  links : LinksOk k n
  inHeap : ∀ b ∈ availSet k n ∪ H, InHeap k b
  packing : Packing (availSet k n ∪ H)
  sep : Disjoint (availSet k n) H

section Arithmetic

variable {k k' : Kmem} {n : Nat} {b : Nat × Nat}

theorem SameLayout.heapLen (h : SameLayout k k') : heapLen k' = heapLen k := by
  rw [Buddy.heapLen, Buddy.heapLen, h.stop, h.startHeap]

theorem SameLayout.addr (h : SameLayout k k') (b : Nat × Nat) : addr k' b = addr k b := by
  rw [Buddy.addr, Buddy.addr, h.startHeap]

theorem SameLayout.inHeap (h : SameLayout k k') : InHeap k' b ↔ InHeap k b := by
  rw [InHeap, InHeap, h.heapLen]

theorem Layout.heapLen_cover (h : Layout k n) : heapLen k ≤ n * 2 ^ (maxOrd + 5) := by
  have hCover := h.cover
  simp only [heapLen, maxOrd] at *
  omega

theorem Layout.heapLen_end (h : Layout k n) : k.startHeap + heapLen k ≤ 2 ^ 32 := by
  have h1 := h.aligned
  have h2 := h.stopLt
  have h3 := h.heapLt
  simp only [heapLen, maxOrd] at *
  omega

theorem InHeap.hasBit (h : InHeap k b) (hL : Layout k n) : HasBit n b.1 b.2 := by
  refine ⟨h.1, ?_⟩
  have hLe := h.2.trans hL.heapLen_cover
  have hSplit : n * 2 ^ (maxOrd + 5) = nmarks n b.1 * 32 * 2 ^ b.1 := by
    have hPow : maxOrd + 5 = (maxOrd - b.1) + 5 + b.1 := by
      have := h.1.2
      omega
    rw [hPow, nmarks, Nat.pow_add, Nat.pow_add]
    ring
  rw [hSplit] at hLe
  have := Nat.le_of_mul_le_mul_right hLe (Nat.two_pow_pos b.1)
  omega

theorem InHeap.addr_lt (h : InHeap k b) (hL : Layout k n) : addr k b + 2 ^ b.1 ≤ 2 ^ 32 := by
  have h1 := h.2
  have h2 := hL.heapLen_end
  rw [addr]
  rw [Nat.add_mul, Nat.one_mul] at h1
  omega

theorem mem2blkid_addr (hL : Layout k n) (h : InHeap k b) : mem2blkid k b.1 (addr k b) = b.2 := by
  have h1 := h.addr_lt hL
  have hPow := Nat.two_pow_pos b.1
  have hOff : (addr k b + 2 ^ 32 - k.startHeap) % 2 ^ 32 = b.2 * 2 ^ b.1 := by
    rw [addr] at *
    omega
  rw [mem2blkid, hOff, Nat.shiftRight_eq_div_pow, Nat.mul_div_cancel _ hPow]

theorem blkid2mem_eq (hL : Layout k n) (h : InHeap k b) : blkid2mem k b.1 b.2 = addr k b := by
  have h1 := h.addr_lt hL
  have hPow := Nat.two_pow_pos b.1
  rw [blkid2mem, Nat.shiftLeft_eq, Nat.one_mul, Nat.mul_comm, ← addr, Nat.mod_eq_of_lt]
  omega

theorem addr_aligned (hL : Layout k n) (h : IsOrd b.1) : addr k b % 2 ^ b.1 = 0 := by
  have hDvd : 2 ^ b.1 ∣ k.startHeap :=
    (Nat.pow_dvd_pow 2 h.2).trans (Nat.dvd_of_mod_eq_zero hL.aligned)
  exact Nat.mod_eq_zero_of_dvd (Nat.dvd_add hDvd (Nat.dvd_mul_left _ _))

theorem addr_succ (k : Kmem) (o i : Nat) : addr k (o + 1, i) = addr k (o, 2 * i) := by
  simp only [addr, Nat.pow_succ]
  ring

theorem InHeap.parent {o i : Nat} (h : InHeap k (o, i)) (ho : o < maxOrd) :
    InHeap k (o + 1, i / 2) := by
  refine ⟨⟨h.1.1.trans (Nat.le_succ o), ho⟩, ?_⟩
  have hEven : heapLen k % 2 ^ (o + 1) = 0 := by
    apply Nat.mod_eq_zero_of_dvd
    exact (Nat.pow_dvd_pow 2 ho).trans (Nat.dvd_mul_left _ _)
  -- the heap ends on a boundary of every order
  obtain ⟨m, hm⟩ := Nat.dvd_of_mod_eq_zero hEven
  have h1 := h.2
  simp only at h1 ⊢
  rw [hm, Nat.pow_succ] at *
  have hPow := Nat.two_pow_pos o
  have hLt : i + 1 ≤ 2 * m := by
    apply Nat.le_of_mul_le_mul_right _ hPow
    calc (i + 1) * 2 ^ o ≤ 2 ^ o * 2 * m := h1
      _ = 2 * m * 2 ^ o := by ring
  calc (i / 2 + 1) * (2 ^ o * 2) ≤ m * (2 ^ o * 2) := Nat.mul_le_mul_right _ (by omega)
    _ = 2 ^ o * 2 * m := by ring

end Arithmetic

section Steps

variable {k k' : Kmem} {n o id : Nat} {H : Set (Nat × Nat)}

theorem Inv.held (h : Inv k n (insert (o, id) H)) : InHeap k (o, id) :=
  h.inHeap _ (Or.inr (Set.mem_insert _ _))

theorem Inv.notMem_availSet (h : Inv k n H) {b : Nat × Nat} (hb : b ∈ H) : b ∉ availSet k n :=
  fun hA => Set.disjoint_left.mp h.sep hA hb

theorem Inv.not_avail (h : Inv k n H) {b : Nat × Nat} (hb : b ∈ H) : ¬Avail k b.1 b.2 := by
  intro hA
  exact h.notMem_availSet hb ⟨(h.inHeap b (Or.inr hb)).hasBit h.layout, hA⟩

theorem Inv.held_not_avail (h : Inv k n (insert (o, id) H)) : ¬Avail k o id :=
  h.not_avail (b := (o, id)) (Set.mem_insert _ _)

theorem Inv.availSet_markBlk (h : Inv k n (insert (o, id) H)) (hk : Buddy.markBlk k o id = .ok k') :
    availSet k' n = insert (o, id) (availSet k n) := by
  obtain ⟨_, _, _, hBits⟩ := markBlk_ok h.layout h.links (h.held.hasBit h.layout) hk
  ext ⟨o', id'⟩
  simp only [availSet, Set.mem_ofPred_eq, Set.mem_insert_iff, Prod.mk.injEq]
  constructor
  · rintro ⟨hBit, hA⟩
    rcases (hBits o' id' hBit).mp hA with hA | hEq
    · exact Or.inr ⟨hBit, hA⟩
    · exact Or.inl hEq
  · rintro (⟨rfl, rfl⟩ | ⟨hBit, hA⟩)
    · have hBit := h.held.hasBit h.layout
      exact ⟨hBit, (hBits _ _ hBit).mpr (Or.inr ⟨rfl, rfl⟩)⟩
    · exact ⟨hBit, (hBits _ _ hBit).mpr (Or.inl hA)⟩

theorem Inv.availSet_unmarkBlk (h : Inv k n H) (hb : HasBit n o id)
    (hk : Buddy.unmarkBlk k o id = .ok k') : availSet k' n = availSet k n \ {(o, id)} := by
  obtain ⟨_, _, _, hBits⟩ := unmarkBlk_ok h.layout h.links hb hk
  ext ⟨o', id'⟩
  simp only [availSet, Set.mem_ofPred_eq, Set.mem_sdiff, Set.mem_singleton_iff, Prod.mk.injEq]
  constructor
  · rintro ⟨hBit, hA'⟩
    obtain ⟨hA', hne⟩ := (hBits o' id' hBit).mp hA'
    exact ⟨⟨hBit, hA'⟩, hne⟩
  · rintro ⟨⟨hBit, hA'⟩, hne⟩
    exact ⟨hBit, (hBits o' id' hBit).mpr ⟨hA', hne⟩⟩

theorem Inv.markBlk (h : Inv k n (insert (o, id) H)) (hb : (o, id) ∉ H)
    (hk : markBlk k o id = .ok k') : Inv k' n H ∧ SameLayout k k' := by
  obtain ⟨_, hS, hLinks, _⟩ := markBlk_ok h.layout h.links (h.held.hasBit h.layout) hk
  have hAvail := h.availSet_markBlk hk
  have hUnion : availSet k' n ∪ H = availSet k n ∪ insert (o, id) H := by
    rw [hAvail, Set.insert_union, Set.union_insert]
  refine ⟨⟨hS.layout h.layout, hLinks, ?_, ?_, ?_⟩, hS⟩
  · intro b hMem
    rw [hS.inHeap]
    exact h.inHeap b (hUnion ▸ hMem)
  · rw [hUnion]
    exact h.packing
  · rw [hAvail, Set.disjoint_insert_left]
    exact ⟨hb, h.sep.mono_right (Set.subset_insert _ _)⟩

theorem Inv.unmarkBlk (h : Inv k n H) (hb : HasBit n o id) (hk : unmarkBlk k o id = .ok k') :
    (o, id) ∈ availSet k n ∧ (o, id) ∉ H ∧ Inv k' n (insert (o, id) H) ∧ SameLayout k k' := by
  obtain ⟨hA, hS, hLinks, _⟩ := unmarkBlk_ok h.layout h.links hb hk
  have hMemA : (o, id) ∈ availSet k n := ⟨hb, hA⟩
  have hNotH : (o, id) ∉ H := fun hMem => h.notMem_availSet hMem hMemA
  have hAvail := h.availSet_unmarkBlk hb hk
  have hUnion : availSet k' n ∪ insert (o, id) H = availSet k n ∪ H := by
    rw [hAvail, Set.union_insert, ← Set.insert_union, Set.insert_sdiff_singleton,
      Set.insert_eq_of_mem hMemA]
  refine ⟨hMemA, hNotH, ⟨hS.layout h.layout, hLinks, ?_, ?_, ?_⟩, hS⟩
  · intro b hMem
    rw [hS.inHeap]
    exact h.inHeap b (hUnion ▸ hMem)
  · rw [hUnion]
    exact h.packing
  · rw [hAvail, Set.disjoint_insert_right]
    exact ⟨fun hMem => hMem.2 rfl, h.sep.mono_left Set.sdiff_subset⟩

/-- Two held halves are as good as the block they make up. -/
theorem Inv.merge {i : Nat} (h : Inv k n (insert (o, 2 * i) (insert (o, 2 * i + 1) H)))
    (hLow : (o, 2 * i) ∉ H) (hHigh : (o, 2 * i + 1) ∉ H) (ho : o < maxOrd) :
    (o + 1, i) ∉ H ∧ Inv k n (insert (o + 1, i) H) := by
  have hParent : (o + 1, i) ∉ availSet k n ∪ insert (o, 2 * i) (insert (o, 2 * i + 1) H) := by
    have := h.packing.parent_notMem (o := o) (i := 2 * i) (Or.inr (Set.mem_insert _ _))
    rwa [Nat.mul_div_cancel_left i (by decide)] at this
  have hNotH : (o + 1, i) ∉ H := fun hMem =>
    hParent (Or.inr (Set.mem_insert_of_mem _ (Set.mem_insert_of_mem _ hMem)))
  have hUnion : availSet k n ∪ insert (o, 2 * i) (insert (o, 2 * i + 1) H) =
      insert (o, 2 * i) (insert (o, 2 * i + 1) (availSet k n ∪ H)) := by
    rw [Set.union_insert, Set.union_insert]
  have hLowA : (o, 2 * i) ∉ availSet k n := h.notMem_availSet (Set.mem_insert _ _)
  have hHighA : (o, 2 * i + 1) ∉ availSet k n :=
    h.notMem_availSet (Set.mem_insert_of_mem _ (Set.mem_insert _ _))
  refine ⟨hNotH, h.layout, h.links, ?_, ?_, ?_⟩
  · rintro b (hMem | rfl | hMem)
    · exact h.inHeap b (Or.inl hMem)
    · have := h.held.parent ho
      rwa [Nat.mul_div_cancel_left i (by decide)] at this
    · exact h.inHeap b (Or.inr (Set.mem_insert_of_mem _ (Set.mem_insert_of_mem _ hMem)))
  · rw [Set.union_insert]
    apply Packing.merge (hUnion ▸ h.packing)
    · rintro (hMem | hMem)
      · exact hLowA hMem
      · exact hLow hMem
    · rintro (hMem | hMem)
      · exact hHighA hMem
      · exact hHigh hMem
  · rw [Set.disjoint_insert_right]
    refine ⟨fun hMem => hParent (Or.inl hMem), h.sep.mono_right ?_⟩
    exact (Set.subset_insert _ _).trans (Set.subset_insert _ _)

theorem Inv.split {i : Nat} (h : Inv k n (insert (o + 1, i) H)) (hb : (o + 1, i) ∉ H)
    (ho : minOrd ≤ o) :
    (o, 2 * i) ∉ H ∧ (o, 2 * i + 1) ∉ insert (o, 2 * i) H ∧
      Inv k n (insert (o, 2 * i + 1) (insert (o, 2 * i) H)) := by
  have hLowF : (o, 2 * i) ∉ availSet k n ∪ insert (o + 1, i) H := by
    intro hMem
    have := h.packing.parent_notMem hMem
    rw [Nat.mul_div_cancel_left i (by decide)] at this
    exact this (Or.inr (Set.mem_insert _ _))
  have hHighF : (o, 2 * i + 1) ∉ availSet k n ∪ insert (o + 1, i) H := by
    intro hMem
    have := h.packing.parent_notMem hMem
    rw [show (2 * i + 1) / 2 = i by omega] at this
    exact this (Or.inr (Set.mem_insert _ _))
  have hLowH : (o, 2 * i) ∉ H := fun hMem => hLowF (Or.inr (Set.mem_insert_of_mem _ hMem))
  have hHighH : (o, 2 * i + 1) ∉ H := fun hMem => hHighF (Or.inr (Set.mem_insert_of_mem _ hMem))
  have hParent := h.held
  have hEnd : (2 * i + 1 + 1) * 2 ^ o ≤ heapLen k := by
    have := hParent.2
    simp only [Nat.pow_succ] at this
    calc (2 * i + 1 + 1) * 2 ^ o = (i + 1) * (2 ^ o * 2) := by ring
      _ ≤ heapLen k := this
  have hOrd : IsOrd o := ⟨ho, (Nat.le_succ o).trans hParent.1.2⟩
  refine ⟨hLowH, ?_, h.layout, h.links, ?_, ?_, ?_⟩
  · rintro (hEq | hMem)
    · simp at hEq
    · exact hHighH hMem
  · rintro b (hMem | rfl | rfl | hMem)
    · exact h.inHeap b (Or.inl hMem)
    · exact ⟨hOrd, hEnd⟩
    · refine ⟨hOrd, le_trans ?_ hEnd⟩
      exact Nat.mul_le_mul_right _ (by omega)
    · exact h.inHeap b (Or.inr (Set.mem_insert_of_mem _ hMem))
  · rw [Set.union_insert, Set.union_insert, Set.insert_comm]
    apply Packing.split
    · rw [← Set.union_insert]
      exact h.packing
    · rintro (hMem | hMem)
      · exact h.notMem_availSet (Set.mem_insert _ _) hMem
      · exact hb hMem
  · rw [Set.disjoint_insert_right, Set.disjoint_insert_right]
    exact ⟨fun hMem => hHighF (Or.inl hMem), fun hMem => hLowF (Or.inl hMem),
      h.sep.mono_right (Set.subset_insert _ _)⟩

theorem even_xor_one (i : Nat) : 2 * i ^^^ 1 = 2 * i + 1 := by
  simp

theorem odd_xor_one (i : Nat) : (2 * i + 1) ^^^ 1 = 2 * i := by
  rw [← even_xor_one, Nat.xor_assoc, Nat.xor_self, Nat.xor_zero]

theorem even_or_odd (id : Nat) : id = 2 * (id / 2) ∨ id = 2 * (id / 2) + 1 := by omega

theorem xor_one_div_32 (id : Nat) : (id ^^^ 1) / 32 = id / 32 := by
  rcases even_or_odd id with h | h
  · rw [h, even_xor_one]
    omega
  · rw [h, odd_xor_one]
    omega

theorem Inv.takeBuddy (h : Inv k n (insert (o, id) H)) (hb : (o, id) ∉ H) (ho : o < maxOrd)
    (hk : Buddy.unmarkBlk k o (id ^^^ 1) = .ok k') :
    (o + 1, id / 2) ∉ H ∧ Inv k' n (insert (o + 1, id / 2) H) ∧ SameLayout k k' := by
  have hBit : HasBit n o (id ^^^ 1) := by
    have := h.held.hasBit h.layout
    exact ⟨this.1, by rw [xor_one_div_32]; exact this.2⟩
  obtain ⟨_, hNotH, hInv, hS⟩ := h.unmarkBlk hBit hk
  have hbH : (o, id ^^^ 1) ∉ H := fun hMem => hNotH (Set.mem_insert_of_mem _ hMem)
  -- which half was freed depends on the last bit of its number
  generalize hj : id / 2 = j
  rcases even_or_odd id with hid | hid <;> rw [hj] at hid <;> subst hid
  · rw [even_xor_one] at hInv hbH
    rw [Set.insert_comm] at hInv
    have := hInv.merge hb hbH ho
    exact ⟨this.1, this.2, hS⟩
  · rw [odd_xor_one] at hInv hbH
    have := hInv.merge hbH hb ho
    exact ⟨this.1, this.2, hS⟩

theorem blkid2mem_parent (hL : Layout k n) (h : InHeap k (o + 1, id / 2)) :
    blkid2mem k o (id / 2 * 2) = addr k (o + 1, id / 2) := by
  have h1 : addr k (o + 1, id / 2) + 2 ^ (o + 1) ≤ 2 ^ 32 := h.addr_lt hL
  have hPow := Nat.two_pow_pos (o + 1)
  have hEq : k.startHeap + 1 <<< o * (id / 2 * 2) = addr k (o + 1, id / 2) := by
    simp only [addr, Nat.shiftLeft_eq, Nat.pow_succ]
    ring
  rw [blkid2mem, hEq]
  exact Nat.mod_eq_of_lt (by omega)

end Steps

section Calls

/-- `_kfree` gives a held block back, merging it as far up as its buddies are free. -/
theorem Inv.kfreeUnlocked {k k' : Kmem} {n o id : Nat} {H : Set (Nat × Nat)}
    (h : Inv k n (insert (o, id) H)) (hb : (o, id) ∉ H)
    (hk : _kfree k (addr k (o, id)) o = .ok k') : Inv k' n H ∧ SameLayout k k' := by
  have hMark : ∀ k'', Buddy.markBlk k o id = .ok k'' → Inv k'' n H ∧ SameLayout k k'' :=
    fun k'' hk'' => h.markBlk hb hk''
  rw [_kfree] at hk
  simp only [mem2blkid_addr h.layout h.held] at hk
  split at hk
  · cases hk
  split at hk
  · exact hMark k' hk
  split at hk
  · rename_i ho
    split at hk
    · cases hk
    rename_i k₁ hk₁
    obtain ⟨hp, hInv, hS⟩ := h.takeBuddy hb ho hk₁
    rw [blkid2mem_parent hInv.layout hInv.held] at hk
    obtain ⟨hInv', hS'⟩ := hInv.kfreeUnlocked hp hk
    exact ⟨hInv', hS.trans hS'⟩
  · exact hMark k' hk
termination_by maxOrd - o

/-- The bit that `get_blk` finds in the mark at the head is that of a heap block. -/
theorem Inv.headBlock {k : Kmem} {n o i : Nat} {H : Set (Nat × Nat)} (h : Inv k n H) (ho : IsOrd o)
    (hHead : (k.ord o).head ≠ nil) (hBit : firstBit (k.getMark o (k.ord o).head).bitmap = some i) :
    ((k.ord o).head * 32 + i) % 2 ^ 32 = (k.ord o).head * 32 + i ∧
      (o, (k.ord o).head * 32 + i) ∈ availSet k n := by
  have hLt := (h.links.head o ho).lt hHead
  obtain ⟨hi, hA⟩ := firstBit_some hBit
  have hDiv : ((k.ord o).head * 32 + i) / 32 = (k.ord o).head := by omega
  have hMem : (o, (k.ord o).head * 32 + i) ∈ availSet k n := by
    refine ⟨⟨ho, hDiv.trans_lt hLt⟩, ?_⟩
    rw [available_eq] at hA
    rw [Avail, hDiv, available_eq]
    rwa [show ((k.ord o).head * 32 + i) % 32 = i % 32 by omega]
  refine ⟨Nat.mod_eq_of_lt ?_, hMem⟩
  have h1 := (h.inHeap _ (Or.inl hMem)).addr_lt h.layout
  have hPow := Nat.two_pow_pos o
  have hMul := Nat.le_mul_of_pos_right ((k.ord o).head * 32 + i) hPow
  simp only [addr] at h1
  omega

/-- `get_blk` hands out the block of a set bit of its own order. -/
theorem Inv.getBlk {k k' : Kmem} {n o mem : Nat} {H : Set (Nat × Nat)} (h : Inv k n H) (ho : IsOrd o)
    (hHead : (k.ord o).head ≠ nil) (hk : getBlk k o = .ok (mem, k')) :
    ∃ id, mem = addr k (o, id) ∧ (o, id) ∉ H ∧ Inv k' n (insert (o, id) H) ∧ SameLayout k k' := by
  simp only [Buddy.getBlk] at hk
  split at hk
  · cases hk
  rename_i hne
  obtain ⟨i, hBit⟩ := firstBit_isSome hne
  obtain ⟨hMod, hMem⟩ := h.headBlock ho hHead hBit
  rw [hBit] at hk
  simp only [hMod] at hk
  obtain ⟨k₁, hU, hEq⟩ := map_eq_ok.mp hk
  obtain ⟨rfl, rfl⟩ := Prod.mk.inj hEq
  obtain ⟨_, hNot, hInv, hS⟩ := h.unmarkBlk hMem.1 hU
  refine ⟨_, ?_, hNot, hInv, hS⟩
  rw [blkid2mem_eq hInv.layout hInv.held, hS.addr]

theorem upperHalf_addr {k k₁ : Kmem} {n o j : Nat} {H : Set (Nat × Nat)} (hS : SameLayout k k₁)
    (h : Inv k₁ n (insert (o, 2 * j + 1) H)) :
    (addr k (o + 1, j) + 1 <<< o) % 2 ^ 32 = addr k₁ (o, 2 * j + 1) := by
  have h1 : addr k₁ (o, 2 * j + 1) + 2 ^ o ≤ 2 ^ 32 := h.held.addr_lt h.layout
  have hPow := Nat.two_pow_pos o
  rw [hS.addr] at h1 ⊢
  have hEq : addr k (o + 1, j) + 1 <<< o = addr k (o, 2 * j + 1) := by
    rw [addr_succ, Nat.shiftLeft_eq, addr, addr]
    ring
  rw [hEq]
  exact Nat.mod_eq_of_lt (by omega)

/-- `_kmalloc` hands out a block of the asked order, or 0 with the blocks unchanged. -/
theorem Inv.kmallocUnlocked {k k' : Kmem} {n o mem : Nat} {H : Set (Nat × Nat)}
    (h : Inv k n H) (ho : IsOrd o) (hk : _kmalloc k o = .ok (mem, k')) :
    SameLayout k k' ∧ ((mem = 0 ∧ Inv k' n H) ∨
      ∃ id, mem = addr k (o, id) ∧ (o, id) ∉ H ∧ Inv k' n (insert (o, id) H)) := by
  rw [_kmalloc] at hk
  split at hk
  · rename_i hHead
    obtain ⟨id, hMem, hNot, hInv, hS⟩ := h.getBlk ho hHead hk
    exact ⟨hS, Or.inr ⟨id, hMem, hNot, hInv⟩⟩
  split at hk
  · rename_i ho'
    split at hk
    · cases hk
    rename_i up k₁ hk₁
    obtain ⟨hS, hCases⟩ := h.kmallocUnlocked (o := o + 1) ⟨ho.1.trans (Nat.le_succ o), ho'⟩ hk₁
    rcases hCases with ⟨rfl, hInv⟩ | ⟨j, rfl, hNot, hInv⟩
    · simp only [ne_eq, not_true_eq_false, if_false] at hk
      cases hk
      exact ⟨hS, Or.inl ⟨rfl, hInv⟩⟩
    · have hPos : addr k (o + 1, j) ≠ 0 := by
        have := h.layout.heapPos
        rw [addr]
        omega
      rw [if_pos hPos] at hk
      obtain ⟨hLow, hHigh, hSplit⟩ := hInv.split hNot ho.1
      -- the upper half goes back, the lower half is the result
      rw [upperHalf_addr hS hSplit] at hk
      obtain ⟨k₂, hF, hEq⟩ := map_eq_ok.mp hk
      obtain ⟨rfl, rfl⟩ := Prod.mk.inj hEq
      obtain ⟨hInv', hS'⟩ := hSplit.kfreeUnlocked hHigh hF
      exact ⟨hS.trans hS', Or.inr ⟨2 * j, addr_succ k o j, hLow, hInv'⟩⟩
  · cases hk
    exact ⟨.refl k, Or.inl ⟨rfl, h⟩⟩
termination_by maxOrd - o

end Calls

end Xv6Rpi.Buddy
