import Xv6Rpi.Buddy.FreeLists

/-! # Coalescing is complete

No call leaves two buddies available side by side, so the available blocks are the
largest ones of the free bytes. The free bytes are those of the heap outside the live
blocks, and the bitmaps are therefore a function of the live blocks alone: how a run
came to them does not show.
-/

namespace Xv6Rpi.Buddy

open Dyadic

def freeBytes (k : Kmem) (n : Nat) : Set Nat :=
  {x | ∃ o id, HasBit n o id ∧ Avail k o id ∧ x ∈ bytes (blkid2mem k o id, o)}

section Bytes

variable {k k' : Kmem} {n : Nat}

theorem mem_bytes_handle (b : Nat × Nat) {x : Nat} :
    x ∈ bytes (handle k b) ↔ k.startHeap ≤ x ∧ x - k.startHeap ∈ span b := by
  simp only [bytes, handle, addr, Set.mem_Ico, mem_span, Nat.add_mul, Nat.one_mul]
  omega

theorem Inv.mem_freeBytes {H : Set (Nat × Nat)} (h : Inv k n H) {x : Nat} :
    x ∈ freeBytes k n ↔ k.startHeap ≤ x ∧ x - k.startHeap ∈ cover (availSet k n) := by
  constructor
  · rintro ⟨o, id, hBit, hA, hx⟩
    have hMem : (o, id) ∈ availSet k n := ⟨hBit, hA⟩
    rw [blkid2mem_eq h.layout (h.inHeap _ (Or.inl hMem))] at hx
    obtain ⟨hLe, hSpan⟩ := (mem_bytes_handle (k := k) (o, id)).mp hx
    exact ⟨hLe, _, hMem, hSpan⟩
  · rintro ⟨hLe, ⟨o, id⟩, hMem, hSpan⟩
    refine ⟨o, id, hMem.1, hMem.2, ?_⟩
    rw [blkid2mem_eq h.layout (h.inHeap _ (Or.inl hMem))]
    exact (mem_bytes_handle (k := k) (o, id)).mpr ⟨hLe, hSpan⟩

theorem Inv.subset_freeBytes {H : Set (Nat × Nat)} (h : Inv k n H) {b : Nat × Nat} :
    bytes (handle k b) ⊆ freeBytes k n ↔ span b ⊆ cover (availSet k n) := by
  constructor
  · intro hSub x hx
    have hx' : k.startHeap + x ∈ bytes (handle k b) := by
      rw [mem_bytes_handle, Nat.add_sub_cancel_left]
      exact ⟨Nat.le_add_right _ _, hx⟩
    have := (h.mem_freeBytes.mp (hSub hx')).2
    rwa [Nat.add_sub_cancel_left] at this
  · intro hSub x hx
    rw [mem_bytes_handle] at hx
    exact h.mem_freeBytes.mpr ⟨hx.1, hSub hx.2⟩

end Bytes

section Calls

variable {k k' : Kmem} {n o id : Nat} {H : Set (Nat × Nat)}

theorem Inv.hasBuddyBit (h : Inv k n (insert (o, id) H)) : HasBit n o (id ^^^ 1) := by
  have hBit := h.held.hasBit h.layout
  exact ⟨hBit.1, by rw [xor_one_div_32]; exact hBit.2⟩

/-- A block that is marked without a free buddy beside it keeps the blocks merged. -/
theorem Inv.markBlk_merged (h : Inv k n (insert (o, id) H)) (hM : Merged maxOrd (availSet k n))
    (hStop : ¬Avail k o (id ^^^ 1) ∨ ¬o < maxOrd) (hk : Buddy.markBlk k o id = .ok k') :
    Merged maxOrd (availSet k' n) ∧
      cover (availSet k' n) = cover (availSet k n) ∪ span (o, id) := by
  rw [h.availSet_markBlk hk]
  refine ⟨hM.insert ?_, cover_insert _ _⟩
  rintro j (⟨rfl, hMem⟩ | ⟨rfl, hMem⟩)
  · rw [even_xor_one] at hStop
    exact Nat.le_of_not_lt (hStop.resolve_left fun hNot => hNot hMem.2)
  · rw [odd_xor_one] at hStop
    exact Nat.le_of_not_lt (hStop.resolve_left fun hNot => hNot hMem.2)

theorem span_parent (o id : Nat) : span (o + 1, id / 2) = span (o, id ^^^ 1) ∪ span (o, id) := by
  generalize hj : id / 2 = j
  rcases even_or_odd id with hid | hid <;> rw [hj] at hid <;> subst hid
  · rw [even_xor_one, span_succ, Set.union_comm]
  · rw [odd_xor_one, span_succ]

/-- `_kfree` adds the block to the free bytes and leaves no buddies unmerged. -/
theorem Inv.kfree_merged (h : Inv k n (insert (o, id) H)) (hb : (o, id) ∉ H)
    (hM : Merged maxOrd (availSet k n)) (hk : _kfree k (addr k (o, id)) o = .ok k') :
    Merged maxOrd (availSet k' n) ∧
      cover (availSet k' n) = cover (availSet k n) ∪ span (o, id) := by
  induction hd : maxOrd - o generalizing k o id with
  | zero =>
    have hStop : ¬Avail k o (id ^^^ 1) ∨ ¬o < maxOrd := Or.inr (by omega)
    rw [kfreeUnlocked_mark h hStop] at hk
    exact h.markBlk_merged hM hStop hk
  | succ d ih =>
    have ho : o < maxOrd := by omega
    by_cases hBuddy : Avail k o (id ^^^ 1)
    · obtain ⟨k₁, hk₁⟩ := unmarkBlk_isOk hBuddy
      obtain ⟨hp, hInv, _⟩ := h.takeBuddy hb ho hk₁
      have hAvail := h.availSet_unmarkBlk h.hasBuddyBit hk₁
      have hMem : (o, id ^^^ 1) ∈ availSet k n := ⟨h.hasBuddyBit, hBuddy⟩
      have hErase := (h.packing.mono Set.subset_union_left).cover_erase hMem
      rw [kfreeUnlocked_merge h hb ho hBuddy hk₁] at hk
      have hM₁ : Merged maxOrd (availSet k₁ n) := hAvail ▸ hM.mono Set.sdiff_subset
      obtain ⟨hM', hCover⟩ := ih hInv hp hM₁ hk (by omega)
      refine ⟨hM', ?_⟩
      rw [hCover, hAvail, hErase, span_parent, ← Set.union_assoc, Set.sdiff_union_self,
        Set.union_eq_self_of_subset_right (span_subset_cover hMem)]
    · rw [kfreeUnlocked_mark h (Or.inl hBuddy)] at hk
      exact h.markBlk_merged hM (Or.inl hBuddy) hk

theorem Inv.getBlk_merged {mem : Nat} (h : Inv k n H) (ho : IsOrd o) (hHead : (k.ord o).head ≠ nil)
    (hM : Merged maxOrd (availSet k n)) (hk : Buddy.getBlk k o = .ok (mem, k')) :
    ∃ id, mem = addr k (o, id) ∧ Merged maxOrd (availSet k' n) ∧
      span (o, id) ⊆ cover (availSet k n) ∧
      cover (availSet k' n) = cover (availSet k n) \ span (o, id) := by
  simp only [Buddy.getBlk] at hk
  split at hk
  · cases hk
  rename_i hne
  obtain ⟨i, hBit⟩ := firstBit_isSome hne
  obtain ⟨hMod, hMem⟩ := h.headBlock ho hHead hBit
  rw [hBit] at hk
  simp only [hMod] at hk
  obtain ⟨k₁, hU, hEq⟩ := map_eq_ok.mp hk
  obtain ⟨rfl, rfl⟩ := Prod.mk.inj hEq
  obtain ⟨_, _, hInv, hS⟩ := h.unmarkBlk hMem.1 hU
  have hAvail := h.availSet_unmarkBlk hMem.1 hU
  refine ⟨_, ?_, ?_, span_subset_cover hMem, ?_⟩
  · rw [blkid2mem_eq hInv.layout hInv.held, hS.addr]
  · rw [hAvail]
    exact hM.mono Set.sdiff_subset
  · rw [hAvail]
    exact (h.packing.mono Set.subset_union_left).cover_erase hMem

/-- `_kmalloc` takes exactly the block it returns out of the free bytes; the upper halves
that it gives back on the way do not merge with it. -/
theorem Inv.kmalloc_merged {k k' : Kmem} {n o mem : Nat} {H : Set (Nat × Nat)} (h : Inv k n H)
    (ho : IsOrd o) (hM : Merged maxOrd (availSet k n)) (hk : _kmalloc k o = .ok (mem, k')) :
    (mem = 0 ∧ k' = k) ∨ ∃ id, mem = addr k (o, id) ∧ Merged maxOrd (availSet k' n) ∧
      span (o, id) ⊆ cover (availSet k n) ∧
      cover (availSet k' n) = cover (availSet k n) \ span (o, id) := by
  rw [_kmalloc] at hk
  split at hk
  · rename_i hHead
    exact Or.inr (h.getBlk_merged ho hHead hM hk)
  split at hk
  · rename_i ho'
    split at hk
    · cases hk
    rename_i up k₁ hk₁
    have hOrd : IsOrd (o + 1) := ⟨ho.1.trans (Nat.le_succ o), ho'⟩
    obtain ⟨hS, hCases⟩ := h.kmallocUnlocked hOrd hk₁
    rcases h.kmalloc_merged hOrd hM hk₁ with ⟨rfl, rfl⟩ | ⟨j, rfl, hM₁, hSub, hCover⟩
    · simp only [ne_eq, not_true_eq_false, if_false] at hk
      cases hk
      exact Or.inl ⟨rfl, rfl⟩
    · have hPos : addr k (o + 1, j) ≠ 0 := by
        have := h.layout.heapPos
        rw [addr]
        omega
      obtain ⟨i, hEq, hNot, hInv⟩ := hCases.resolve_left fun hNull => hPos hNull.1
      obtain rfl : j = i :=
        Nat.eq_of_mul_eq_mul_right (Nat.two_pow_pos (o + 1)) (Nat.add_left_cancel hEq)
      rw [if_pos hPos] at hk
      obtain ⟨_, hHigh, hSplit⟩ := hInv.split hNot ho.1
      rw [upperHalf_addr hS hSplit] at hk
      obtain ⟨k₂, hF, hEq⟩ := map_eq_ok.mp hk
      obtain ⟨rfl, rfl⟩ := Prod.mk.inj hEq
      obtain ⟨hM₂, hCover₂⟩ := hSplit.kfree_merged hHigh hM₁ hF
      rw [span_succ] at hSub hCover
      refine Or.inr ⟨2 * j, addr_succ k o j, hM₂, Set.subset_union_left.trans hSub, ?_⟩
      -- the upper half was free before and is free again
      rw [hCover₂, hCover]
      ext x
      have hHalf : x ∈ span (o, 2 * j) ∪ span (o, 2 * j + 1) → x ∈ cover (availSet k n) :=
        fun hx => hSub hx
      have hApart : x ∈ span (o, 2 * j) → x ∉ span (o, 2 * j + 1) :=
        fun hLow => Set.disjoint_left.mp (halves_disjoint o j) hLow
      simp only [Set.mem_union, Set.mem_sdiff] at hHalf ⊢
      tauto
  · cases hk
    exact Or.inl ⟨rfl, rfl⟩
termination_by maxOrd - o

end Calls

section Runs

variable {s s' : Heap} {n : Nat} {L : List (Nat × Nat)}

/-- Buddies are merged, and the free bytes are those of the heap outside the live blocks. -/
structure Tidy (s : Heap) (n : Nat) : Prop where
  heap : ∃ L, HeapInv s n L
  merged : Merged maxOrd (availSet s.kmem n)
  free : freeBytes s.kmem n = {x | s.kmem.startHeap ≤ x ∧ x < s.kmem.startHeap + heapLen s.kmem ∧
    ∀ a ∈ s.live, x ∉ bytes a}

theorem freeBytes_union {k k' : Kmem} {H H' : Set (Nat × Nat)} {b : Nat × Nat} (h : Inv k n H)
    (h' : Inv k' n H') (hS : SameLayout k k')
    (hCover : cover (availSet k' n) = cover (availSet k n) ∪ span b) :
    freeBytes k' n = freeBytes k n ∪ bytes (handle k b) := by
  ext x
  rw [Set.mem_union, h'.mem_freeBytes, h.mem_freeBytes, mem_bytes_handle, hS.startHeap, hCover,
    Set.mem_union, and_or_left]

theorem freeBytes_sdiff {k k' : Kmem} {H H' : Set (Nat × Nat)} {b : Nat × Nat} (h : Inv k n H)
    (h' : Inv k' n H') (hS : SameLayout k k')
    (hCover : cover (availSet k' n) = cover (availSet k n) \ span b) :
    freeBytes k' n = freeBytes k n \ bytes (handle k b) := by
  ext x
  rw [Set.mem_sdiff, h'.mem_freeBytes, h.mem_freeBytes, mem_bytes_handle, hS.startHeap, hCover,
    Set.mem_sdiff]
  tauto

/-- One `kmalloc`: nothing changes, or the free bytes lose exactly the block returned. -/
theorem Tidy.kmalloc_cases {o mem : Nat} {k' : Kmem} (h : Tidy s n) (ho : IsOrd o)
    (hk : Buddy.kmalloc s.kmem o = .ok (mem, k')) :
    (mem = 0 ∧ k' = s.kmem) ∨ mem ≠ 0 ∧ SameLayout s.kmem k' ∧ Merged maxOrd (availSet k' n) ∧
      (∃ id, mem = addr s.kmem (o, id)) ∧ bytes (mem, o) ⊆ freeBytes s.kmem n ∧
      freeBytes k' n = freeBytes s.kmem n \ bytes (mem, o) := by
  obtain ⟨L, hL⟩ := h.heap
  rw [kmalloc_eq ho] at hk
  obtain ⟨hS, hCases⟩ := hL.inv.kmallocUnlocked ho hk
  apply (hL.inv.kmalloc_merged ho h.merged hk).imp_right
  rintro ⟨id, rfl, hM, hSub, hCover⟩
  have hPos : addr s.kmem (o, id) ≠ 0 := by
    have := hL.inv.layout.heapPos
    rw [addr]
    omega
  obtain ⟨id', _, _, hInv'⟩ := hCases.resolve_left fun hNull => hPos hNull.1
  exact ⟨hPos, hS, hM, ⟨id, rfl⟩, hL.inv.subset_freeBytes.mpr hSub,
    freeBytes_sdiff hL.inv hInv' hS hCover⟩

theorem Tidy.kmalloc {order : Nat} (h : Tidy s n) (ho : IsOrd order)
    (hk : exec s (.kmalloc order) = .ok s') : Tidy s' n := by
  obtain ⟨L, hL⟩ := h.heap
  obtain ⟨hS, hHeap⟩ := hL.kmalloc ho hk
  obtain ⟨⟨mem, k'⟩, hk', rfl⟩ := map_eq_ok.mp hk
  rcases h.kmalloc_cases ho hk' with ⟨rfl, rfl⟩ | ⟨hPos, _, hM, _, _, hFree⟩
  · exact h
  · refine ⟨hHeap, hM, ?_⟩
    have hStart : k'.startHeap = s.kmem.startHeap := hS.startHeap
    simp only [if_neg hPos, hStart, hS.heapLen, List.forall_mem_cons]
    rw [hFree, h.free]
    ext x
    simp only [Set.mem_sdiff, Set.mem_ofPred_eq]
    tauto

theorem HeapInv.disjoint_live (h : HeapInv s n L) {a b : Nat × Nat} (ha : a ∈ s.live) (hb : b ∈ s.live)
    (hne : a ≠ b) : Disjoint (bytes a) (bytes b) := by
  rw [h.live] at ha hb
  obtain ⟨c, hc, rfl⟩ := List.mem_map.mp ha
  obtain ⟨d, hd, rfl⟩ := List.mem_map.mp hb
  apply disjoint_bytes
  exact h.inv.packing (Or.inr hc) (Or.inr hd) fun hEq => hne (congrArg _ hEq)

theorem Tidy.kfree {mem order : Nat} (h : Tidy s n) (hLive : (mem, order) ∈ s.live)
    (hk : exec s (.kfree mem order) = .ok s') : Tidy s' n := by
  obtain ⟨L, hL⟩ := h.heap
  obtain ⟨hS, L', hL'⟩ := hL.kfree hLive hk
  have hNodup : s.live.Nodup := hL.live ▸ hL.nodup.map (handle_injective s.kmem)
  obtain ⟨⟨o, id⟩, hb, hEq⟩ := List.mem_map.mp (hL.live ▸ hLive)
  obtain ⟨rfl, rfl⟩ := Prod.mk.inj hEq
  have hInv := hL.inv_erase hb
  have hNot : (o, id) ∉ {b | b ∈ L.erase (o, id)} := hL.nodup.not_mem_erase
  obtain ⟨k', hk', rfl⟩ := map_eq_ok.mp hk
  rw [kfree_eq hInv.layout rfl hInv.held] at hk'
  obtain ⟨hM, hCover⟩ := hInv.kfree_merged hNot h.merged hk'
  refine ⟨⟨L', hL'⟩, hM, ?_⟩
  have hFree := freeBytes_union hInv hL'.inv hS hCover
  have hStart : k'.startHeap = s.kmem.startHeap := hS.startHeap
  simp only [hStart, hS.heapLen]
  rw [hFree, h.free]
  ext x
  simp only [Set.mem_union, Set.mem_ofPred_eq, hNodup.mem_erase_iff]
  constructor
  · rintro (⟨hLow, hHigh, hOut⟩ | hx)
    · exact ⟨hLow, hHigh, fun a ha => hOut a ha.2⟩
    · have hIn := hInv.held.2
      have hMem := (mem_bytes_handle (o, id)).mp hx
      have hEnd := (mem_span.mp hMem.2).2
      refine ⟨hMem.1, by omega, fun a ha hxa => ?_⟩
      exact Set.disjoint_left.mp (hL.disjoint_live ha.2 hLive ha.1) hxa hx
  · rintro ⟨hLow, hHigh, hOut⟩
    by_cases hx : x ∈ bytes (handle s.kmem (o, id))
    · exact Or.inr hx
    · left
      refine ⟨hLow, hHigh, fun a ha => ?_⟩
      by_cases hEq : a = (addr s.kmem (o, id), o)
      · exact hEq ▸ hx
      · exact hOut a ⟨hEq, ha⟩

theorem Tidy.step (h : Tidy s n) (hk : Step s s') : Tidy s' n := by
  obtain ⟨c, hAllowed, hExec⟩ := hk
  cases c with
  | kmalloc order => exact h.kmalloc hAllowed hExec
  | kfree mem order => exact h.kfree hAllowed hExec

theorem Tidy.run (h : Tidy s n) (hk : Relation.ReflTransGen Step s s') : Tidy s' n := by
  induction hk with
  | refl => exact h
  | tail _ hStep ih => exact ih.step hStep

theorem Filled.tidy {k : Kmem} (h : Filled k n (pages k.startHeap k.stop)) : Tidy ⟨k, []⟩ n := by
  have hInv := h.inv
  have hMem : ∀ b ∈ availSet k n, b.1 = maxOrd ∧ b.2 < pages k.startHeap k.stop :=
    fun b hb => (h.avail b.1 b.2 hb.1).mp hb.2
  refine ⟨⟨[], List.nodup_nil, rfl, by simpa using hInv⟩, ?_, ?_⟩
  · intro o ho i hLow
    exact absurd (hMem _ hLow).1 (Nat.ne_of_lt ho)
  · ext x
    rw [hInv.mem_freeBytes]
    simp only [Set.mem_ofPred_eq, List.not_mem_nil, false_imp_iff, implies_true, and_true]
    refine and_congr_right fun hLow => ?_
    have hLen : heapLen k = pages k.startHeap k.stop * 2 ^ maxOrd := rfl
    constructor
    · rintro ⟨b, hb, hx⟩
      have hEnd := (hInv.inHeap b (Or.inl hb)).2
      have := (mem_span.mp hx).2
      omega
    · intro hHigh
      have hDiv : (x - k.startHeap) / 2 ^ maxOrd < pages k.startHeap k.stop := by
        rw [Nat.div_lt_iff_lt_mul (Nat.two_pow_pos _)]
        omega
      have hBit := (inHeap_of_lt_pages hDiv).hasBit h.layout
      exact ⟨_, ⟨hBit, (h.avail _ _ hBit).mpr ⟨rfl, hDiv⟩⟩, mem_span_iff_div.mpr rfl⟩

theorem kmemInit2_tidy {vstart vend : Nat} (hR : Region vstart vend) {k₀ k : Kmem}
    (hk : kmemInit2 k₀ vstart vend = .ok k) :
    Tidy ⟨k, []⟩ (numMarks vstart vend) := by
  obtain ⟨k', hk', _, hStart, hStop, hF, _⟩ :=
    kmemInit2_rule k₀ hR (fun _ _ => True) trivial (fun _ _ _ _ _ _ _ _ _ => trivial)
  obtain rfl : k' = k := Except.ok.inj (hk'.symm.trans hk)
  exact Filled.tidy (by rw [hStart, hStop]; exact hF)

theorem Reach.tidy {vstart vend : Nat} (hR : Region vstart vend) (h : Reach vstart vend s) :
    s.kmem.startHeap = heapStart vstart vend ∧ s.kmem.stop = vend ∧ Tidy s (numMarks vstart vend) := by
  obtain ⟨hStart, hStop, _⟩ := h.inv hR
  obtain ⟨k₀, k, hk, hRun⟩ := h
  exact ⟨hStart, hStop, (kmemInit2_tidy hR hk).run hRun⟩

theorem Tidy.sameLayout_run (h : Tidy s n) (hk : Relation.ReflTransGen Step s s') :
    SameLayout s.kmem s'.kmem := by
  obtain ⟨L, hL⟩ := h.heap
  exact (hL.run hk).1

/-- Two tidy heaps over the same bytes with the same live blocks have the same blocks
available. -/
theorem Tidy.availSet_eq (h : Tidy s n) (h' : Tidy s' n) (hS : SameLayout s.kmem s'.kmem)
    (hLive : ∀ a, a ∈ s.live ↔ a ∈ s'.live) : availSet s.kmem n = availSet s'.kmem n := by
  obtain ⟨L, hL⟩ := h.heap
  obtain ⟨L', hL'⟩ := h'.heap
  have hFree : freeBytes s.kmem n = freeBytes s'.kmem n := by
    rw [h.free, h'.free, hS.startHeap, hS.heapLen]
    simp only [hLive]
  have hTop : ∀ {t : Heap} {M : List (Nat × Nat)}, HeapInv t n M → ∀ b ∈ availSet t.kmem n, b.1 ≤ maxOrd :=
    fun ht b hb => (ht.inv.inHeap b (Or.inl hb)).1.2
  apply h.merged.eq_of_cover_eq (hL.inv.packing.mono Set.subset_union_left)
    (hL'.inv.packing.mono Set.subset_union_left) h'.merged (hTop hL) (hTop hL')
  ext x
  have hAt := Set.ext_iff.mp hFree (s.kmem.startHeap + x)
  rw [hL.inv.mem_freeBytes, hL'.inv.mem_freeBytes, hS.startHeap, Nat.add_sub_cancel_left] at hAt
  simpa using hAt

theorem bitmap_eq_of_available {a b : BitVec 32} (i : Nat)
    (h : ∀ id, id / 32 = i → (available a id = true ↔ available b id = true)) : a = b := by
  apply BitVec.eq_of_getLsbD_eq
  intro j hj
  have := h (i * 32 + j) (by omega)
  rw [available_eq, available_eq, show (i * 32 + j) % 32 = j by omega] at this
  exact Bool.eq_iff_iff.mpr this

theorem bitmap_eq_of_availSet_eq {k k' : Kmem} (h : availSet k n = availSet k' n) {o i : Nat}
    (ho : IsOrd o) (hi : i < nmarks n o) : (k.getMark o i).bitmap = (k'.getMark o i).bitmap := by
  apply bitmap_eq_of_available i
  rintro id rfl
  have hAt := Set.ext_iff.mp h (o, id)
  have hBit : HasBit n o id := ⟨ho, hi⟩
  constructor
  · exact fun hA => (hAt.mp ⟨hBit, hA⟩).2
  · exact fun hA => (hAt.mpr ⟨hBit, hA⟩).2

theorem Tidy.not_both (h : Tidy s n) {o id : Nat} (ho : o < maxOrd) (hb : HasBit n o id)
    (hA : Avail s.kmem o id) : ¬Avail s.kmem o (id ^^^ 1) := by
  intro hB
  have hBit : HasBit n o (id ^^^ 1) := ⟨hb.1, by rw [xor_one_div_32]; exact hb.2⟩
  have hMem : (o, id) ∈ availSet s.kmem n := ⟨hb, hA⟩
  have hMem' : (o, id ^^^ 1) ∈ availSet s.kmem n := ⟨hBit, hB⟩
  generalize id / 2 = j at *
  rcases even_or_odd id with hid | hid
  · rw [hid, even_xor_one] at hMem'
    rw [hid] at hMem
    exact h.merged o ho _ hMem hMem'
  · rw [hid, odd_xor_one] at hMem'
    rw [hid] at hMem
    exact h.merged o ho _ hMem' hMem

end Runs

/-- Below the largest order no two buddies are both available, and runs from one heap
that end with the same live blocks end with the same bitmaps; with none live these are
the bitmaps of the fresh heap. -/
theorem coalescing_complete {vstart vend : Nat} (hs : vstart < 2 ^ 32)
    (hWrap : vstart + numMarks vstart vend * (2 ^ nOrd - 1) * 8 + (2 ^ maxOrd - 1) < 2 ^ 32)
    {k₀ k : Kmem} (hk : kmemInit2 k₀ vstart vend = .ok k) {s s' : Heap}
    (hRun : Relation.ReflTransGen Step ⟨k, []⟩ s) (hRun' : Relation.ReflTransGen Step ⟨k, []⟩ s') :
    (∀ o < maxOrd, ∀ id, HasBit (numMarks vstart vend) o id →
      ¬(Avail s.kmem o id ∧ Avail s.kmem o (id ^^^ 1))) ∧
    ((∀ a, a ∈ s.live ↔ a ∈ s'.live) → ∀ o, IsOrd o → ∀ i < nmarks (numMarks vstart vend) o,
      (s.kmem.getMark o i).bitmap = (s'.kmem.getMark o i).bitmap) ∧
    (s.live = [] → ∀ o, IsOrd o → ∀ i < nmarks (numMarks vstart vend) o,
      (s.kmem.getMark o i).bitmap = (k.getMark o i).bitmap) := by
  have hR := Reach.region hs hWrap ⟨k₀, k, hk, .refl⟩
  have hT₀ := kmemInit2_tidy hR hk
  have hT := hT₀.run hRun
  have hT' := hT₀.run hRun'
  have hS := hT₀.sameLayout_run hRun
  have hS' := hT₀.sameLayout_run hRun'
  refine ⟨fun o ho id hb hBoth => hT.not_both ho hb hBoth.1 hBoth.2, fun hLive o ho i hi => ?_,
    fun hNone o ho i hi => ?_⟩
  · exact bitmap_eq_of_availSet_eq (hT.availSet_eq hT' (hS.symm.trans hS') hLive) ho hi
  · have hEq := hT₀.availSet_eq hT hS fun a => by rw [hNone]
    exact (bitmap_eq_of_availSet_eq hEq ho hi).symm

theorem coalescing_complete_two_histories :
    ∃ (k : Kmem) (s s' : Heap), kmemInit2 zeroKmem 0x10000 0x18000 = .ok k ∧ s.live = [(0x11040, 6), (0x11000, 6)] ∧
      s'.live = [(0x11000, 6), (0x11040, 6)] ∧
      ((∀ o < maxOrd, ∀ id, HasBit (numMarks 0x10000 0x18000) o id →
        ¬(Avail s.kmem o id ∧ Avail s.kmem o (id ^^^ 1))) ∧
      ((∀ a, a ∈ s.live ↔ a ∈ s'.live) → ∀ o, IsOrd o → ∀ i < nmarks (numMarks 0x10000 0x18000) o,
        (s.kmem.getMark o i).bitmap = (s'.kmem.getMark o i).bitmap) ∧
      (s.live = [] → ∀ o, IsOrd o → ∀ i < nmarks (numMarks 0x10000 0x18000) o,
        (s.kmem.getMark o i).bitmap = (k.getMark o i).bitmap)) := by
  have hOne : liveAfter 0x10000 0x18000 [.kmalloc 6, .kmalloc 6] =
      some [(0x11040, 6), (0x11000, 6)] := by
    decide +kernel
  have hTwo : liveAfter 0x10000 0x18000
      [.kmalloc 6, .kmalloc 6, .kmalloc 9, .kfree 0x11000 6, .kmalloc 6, .kfree 0x11200 9] =
      some [(0x11000, 6), (0x11040, 6)] := by
    decide +kernel
  obtain ⟨k, s, hk, hRun, hLive⟩ := run_liveAfter hOne
  obtain ⟨k', s', hk', hRun', hLive'⟩ := run_liveAfter hTwo
  obtain rfl : k = k' := Except.ok.inj (hk.symm.trans hk')
  exact ⟨k, s, s', hk, hLive, hLive', coalescing_complete (by decide) (by decide +kernel) hk hRun hRun'⟩

section Refusal

variable {s : Heap} {n : Nat}

/-- `_kmalloc` gives up only when the lists of the order and of all larger ones are empty. -/
theorem Inv.heads_of_null {k k' : Kmem} {n o : Nat} {H : Set (Nat × Nat)} (h : Inv k n H) (ho : IsOrd o)
    (hk : _kmalloc k o = .ok (0, k')) {o' : Nat} (hLow : o ≤ o') (hHigh : o' ≤ maxOrd) :
    (k.ord o').head = nil := by
  have hPos : ∀ b, addr k b ≠ 0 := by
    intro b
    have := h.layout.heapPos
    rw [addr]
    omega
  rw [_kmalloc] at hk
  split at hk
  · rename_i hHead
    obtain ⟨id, hNull, _⟩ := h.getBlk ho hHead hk
    exact absurd hNull.symm (hPos _)
  · rename_i hHead
    rw [ne_eq, not_not] at hHead
    split at hk
    · rename_i ho'
      split at hk
      · cases hk
      rename_i up k₁ hk₁
      have hUp : up = 0 := by
        by_contra hUp
        rw [if_pos hUp] at hk
        obtain ⟨_, _, hEq⟩ := map_eq_ok.mp hk
        exact hUp (Prod.mk.inj hEq).1
      rcases Nat.eq_or_lt_of_le hLow with rfl | hLt
      · exact hHead
      · exact h.heads_of_null ⟨ho.1.trans (Nat.le_succ o), ho'⟩ (hUp ▸ hk₁) hLt hHigh
    · obtain rfl : o' = o := by omega
      exact hHead
termination_by maxOrd - o

theorem Lists.not_avail {k : Kmem} {o id : Nat} (h : Lists k n) (hHead : (k.ord o).head = nil)
    (hb : HasBit n o id) : ¬Avail k o id := by
  intro hA
  obtain ⟨l, hl⟩ := h o hb.1
  obtain rfl : l = [] := hl.chain.head_eq_nil_iff.mp hHead
  have hSet : (k.getMark o (id / 32)).bitmap ≠ 0#32 := by
    rw [Avail, available_eq] at hA
    intro hZero
    rw [hZero] at hA
    simp at hA
  cases (hl.mem (id / 32)).mpr ⟨hb.2, hSet⟩

/-- A free run of an order lies in one available block of at least this order. -/
theorem Tidy.exists_block (h : Tidy s n) {a o : Nat} (ho : IsOrd o) (hAlign : a % 2 ^ o = 0)
    (hLow : s.kmem.startHeap ≤ a) (hFree : bytes (a, o) ⊆ freeBytes s.kmem n) :
    ∃ o' id, o ≤ o' ∧ HasBit n o' id ∧ Avail s.kmem o' id := by
  obtain ⟨L, hL⟩ := h.heap
  have hStart : 2 ^ o ∣ s.kmem.startHeap :=
    (Nat.pow_dvd_pow 2 ho.2).trans (Nat.dvd_of_mod_eq_zero hL.inv.layout.aligned)
  obtain ⟨i, hi⟩ : 2 ^ o ∣ a - s.kmem.startHeap :=
    Nat.dvd_sub (Nat.dvd_of_mod_eq_zero hAlign) hStart
  have hAddr : (a, o) = handle s.kmem (o, i) := by
    rw [handle, addr]
    congr 1
    rw [Nat.mul_comm, ← hi]
    omega
  rw [hAddr, hL.inv.subset_freeBytes] at hFree
  obtain ⟨⟨o', id⟩, hMem, hSub⟩ := h.merged.exists_superset ho.2 hFree
  exact ⟨o', id, order_le_of_subset hSub, hMem.1, hMem.2⟩

theorem Tidy.kmalloc_null (h : Tidy s n) (hLs : Lists s.kmem n) {o : Nat} {k' : Kmem} (ho : IsOrd o)
    (hk : Buddy.kmalloc s.kmem o = .ok (0, k')) {a : Nat} (hAlign : a % 2 ^ o = 0)
    (hLow : s.kmem.startHeap ≤ a) : ¬bytes (a, o) ⊆ freeBytes s.kmem n := by
  intro hFree
  obtain ⟨o', id, hLe, hBit, hA⟩ := h.exists_block ho hAlign hLow hFree
  obtain ⟨L, hL⟩ := h.heap
  rw [kmalloc_eq ho] at hk
  exact hLs.not_avail (hL.inv.heads_of_null ho hk hLe hBit.1.2) hBit hA

/-- In a heap that ends on a page boundary the free bytes are those before the end that
are not live. -/
theorem Tidy.freeBytes_eq (h : Tidy s n) (hStop : s.kmem.stop % 2 ^ maxOrd = 0) :
    freeBytes s.kmem n =
      {x | s.kmem.startHeap ≤ x ∧ x < s.kmem.stop ∧ ∀ a ∈ s.live, x ∉ bytes a} := by
  obtain ⟨L, hL⟩ := h.heap
  have hLen : heapLen s.kmem = s.kmem.stop - s.kmem.startHeap := by
    have h1 := hL.inv.layout.aligned
    simp only [heapLen, maxOrd] at *
    omega
  rw [h.free, hLen]
  ext x
  refine and_congr_right fun hLow => and_congr_left fun _ => ?_
  omega

theorem Tidy.freeBytes_lt (h : Tidy s n) (hStop : s.kmem.stop % 2 ^ maxOrd = 0) {x : Nat}
    (hx : x ∈ freeBytes s.kmem n) : x < s.kmem.stop := by
  rw [h.freeBytes_eq hStop] at hx
  exact hx.2.1

end Refusal

/-- `kmalloc` refuses exactly when no aligned run of the order is free, and then changes
nothing; otherwise the free bytes lose exactly the block it returns. -/
theorem kmalloc_fails_only_when_full {vstart vend : Nat} (hs : vstart < 2 ^ 32)
    (hAlign : vend % 2 ^ maxOrd = 0)
    (hWrap : vstart + numMarks vstart vend * (2 ^ nOrd - 1) * 8 + (2 ^ maxOrd - 1) < 2 ^ 32)
    (hMarks : ∀ o, IsOrd o → nmarks (numMarks vstart vend) o ≤ 0xFFFF)
    {s : Heap} (hReach : Reach vstart vend s) {order : Nat} (ho : minOrd ≤ order ∧ order ≤ maxOrd) :
    freeBytes s.kmem (numMarks vstart vend) =
      {x | s.kmem.startHeap ≤ x ∧ x < s.kmem.stop ∧ ∀ a ∈ s.live, x ∉ bytes a} ∧
    ∃ mem k', kmalloc s.kmem order = .ok (mem, k') ∧
      (mem = 0 ↔ ¬∃ a, a % 2 ^ order = 0 ∧ s.kmem.startHeap ≤ a ∧ a + 2 ^ order ≤ s.kmem.stop ∧
        bytes (a, order) ⊆ freeBytes s.kmem (numMarks vstart vend)) ∧
      (mem = 0 → k' = s.kmem) ∧
      (mem ≠ 0 → bytes (mem, order) ⊆ freeBytes s.kmem (numMarks vstart vend) ∧
        freeBytes k' (numMarks vstart vend) =
          freeBytes s.kmem (numMarks vstart vend) \ bytes (mem, order)) := by
  obtain ⟨_, hStop, hT⟩ := hReach.tidy (hReach.region hs hWrap)
  obtain ⟨hLs, hCalls⟩ := hReach.lists (hReach.region hs hWrap) hMarks
  have hEnd : s.kmem.stop % 2 ^ maxOrd = 0 := hStop ▸ hAlign
  refine ⟨hT.freeBytes_eq hEnd, ?_⟩
  obtain ⟨s', hs'⟩ := hCalls (.kmalloc order) ho
  obtain ⟨⟨mem, k'⟩, hk, _⟩ := map_eq_ok.mp hs'
  refine ⟨mem, k', hk, ?_⟩
  rcases hT.kmalloc_cases ho hk with ⟨rfl, rfl⟩ | ⟨hPos, _, _, ⟨id, hMem⟩, hSub, hFree⟩
  · refine ⟨⟨fun _ => ?_, fun _ => rfl⟩, fun _ => rfl, fun hPos => absurd rfl hPos⟩
    rintro ⟨a, hA, hLow, _, hRun⟩
    exact hT.kmalloc_null hLs ho hk hA hLow hRun
  · refine ⟨⟨fun hNull => absurd hNull hPos, fun hNone => absurd ?_ hNone⟩,
      fun hNull => absurd hNull hPos, fun _ => ⟨hSub, hFree⟩⟩
    obtain ⟨L, hL⟩ := hT.heap
    have hPow := Nat.two_pow_pos order
    have hLast : mem + 2 ^ order - 1 ∈ bytes (mem, order) := by
      simp only [bytes, Set.mem_Ico]
      omega
    have hHigh := hT.freeBytes_lt hEnd (hSub hLast)
    refine ⟨mem, hMem ▸ addr_aligned hL.inv.layout ho, ?_, by omega, hSub⟩
    rw [hMem]
    exact Nat.le_add_right _ _

theorem kmalloc_fails_only_when_full_two_blocks :
    ∃ s, Reach 0x10000 0x18000 s ∧ s.live = [(0x11040, 6), (0x11000, 6)] ∧
      (freeBytes s.kmem (numMarks 0x10000 0x18000) =
        {x | s.kmem.startHeap ≤ x ∧ x < s.kmem.stop ∧ ∀ a ∈ s.live, x ∉ bytes a} ∧
      ∃ mem k', kmalloc s.kmem 12 = .ok (mem, k') ∧
        (mem = 0 ↔ ¬∃ a, a % 2 ^ 12 = 0 ∧ s.kmem.startHeap ≤ a ∧ a + 2 ^ 12 ≤ s.kmem.stop ∧
          bytes (a, 12) ⊆ freeBytes s.kmem (numMarks 0x10000 0x18000)) ∧
        (mem = 0 → k' = s.kmem) ∧
        (mem ≠ 0 → bytes (mem, 12) ⊆ freeBytes s.kmem (numMarks 0x10000 0x18000) ∧
          freeBytes k' (numMarks 0x10000 0x18000) =
            freeBytes s.kmem (numMarks 0x10000 0x18000) \ bytes (mem, 12))) := by
  have hRun : liveAfter 0x10000 0x18000 [.kmalloc 6, .kmalloc 6] =
      some [(0x11040, 6), (0x11000, 6)] := by
    decide +kernel
  obtain ⟨s, hReach, hLive⟩ := reach_liveAfter hRun
  have hMarks : ∀ o, IsOrd o → nmarks (numMarks 0x10000 0x18000) o ≤ 0xFFFF := by
    intro o ho
    have hOne : numMarks 0x10000 0x18000 = 1 := by decide +kernel
    have hPow : 2 ^ (maxOrd - o) ≤ 2 ^ maxOrd := Nat.pow_le_pow_right (by decide) (Nat.sub_le _ _)
    simp only [nmarks, hOne, maxOrd] at *
    omega
  exact ⟨s, hReach, hLive,
    kmalloc_fails_only_when_full (by decide) (by decide) (by decide +kernel) hMarks hReach (by decide)⟩

end Xv6Rpi.Buddy
