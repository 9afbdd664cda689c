import Xv6Rpi.Buddy.Coalesce

/-! # Freeing a block twice

`_kfree` recognises a block that is free already by the bit of the block itself. When
the first `kfree` merged the block with its buddy, that bit is clear again and the bit
of a larger block stands for it: a second `kfree` goes through.
-/

namespace Xv6Rpi.Buddy

open Dyadic

def _kfreeLeaves (k : Kmem) (mem order : Nat) : Kmem :=
  let blkId := mem2blkid k order mem
  let mk := k.getMark order (blkId >>> 5)
  if available mk.bitmap blkId then k
  else
    let buddyId := blkId ^^^ 0x0001
    if !available mk.bitmap buddyId then (markBlk k order blkId).toOption.getD k
    else if order < maxOrd then
      match unmarkBlk k order buddyId with
      | .error _ => k
      | .ok k => _kfreeLeaves k (blkid2mem k order (blkId / 2 * 2)) (order + 1)
    else (markBlk k order blkId).toOption.getD k
termination_by maxOrd - order

/-- The allocator's state when `kfree` returns or panics. -/
def kfreeLeaves (k : Kmem) (mem order : Nat) : Kmem :=
  if order > maxOrd ∨ order < minOrd ∨ mem &&& ((1 <<< order) - 1) ≠ 0 then k
  else _kfreeLeaves k mem order

/-- The call panics before it has written anything. -/
def Caught (k : Kmem) (mem order : Nat) : Prop :=
  (∃ e, kfree k mem order = .error e) ∧ kfreeLeaves k mem order = k

/-- The block that makes up the parent together with the given one. -/
def buddy (k : Kmem) (a : Nat × Nat) : Nat × Nat :=
  (blkid2mem k a.2 (mem2blkid k a.2 a.1 ^^^ 1), a.2)

/-- An allowed call that does not hand out memory of the block. -/
def Sparing (a : Nat × Nat) (s s' : Heap) : Prop :=
  Step s s' ∧ ∀ b ∈ s'.live, b ∈ s.live ∨ Disjoint (bytes b) (bytes a)

/-- The block was allocated and then freed, and no `kmalloc` since has returned memory
that overlaps it. -/
def Freed (vstart vend : Nat) (a : Nat × Nat) (s : Heap) : Prop :=
  ∃ s₀ s₁, Reach vstart vend s₀ ∧ a ∈ s₀.live ∧ exec s₀ (.kfree a.1 a.2) = .ok s₁ ∧
    Relation.ReflTransGen (Sparing a) s₁ s

section Leaves

theorem toOption_getD_ok {k k' : Kmem} {x : Except Panic Kmem} (h : x = .ok k') :
    x.toOption.getD k = k' := by
  rw [h]
  rfl

theorem _kfreeLeaves_ok {k k' : Kmem} {mem o : Nat} (h : _kfree k mem o = .ok k') :
    _kfreeLeaves k mem o = k' := by
  rw [_kfree] at h
  rw [_kfreeLeaves]
  simp only at h ⊢
  split at h
  · cases h
  rename_i hOwn
  rw [if_neg hOwn]
  split at h
  · rename_i hBuddy
    rw [if_pos hBuddy]
    exact toOption_getD_ok h
  rename_i hBuddy
  rw [if_neg hBuddy]
  split at h
  · rename_i ho
    rw [if_pos ho]
    cases hk₁ : unmarkBlk k o (mem2blkid k o mem ^^^ 1) with
    | error e =>
      rw [hk₁] at h
      cases h
    | ok k₁ =>
      rw [hk₁] at h
      exact _kfreeLeaves_ok h
  · rename_i ho
    rw [if_neg ho]
    exact toOption_getD_ok h
termination_by maxOrd - o

theorem kfreeLeaves_ok {k k' : Kmem} {mem o : Nat} (h : kfree k mem o = .ok k') :
    kfreeLeaves k mem o = k' := by
  rw [kfree] at h
  rw [kfreeLeaves]
  split at h
  · cases h
  · rename_i hRange
    rw [if_neg hRange]
    exact _kfreeLeaves_ok h

end Leaves

section Blocks

variable {k : Kmem} {n o id : Nat} {H : Set (Nat × Nat)}

theorem xor_one_div_two (id : Nat) : (id ^^^ 1) / 2 = id / 2 := by
  rcases even_or_odd id with h | h
  · rw [h, even_xor_one]
    omega
  · rw [h, odd_xor_one]
    omega

theorem InHeap.buddy (h : InHeap k (o, id)) (ho : o < maxOrd) : InHeap k (o, id ^^^ 1) := by
  have hParent := (h.parent ho).2
  refine ⟨h.1, le_trans ?_ hParent⟩
  have hDiv := xor_one_div_two id
  calc ((id ^^^ 1) + 1) * 2 ^ o ≤ (2 * (id / 2) + 2) * 2 ^ o := Nat.mul_le_mul_right _ (by omega)
    _ = (id / 2 + 1) * 2 ^ (o + 1) := by
      rw [Nat.pow_succ]
      ring

theorem buddy_handle (hL : Layout k n) (h : InHeap k (o, id)) (ho : o < maxOrd) :
    buddy k (handle k (o, id)) = handle k (o, id ^^^ 1) := by
  have hId : mem2blkid k o (addr k (o, id)) = id := mem2blkid_addr hL h
  have hMem : blkid2mem k o (id ^^^ 1) = addr k (o, id ^^^ 1) := blkid2mem_eq hL (h.buddy ho)
  simp only [Buddy.buddy, handle, hId, hMem]

/-- The call stops at its first test when the bit of the block is set. -/
theorem caught_of_avail (hL : Layout k n) (h : InHeap k (o, id)) (hA : Avail k o id) :
    Caught k (addr k (o, id)) o := by
  have hId : mem2blkid k o (addr k (o, id)) = id := mem2blkid_addr hL h
  rw [Avail] at hA
  constructor
  · refine ⟨.kfreeDoubleFree, ?_⟩
    rw [kfree_eq hL rfl h, _kfree]
    simp only [hId, shiftRight_five, hA, if_true]
  · rw [kfreeLeaves]
    split
    · rfl
    · rw [_kfreeLeaves]
      simp only [hId, shiftRight_five, hA, if_true]

/-- With the bits of the block and of its buddy clear the call goes through. -/
theorem not_caught_of_not_avail (hL : Layout k n) (h : InHeap k (o, id)) (hA : ¬Avail k o id)
    (hB : ¬Avail k o (id ^^^ 1)) : ¬Caught k (addr k (o, id)) o := by
  have hId : mem2blkid k o (addr k (o, id)) = id := mem2blkid_addr hL h
  obtain ⟨k', hk'⟩ := markBlk_isOk hA
  rintro ⟨⟨e, hPanic⟩, _⟩
  rw [kfree_eq hL rfl h, _kfree] at hPanic
  rw [Avail] at hA
  rw [← avail_buddy] at hB
  simp only [hId, shiftRight_five] at hPanic
  rw [if_neg hA, if_pos (by simpa using hB), hk'] at hPanic
  cases hPanic

end Blocks

section Runs

variable {vstart vend : Nat} {s s' : Heap} {n : Nat} {a : Nat × Nat}

theorem Sparing.reach (hRun : Relation.ReflTransGen (Sparing a) s s') (h : Reach vstart vend s) :
    Reach vstart vend s' := by
  obtain ⟨k₀, k, hk, hBefore⟩ := h
  exact ⟨k₀, k, hk, hBefore.trans (Relation.ReflTransGen.mono (fun _ _ hStep => hStep.1) _ _ hRun)⟩

theorem Sparing.disjoint (hRun : Relation.ReflTransGen (Sparing a) s s')
    (h : ∀ b ∈ s.live, Disjoint (bytes b) (bytes a)) : ∀ b ∈ s'.live, Disjoint (bytes b) (bytes a) := by
  induction hRun with
  | refl => exact h
  | tail _ hStep ih =>
    intro b hb
    exact (hStep.2 b hb).elim (ih b) id

theorem Freed.block (hR : Region vstart vend) (h : Freed vstart vend a s) :
    Reach vstart vend s ∧ (∃ o id, a = handle s.kmem (o, id) ∧ InHeap s.kmem (o, id)) ∧
      ∀ b ∈ s.live, Disjoint (bytes b) (bytes a) := by
  obtain ⟨s₀, s₁, hReach, hLive, hFree, hRun⟩ := h
  obtain ⟨_, _, L, hL⟩ := hReach.inv hR
  have hStep : Step s₀ s₁ := ⟨.kfree a.1 a.2, hLive, hFree⟩
  have hReach₁ : Reach vstart vend s₁ := by
    obtain ⟨k₀, k, hk, hBefore⟩ := hReach
    exact ⟨k₀, k, hk, hBefore.tail hStep⟩
  have hS : SameLayout s₀.kmem s.kmem := by
    obtain ⟨hS, L₁, hL₁⟩ := hL.step hStep
    exact hS.trans (hL₁.run (Relation.ReflTransGen.mono (fun _ _ hStep => hStep.1) _ _ hRun)).1
  refine ⟨Sparing.reach hRun hReach₁, ?_, Sparing.disjoint hRun ?_⟩
  · obtain ⟨⟨o, id⟩, hb, rfl⟩ := List.mem_map.mp (hL.live ▸ hLive)
    exact ⟨o, id, by rw [hS.handle], hS.inHeap.mpr (hL.inv.inHeap _ (Or.inr hb))⟩
  · have hNodup : s₀.live.Nodup := hL.live ▸ hL.nodup.map (handle_injective s₀.kmem)
    obtain ⟨k', _, rfl⟩ := map_eq_ok.mp hFree
    intro b hb
    obtain ⟨hne, hb⟩ := hNodup.mem_erase_iff.mp hb
    exact hL.disjoint_live hb hLive hne

theorem Tidy.cover_of_disjoint (h : Tidy s n) {b : Nat × Nat} (hIn : InHeap s.kmem b)
    (hLive : ∀ c ∈ s.live, Disjoint (bytes c) (bytes (handle s.kmem b))) :
    span b ⊆ cover (availSet s.kmem n) := by
  obtain ⟨L, hL⟩ := h.heap
  rw [← hL.inv.subset_freeBytes, h.free]
  intro x hx
  have hMem := (mem_bytes_handle b).mp hx
  have hEnd := (mem_span.mp hMem.2).2
  have hHeap := hIn.2
  refine ⟨hMem.1, by omega, fun c hc hxc => ?_⟩
  exact Set.disjoint_left.mp (hLive c hc) hxc hx

theorem Tidy.packing (h : Tidy s n) : Packing (availSet s.kmem n) := by
  obtain ⟨L, hL⟩ := h.heap
  exact hL.inv.packing.mono Set.subset_union_left

/-- Of a block inside a larger available one, neither its own bit nor that of its buddy
is set. -/
theorem Tidy.not_avail_of_parent (h : Tidy s n) {o id : Nat} {c : Nat × Nat}
    (hc : c ∈ availSet s.kmem n) (ho : o < c.1) (hSub : span (o + 1, id / 2) ⊆ span c)
    (hb : HasBit n o id) : ¬Avail s.kmem o id := by
  intro hA
  have hMem := first_mem_span (o, id)
  have hEq := h.packing.eq_of_mem (b := (o, id)) ⟨hb, hA⟩ hc hMem (hSub (half_subset o id hMem))
  rw [← hEq] at ho
  exact Nat.lt_irrefl o ho

/-- The bit of a free block is set unless its buddy is free as well and they are merged. -/
theorem Tidy.avail_iff (h : Tidy s n) {o id : Nat} (hIn : InHeap s.kmem (o, id))
    (hSub : span (o, id) ⊆ cover (availSet s.kmem n)) :
    Avail s.kmem o id ↔ o = maxOrd ∨
      ∃ b ∈ s.live, ¬Disjoint (bytes b) (bytes (buddy s.kmem (handle s.kmem (o, id)))) := by
  obtain ⟨L, hL⟩ := h.heap
  have hBit := hIn.hasBit hL.inv.layout
  constructor
  · intro hA
    rw [or_iff_not_imp_left]
    intro hne
    have ho : o < maxOrd := lt_of_le_of_ne hIn.1.2 hne
    by_contra hNone
    push Not at hNone
    rw [buddy_handle hL.inv.layout hIn ho] at hNone
    -- the buddy is free, so its bit is set or a larger block holds both
    rcases h.merged.mem_or_parent ho.le (h.cover_of_disjoint (hIn.buddy ho) hNone) with hB | ⟨c, hc, hLt, hUp⟩
    · exact h.not_both ho hBit hA hB.2
    · rw [xor_one_div_two] at hUp
      exact h.not_avail_of_parent hc hLt hUp hBit hA
  · intro hCases
    rcases h.merged.mem_or_parent hIn.1.2 hSub with hA | ⟨c, hc, hLt, hUp⟩
    · exact hA.2
    have ho : o < maxOrd := hLt.trans_le (hL.inv.inHeap c (Or.inl hc)).1.2
    obtain ⟨b, hb, hMeet⟩ := hCases.resolve_left (Nat.ne_of_lt ho)
    rw [buddy_handle hL.inv.layout hIn ho] at hMeet
    obtain ⟨x, hxb, hx⟩ := Set.not_disjoint_iff.mp hMeet
    obtain ⟨hLow, hSpan⟩ := (mem_bytes_handle _).mp hx
    rw [← xor_one_div_two] at hUp
    have hFree : x ∈ freeBytes s.kmem n :=
      hL.inv.mem_freeBytes.mpr ⟨hLow, c, hc, hUp (half_subset _ _ hSpan)⟩
    rw [h.free] at hFree
    exact absurd hxb (hFree.2.2 b hb)

/-- A second `kfree` of a free block is caught by the block's own bit and by nothing else. -/
theorem Tidy.caught_iff (h : Tidy s n) {o id : Nat} (hIn : InHeap s.kmem (o, id))
    (hSub : span (o, id) ⊆ cover (availSet s.kmem n)) :
    Caught s.kmem (addr s.kmem (o, id)) o ↔ Avail s.kmem o id := by
  obtain ⟨L, hL⟩ := h.heap
  have hLayout := hL.inv.layout
  constructor
  · intro hCaught
    rcases h.merged.mem_or_parent hIn.1.2 hSub with hA | ⟨c, hc, hLt, hUp⟩
    · exact hA.2
    have ho : o < maxOrd := hLt.trans_le (hL.inv.inHeap c (Or.inl hc)).1.2
    have hNot := h.not_avail_of_parent hc hLt hUp (hIn.hasBit hLayout)
    rw [← xor_one_div_two] at hUp
    have hNotB := h.not_avail_of_parent hc hLt hUp ((hIn.buddy ho).hasBit hLayout)
    exact absurd hCaught (not_caught_of_not_avail hLayout hIn hNot hNotB)
  · exact caught_of_avail hLayout hIn

end Runs

/-- A second `kfree` of a block is caught exactly when the first one could not merge it:
at the largest order, or with a live block inside the buddy. -/
theorem double_free_caught_iff {vstart vend : Nat} (hs : vstart < 2 ^ 32)
    (hWrap : vstart + numMarks vstart vend * (2 ^ nOrd - 1) * 8 + (2 ^ maxOrd - 1) < 2 ^ 32)
    {s : Heap} {a : Nat × Nat} (h : Freed vstart vend a s) :
    Caught s.kmem a.1 a.2 ↔
      a.2 = maxOrd ∨ ∃ b ∈ s.live, ¬Disjoint (bytes b) (bytes (buddy s.kmem a)) := by
  have hR : Region vstart vend := by
    obtain ⟨_, _, hReach, _⟩ := h
    exact hReach.region hs hWrap
  obtain ⟨hReach, ⟨o, id, rfl, hIn⟩, hLive⟩ := h.block hR
  obtain ⟨_, _, hT⟩ := hReach.tidy hR
  have hSub := hT.cover_of_disjoint hIn hLive
  exact (hT.caught_iff hIn hSub).trans (hT.avail_iff hIn hSub)

theorem freed_of_run (vstart vend mem order : Nat) (calls : List Call) (live : List (Nat × Nat))
    (h : ((((kmemInit2 zeroKmem vstart vend).toOption.bind fun k => execAll ⟨k, []⟩ calls).bind fun s =>
      if (mem, order) ∈ s.live then (exec s (.kfree mem order)).toOption else none).map Heap.live) =
        some live) :
    ∃ s, Freed vstart vend (mem, order) s ∧ s.live = live := by
  obtain ⟨s₁, hs₁, rfl⟩ := Option.map_eq_some_iff.mp h
  obtain ⟨s₀, hs₀, hFree⟩ := Option.bind_eq_some_iff.mp hs₁
  obtain ⟨k, hk, hRun⟩ := Option.bind_eq_some_iff.mp hs₀
  split at hFree
  · rename_i hLive
    exact ⟨s₁, ⟨s₀, s₁, ⟨zeroKmem, k, toOption_eq_some.mp hk, run_execAll hRun⟩, hLive,
      toOption_eq_some.mp hFree, .refl⟩, rfl⟩
  · cases hFree

theorem double_free_caught_beside_live :
    ∃ s, Freed 0x10000 0x18000 (0x11000, 6) s ∧ s.live = [(0x11040, 6)] ∧
      (Caught s.kmem 0x11000 6 ↔
        6 = maxOrd ∨ ∃ b ∈ s.live, ¬Disjoint (bytes b) (bytes (buddy s.kmem (0x11000, 6)))) := by
  obtain ⟨s, hFreed, hLive⟩ :=
    freed_of_run 0x10000 0x18000 0x11000 6 [.kmalloc 6, .kmalloc 6] [(0x11040, 6)] (by decide +kernel)
  exact ⟨s, hFreed, hLive, double_free_caught_iff (by decide) (by decide +kernel) hFreed⟩

/-- The first `kfree` merges the block with its buddy, and the second one returns. -/
theorem double_free_accepted :
    ¬∀ vstart vend : Nat, vstart < 2 ^ 32 → vend < 2 ^ 32 → vend % 2 ^ maxOrd = 0 →
      vstart + numMarks vstart vend * (2 ^ nOrd - 1) * 8 + (2 ^ maxOrd - 1) < 2 ^ 32 →
      ∀ (s : Heap) (a : Nat × Nat), Freed vstart vend a s → Caught s.kmem a.1 a.2 := by
  intro hAll
  have hRun : (((kmemInit2 zeroKmem 0x10000 0x18000).toOption.bind fun k =>
      execAll ⟨k, []⟩ [.kmalloc 6]).bind fun s =>
        if (0x11000, 6) ∈ s.live then
          (exec s (.kfree 0x11000 6)).toOption.bind fun s => (kfree s.kmem 0x11000 6).toOption
        else none).isSome = true := by
    decide +kernel
  obtain ⟨k₂, hSome⟩ := Option.isSome_iff_exists.mp hRun
  obtain ⟨s₀, hs₀, hFree⟩ := Option.bind_eq_some_iff.mp hSome
  obtain ⟨k, hk, hBefore⟩ := Option.bind_eq_some_iff.mp hs₀
  split at hFree
  · rename_i hLive
    obtain ⟨s₁, hs₁, hAgain⟩ := Option.bind_eq_some_iff.mp hFree
    have hFreed : Freed 0x10000 0x18000 (0x11000, 6) s₁ :=
      ⟨s₀, s₁, ⟨zeroKmem, k, toOption_eq_some.mp hk, run_execAll hBefore⟩, hLive,
        toOption_eq_some.mp hs₁, .refl⟩
    obtain ⟨⟨e, hPanic⟩, _⟩ := hAll _ _ (by decide) (by decide) (by decide) (by decide +kernel) s₁ _ hFreed
    rw [toOption_eq_some.mp hAgain] at hPanic
    cases hPanic
  · cases hFree

end Xv6Rpi.Buddy
