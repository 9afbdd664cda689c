import Xv6Rpi.Buddy.Model

/-! # Marks, bits and links

What the marks of a heap with `n` marks in the largest order look like, and what one
`mark_blk` or `unmark_blk` does to the availability bits. Nothing here assumes that the
lists are intact: links may have lost their upper bits, and the bits are still right.
-/

namespace Xv6Rpi.Buddy

section Bits

theorem mask_getLsbD (id j : Nat) :
    (1#32 <<< (id &&& 0x1F)).getLsbD (j % 32) = decide (j % 32 = id % 32) := by
  have hj : j % 32 < 32 := Nat.mod_lt _ (by decide)
  rw [Nat.and_two_pow_sub_one_eq_mod id 5, show 2 ^ 5 = 32 from rfl, ← BitVec.twoPow,
    BitVec.getLsbD_twoPow]
  by_cases h : id % 32 = j % 32
  · simp [h, hj]
  · simp [h, Ne.symm h]

theorem available_eq (bitmap : BitVec 32) (id : Nat) :
    available bitmap id = bitmap.getLsbD (id % 32) := by
  have hMask : id &&& 0x1F = id % 32 := Nat.and_two_pow_sub_one_eq_mod id 5
  have hBit : (1#32 <<< (id % 32)) = BitVec.twoPow 32 (id % 32) := by rw [BitVec.twoPow]
  rw [available, hMask, hBit, BitVec.and_twoPow]
  by_cases h : bitmap.getLsbD (id % 32)
  · have hNe : BitVec.twoPow 32 (id % 32) ≠ 0#32 := by
      intro hEq
      have := congrArg (fun v => v.getLsbD (id % 32)) hEq
      simp [Nat.mod_lt] at this
    simp [h, hNe]
  · simp [h]

theorem available_clear (bitmap : BitVec 32) (id j : Nat) :
    available (bitmap &&& ~~~(1#32 <<< (id &&& 0x1F))) j =
      (available bitmap j && decide (j % 32 ≠ id % 32)) := by
  have hj : j % 32 < 32 := Nat.mod_lt _ (by decide)
  rw [available_eq, available_eq, BitVec.getLsbD_and, BitVec.getLsbD_not, mask_getLsbD]
  simp [hj]

theorem available_set (bitmap : BitVec 32) (id j : Nat) :
    available (bitmap ||| (1#32 <<< (id &&& 0x1F))) j =
      (available bitmap j || decide (j % 32 = id % 32)) := by
  rw [available_eq, available_eq, BitVec.getLsbD_or, mask_getLsbD]

theorem bitmap_ne_zero_iff (bitmap : BitVec 32) :
    bitmap ≠ 0#32 ↔ ∃ i < 32, available bitmap i = true := by
  constructor
  · intro h
    by_contra hNone
    apply h
    apply BitVec.eq_of_getLsbD_eq
    intro i hi
    by_contra hBit
    apply hNone
    refine ⟨i, hi, ?_⟩
    rw [available_eq, Nat.mod_eq_of_lt hi]
    simpa using hBit
  · rintro ⟨i, hi, h⟩ rfl
    rw [available_eq] at h
    simp at h

theorem firstBit_some {bitmap : BitVec 32} {i : Nat} (h : firstBit bitmap = some i) :
    i < 32 ∧ available bitmap i = true := by
  have hMem := List.mem_of_find?_eq_some h
  have hi : i < 32 := List.mem_range.mp hMem
  have hBit := List.find?_some h
  refine ⟨hi, ?_⟩
  rw [available, Nat.and_two_pow_sub_one_eq_mod i 5, Nat.mod_eq_of_lt hi]
  exact hBit

theorem firstBit_isSome {bitmap : BitVec 32} (h : bitmap ≠ 0#32) :
    ∃ i, firstBit bitmap = some i := by
  obtain ⟨i, hi, hBit⟩ := (bitmap_ne_zero_iff bitmap).mp h
  have hMask : i &&& 0x1F = i := by
    rw [Nat.and_two_pow_sub_one_eq_mod i 5, Nat.mod_eq_of_lt hi]
  rw [available, hMask] at hBit
  exact Option.isSome_iff_exists.mp
    (List.find?_isSome.mpr ⟨i, List.mem_range.mpr hi, hBit⟩)

end Bits

section Links

@[simp] theorem preLnk_mkLnks (pre next : Nat) : preLnk (mkLnks pre next) = pre % 2 ^ 16 := by
  have hMask : (0xFFFF : Nat) = 2 ^ 16 - 1 := rfl
  simp only [preLnk, mkLnks, BitVec.toNat_ushiftRight, BitVec.toNat_or, BitVec.toNat_shiftLeft,
    BitVec.toNat_and, BitVec.toNat_ofNat, Nat.shiftRight_or_distrib]
  have hHigh : ((pre % 2 ^ 32) <<< 16 % 2 ^ 32) >>> 16 = pre % 2 ^ 16 := by
    rw [Nat.shiftLeft_eq, Nat.shiftRight_eq_div_pow]
    omega
  have hLow : (next % 2 ^ 32 &&& 65535 % 2 ^ 32) >>> 16 = 0 := by
    rw [show (65535 % 2 ^ 32 : Nat) = 2 ^ 16 - 1 from rfl, Nat.and_two_pow_sub_one_eq_mod,
      Nat.shiftRight_eq_div_pow]
    omega
  rw [hHigh, hLow, Nat.or_zero]

@[simp] theorem nextLnk_mkLnks (pre next : Nat) : nextLnk (mkLnks pre next) = next % 2 ^ 16 := by
  simp only [nextLnk, mkLnks, BitVec.toNat_or, BitVec.toNat_shiftLeft,
    BitVec.toNat_and, BitVec.toNat_ofNat]
  rw [show (65535 % 2 ^ 32 : Nat) = 2 ^ 16 - 1 from rfl]
  simp only [Nat.and_two_pow_sub_one_eq_mod]
  rw [Nat.or_mod_two_pow, Nat.shiftLeft_eq]
  have hHigh : (pre % 2 ^ 32 * 2 ^ 16 % 2 ^ 32) % 2 ^ 16 = 0 := by omega
  rw [hHigh, Nat.zero_or]
  omega

theorem preLnk_lt (lnks : BitVec 32) : preLnk lnks < 2 ^ 16 := by
  have := lnks.isLt
  rw [preLnk, BitVec.toNat_ushiftRight, Nat.shiftRight_eq_div_pow]
  omega

theorem nextLnk_lt (lnks : BitVec 32) : nextLnk lnks < 2 ^ 16 := by
  rw [nextLnk, BitVec.toNat_and]
  simp only [BitVec.toNat_ofNat]
  rw [show (65535 % 2 ^ 32 : Nat) = 2 ^ 16 - 1 from rfl, Nat.and_two_pow_sub_one_eq_mod]
  exact Nat.mod_lt _ (by decide)

end Links

section Layout

/-- The number of marks of an order, given the number `n` for the largest. -/
def nmarks (n o : Nat) : Nat := n * 2 ^ (maxOrd - o)

def IsOrd (o : Nat) : Prop := minOrd ≤ o ∧ o ≤ maxOrd

/-- A block number whose bit belongs to the marks of its order. -/
def HasBit (n o id : Nat) : Prop := IsOrd o ∧ id / 32 < nmarks n o

/-- The fixed part of a heap: every order's marks follow those of the next larger
order, and the marks of the largest order cover the whole heap. -/
structure Layout (k : Kmem) (n : Nat) : Prop where
  pos : 0 < n
  offset : ∀ o, IsOrd o → (k.ord o).offset = n * (2 ^ (maxOrd - o) - 1)
  aligned : k.startHeap % 2 ^ maxOrd = 0
  heapPos : 0 < k.startHeap
  heapLt : k.startHeap < 2 ^ 32
  stopLt : k.stop < 2 ^ 32
  cover : k.stop - k.startHeap ≤ n * 2 ^ (maxOrd + 5)

theorem offset_inj {k : Kmem} {n o o' i i' : Nat} (h : Layout k n) (ho : IsOrd o) (ho' : IsOrd o')
    (hi : i < nmarks n o) (hi' : i' < nmarks n o')
    (hEq : (k.ord o).offset + i = (k.ord o').offset + i') : o = o' ∧ i = i' := by
  rw [h.offset o ho, h.offset o' ho'] at hEq
  -- the marks of a larger order end before those of a smaller one begin
  have hBefore : ∀ p q, p < q → q ≤ maxOrd →
      n * (2 ^ (maxOrd - q) - 1) + nmarks n q ≤ n * (2 ^ (maxOrd - p) - 1) := by
    intro p q hpq hq
    rw [nmarks, ← Nat.mul_add]
    apply Nat.mul_le_mul_left
    have hPow : 2 ^ (maxOrd - q) * 2 ≤ 2 ^ (maxOrd - p) := by
      rw [← Nat.pow_succ]
      exact Nat.pow_le_pow_right (by decide) (by omega)
    have := Nat.two_pow_pos (maxOrd - q)
    omega
  rcases Nat.lt_trichotomy o o' with hlt | rfl | hlt
  · have := hBefore o o' hlt ho'.2
    omega
  · exact ⟨rfl, by omega⟩
  · have := hBefore o' o hlt ho.2
    omega

end Layout

section Frame

variable (k : Kmem) (o i : Nat)

@[simp] theorem setMark_ord (m : Mark) (o' : Nat) : (k.setMark o i m).ord o' = k.ord o' := rfl
@[simp] theorem setLnks_ord (l : BitVec 32) (o' : Nat) : (k.setLnks o i l).ord o' = k.ord o' := rfl
@[simp] theorem setBitmap_ord (b : BitVec 32) (o' : Nat) :
    (k.setBitmap o i b).ord o' = k.ord o' := rfl
@[simp] theorem setMark_marks (m : Mark) :
    (k.setMark o i m).marks = Function.update k.marks ((k.ord o).offset + i) m := rfl
@[simp] theorem setHead_marks (h : Nat) : (k.setHead o h).marks = k.marks := rfl

@[simp] theorem setHead_offset (h o' : Nat) : ((k.setHead o h).ord o').offset = (k.ord o').offset := by
  simp only [Kmem.ord, Kmem.setHead]
  by_cases hEq : o' - minOrd = o - minOrd
  · rw [hEq, Function.update_self]
  · rw [Function.update_of_ne hEq]

@[simp] theorem setHead_head_self (h : Nat) : ((k.setHead o h).ord o).head = h := by
  simp [Kmem.ord, Kmem.setHead]

theorem setHead_head_of_ne {o' : Nat} (h : Nat) (ho : IsOrd o) (ho' : IsOrd o') (hne : o' ≠ o) :
    ((k.setHead o h).ord o').head = (k.ord o').head := by
  simp only [Kmem.ord, Kmem.setHead]
  rw [Function.update_of_ne]
  have h1 := ho.1
  have h2 := ho'.1
  omega

@[simp] theorem setHead_getMark (h o' i' : Nat) : (k.setHead o h).getMark o' i' = k.getMark o' i' := by
  rw [Kmem.getMark, setHead_marks, setHead_offset, Kmem.getMark]

@[simp] theorem getMark_setMark_self (m : Mark) : (k.setMark o i m).getMark o i = m := by
  simp [Kmem.getMark]

theorem getMark_setMark_of_ne {n o' i' : Nat} (m : Mark) (hL : Layout k n) (ho : IsOrd o)
    (ho' : IsOrd o') (hi : i < nmarks n o) (hi' : i' < nmarks n o') (hne : ¬(o' = o ∧ i' = i)) :
    (k.setMark o i m).getMark o' i' = k.getMark o' i' := by
  rw [Kmem.getMark, setMark_marks, setMark_ord, Function.update_of_ne, Kmem.getMark]
  exact fun hEq => hne (offset_inj hL ho' ho hi' hi hEq)

structure SameLayout (k k' : Kmem) : Prop where
  start : k'.start = k.start
  startHeap : k'.startHeap = k.startHeap
  stop : k'.stop = k.stop
  offset : ∀ o, (k'.ord o).offset = (k.ord o).offset

theorem SameLayout.refl : SameLayout k k := ⟨rfl, rfl, rfl, fun _ => rfl⟩

theorem SameLayout.trans {k₁ k₂ k₃ : Kmem} (h : SameLayout k₁ k₂) (h' : SameLayout k₂ k₃) :
    SameLayout k₁ k₃ :=
  ⟨h'.start.trans h.start, h'.startHeap.trans h.startHeap, h'.stop.trans h.stop,
    fun o => (h'.offset o).trans (h.offset o)⟩

theorem SameLayout.symm {k k' : Kmem} (h : SameLayout k k') : SameLayout k' k :=
  ⟨h.start.symm, h.startHeap.symm, h.stop.symm, fun o => (h.offset o).symm⟩

theorem SameLayout.layout {k k' : Kmem} {n : Nat} (h : SameLayout k k') (hL : Layout k n) :
    Layout k' n where
  pos := hL.pos
  offset o ho := (h.offset o).trans (hL.offset o ho)
  aligned := h.startHeap ▸ hL.aligned
  heapPos := h.startHeap ▸ hL.heapPos
  heapLt := h.startHeap ▸ hL.heapLt
  stopLt := h.stop ▸ hL.stopLt
  cover := by
    rw [h.startHeap, h.stop]
    exact hL.cover

theorem sameLayout_setMark (m : Mark) : SameLayout k (k.setMark o i m) := ⟨rfl, rfl, rfl, fun _ => rfl⟩

theorem sameLayout_setHead (h : Nat) : SameLayout k (k.setHead o h) :=
  ⟨rfl, rfl, rfl, fun _ => setHead_offset ..⟩

end Frame

section LinkRange

/-- A link that names no mark, or a mark of its own order. A link cut down to sixteen
bits may name the wrong mark, but never one of another order. -/
def LinkOk (n o x : Nat) : Prop := x = nil ∨ x < nmarks n o

structure LinksOk (k : Kmem) (n : Nat) : Prop where
  head : ∀ o, IsOrd o → LinkOk n o (k.ord o).head
  pre : ∀ o i, IsOrd o → i < nmarks n o → LinkOk n o (preLnk (k.getMark o i).lnks)
  next : ∀ o i, IsOrd o → i < nmarks n o → LinkOk n o (nextLnk (k.getMark o i).lnks)

theorem linkOk_nil (n o : Nat) : LinkOk n o nil := Or.inl rfl

theorem LinkOk.truncate {n o x : Nat} (h : LinkOk n o x) : LinkOk n o (x % 2 ^ 16) := by
  rcases h with rfl | h
  · exact Or.inl rfl
  · exact Or.inr ((Nat.mod_le _ _).trans_lt h)

theorem LinkOk.lt {n o x : Nat} (h : LinkOk n o x) (hx : x ≠ nil) : x < nmarks n o := h.resolve_left hx

variable {k : Kmem} {n o i : Nat}

theorem LinksOk.setMark (h : LinksOk k n) (hL : Layout k n) (ho : IsOrd o) (hi : i < nmarks n o)
    {m : Mark} (hpre : LinkOk n o (preLnk m.lnks)) (hnext : LinkOk n o (nextLnk m.lnks)) :
    LinksOk (k.setMark o i m) n where
  head := h.head
  pre o' i' ho' hi' := by
    by_cases hEq : o' = o ∧ i' = i
    · obtain ⟨rfl, rfl⟩ := hEq
      rwa [getMark_setMark_self]
    · rw [getMark_setMark_of_ne k o i m hL ho ho' hi hi' hEq]
      exact h.pre o' i' ho' hi'
  next o' i' ho' hi' := by
    by_cases hEq : o' = o ∧ i' = i
    · obtain ⟨rfl, rfl⟩ := hEq
      rwa [getMark_setMark_self]
    · rw [getMark_setMark_of_ne k o i m hL ho ho' hi hi' hEq]
      exact h.next o' i' ho' hi'

theorem LinksOk.setLnks (h : LinksOk k n) (hL : Layout k n) (ho : IsOrd o) (hi : i < nmarks n o)
    {a b : Nat} (ha : LinkOk n o a) (hb : LinkOk n o b) : LinksOk (k.setLnks o i (mkLnks a b)) n :=
  h.setMark hL ho hi (by simpa using ha.truncate) (by simpa using hb.truncate)

theorem LinksOk.setBitmap (h : LinksOk k n) (hL : Layout k n) (ho : IsOrd o) (hi : i < nmarks n o)
    (b : BitVec 32) : LinksOk (k.setBitmap o i b) n :=
  h.setMark hL ho hi (h.pre o i ho hi) (h.next o i ho hi)

theorem LinksOk.setHead (h : LinksOk k n) (ho : IsOrd o) {x : Nat} (hx : LinkOk n o x) :
    LinksOk (k.setHead o x) n where
  head o' ho' := by
    by_cases hEq : o' = o
    · subst hEq
      rwa [setHead_head_self]
    · rw [setHead_head_of_ne k o x ho ho' hEq]
      exact h.head o' ho'
  pre o' i' ho' hi' := by
    rw [setHead_getMark]
    exact h.pre o' i' ho' hi'
  next o' i' ho' hi' := by
    rw [setHead_getMark]
    exact h.next o' i' ho' hi'

theorem sameLayout_joinPrev (k : Kmem) (o i p q : Nat) : SameLayout k (joinPrev k o i p q) := by
  unfold joinPrev
  split
  · exact sameLayout_setMark ..
  · split
    · exact sameLayout_setHead ..
    · exact .refl k

theorem sameLayout_joinNext (k : Kmem) (o p q : Nat) : SameLayout k (joinNext k o p q) := by
  unfold joinNext
  split
  · exact sameLayout_setMark ..
  · exact .refl k

theorem sameLayout_joinHead (k : Kmem) (o i h : Nat) : SameLayout k (joinHead k o i h) := by
  unfold joinHead
  split
  · exact sameLayout_setMark ..
  · exact .refl k

theorem sameLayout_unlinkMark (k : Kmem) (o i : Nat) : SameLayout k (unlinkMark k o i) :=
  ((sameLayout_joinPrev ..).trans (sameLayout_joinNext ..)).trans (sameLayout_setMark ..)

theorem sameLayout_linkMark (k : Kmem) (o i : Nat) : SameLayout k (linkMark k o i) :=
  ((sameLayout_setMark ..).trans (sameLayout_joinHead ..)).trans (sameLayout_setHead ..)

theorem LinksOk.joinPrev (h : LinksOk k n) (hL : Layout k n) (ho : IsOrd o) {p q : Nat}
    (hp : LinkOk n o p) (hq : LinkOk n o q) : LinksOk (joinPrev k o i p q) n := by
  unfold Buddy.joinPrev
  split
  · rename_i hne
    exact h.setLnks hL ho (hp.lt hne) (h.pre o p ho (hp.lt hne)) hq
  · split
    · exact h.setHead ho hq
    · exact h

theorem LinksOk.joinNext (h : LinksOk k n) (hL : Layout k n) (ho : IsOrd o) {p q : Nat}
    (hp : LinkOk n o p) (hq : LinkOk n o q) : LinksOk (joinNext k o p q) n := by
  unfold Buddy.joinNext
  split
  · rename_i hne
    exact h.setLnks hL ho (hq.lt hne) hp (h.next o q ho (hq.lt hne))
  · exact h

theorem LinksOk.joinHead (h : LinksOk k n) (hL : Layout k n) (ho : IsOrd o) {x : Nat}
    (hi : i < nmarks n o) (hx : LinkOk n o x) : LinksOk (joinHead k o i x) n := by
  unfold Buddy.joinHead
  split
  · rename_i hne
    exact h.setLnks hL ho (hx.lt hne) (Or.inr hi) (h.next o x ho (hx.lt hne))
  · exact h

theorem LinksOk.unlinkMark (h : LinksOk k n) (hL : Layout k n) (ho : IsOrd o) (hi : i < nmarks n o) :
    LinksOk (unlinkMark k o i) n := by
  have hPrev := h.pre o i ho hi
  have hNext := h.next o i ho hi
  have hL1 := (sameLayout_joinPrev k o i (preLnk (k.getMark o i).lnks)
    (nextLnk (k.getMark o i).lnks)).layout hL
  have h2 := (h.joinPrev (i := i) hL ho hPrev hNext).joinNext hL1 ho hPrev hNext
  exact h2.setLnks ((sameLayout_joinNext ..).layout hL1) ho hi (linkOk_nil n o) (linkOk_nil n o)

theorem LinksOk.linkMark (h : LinksOk k n) (hL : Layout k n) (ho : IsOrd o) (hi : i < nmarks n o) :
    LinksOk (linkMark k o i) n := by
  have hHead := h.head o ho
  have h1 := h.setLnks hL ho hi (linkOk_nil n o) hHead
  exact (h1.joinHead ((sameLayout_setMark ..).layout hL) ho hi hHead).setHead ho (Or.inr hi)

end LinkRange

section Availability

def Avail (k : Kmem) (o id : Nat) : Prop := available (k.getMark o (id / 32)).bitmap id = true

variable {k : Kmem} {n o i : Nat}

@[simp] theorem setLnks_bitmap (k : Kmem) (o i : Nat) (l : BitVec 32) (m : Nat) :
    ((k.setLnks o i l).marks m).bitmap = (k.marks m).bitmap := by
  by_cases h : m = (k.ord o).offset + i
  · subst h
    simp [Kmem.setLnks, Kmem.getMark]
  · simp [Kmem.setLnks, Function.update_of_ne h]

structure SameBits (k k' : Kmem) : Prop where
  bits : ∀ m, (k'.marks m).bitmap = (k.marks m).bitmap

theorem SameBits.trans {k₁ k₂ k₃ : Kmem} (h : SameBits k₁ k₂) (h' : SameBits k₂ k₃) : SameBits k₁ k₃ :=
  ⟨fun m => (h'.bits m).trans (h.bits m)⟩

theorem SameBits.refl (k : Kmem) : SameBits k k := ⟨fun _ => rfl⟩

theorem SameBits.bitmap {k k' : Kmem} (h : SameBits k k') (hs : SameLayout k k') (o i : Nat) :
    (k'.getMark o i).bitmap = (k.getMark o i).bitmap := by
  rw [Kmem.getMark, Kmem.getMark, hs.offset]
  exact h.bits _

theorem sameBits_setLnks (k : Kmem) (o i : Nat) (l : BitVec 32) : SameBits k (k.setLnks o i l) :=
  ⟨setLnks_bitmap k o i l⟩

theorem sameBits_setHead (k : Kmem) (o h : Nat) : SameBits k (k.setHead o h) := ⟨fun _ => rfl⟩

theorem sameBits_joinPrev (k : Kmem) (o i p q : Nat) : SameBits k (joinPrev k o i p q) := by
  unfold joinPrev
  split
  · exact sameBits_setLnks ..
  · split
    · exact sameBits_setHead ..
    · exact .refl k

theorem sameBits_joinNext (k : Kmem) (o p q : Nat) : SameBits k (joinNext k o p q) := by
  unfold joinNext
  split
  · exact sameBits_setLnks ..
  · exact .refl k

theorem sameBits_joinHead (k : Kmem) (o i h : Nat) : SameBits k (joinHead k o i h) := by
  unfold joinHead
  split
  · exact sameBits_setLnks ..
  · exact .refl k

theorem sameBits_unlinkMark (k : Kmem) (o i : Nat) : SameBits k (unlinkMark k o i) :=
  ((sameBits_joinPrev ..).trans (sameBits_joinNext ..)).trans (sameBits_setLnks ..)

theorem sameBits_linkMark (k : Kmem) (o i : Nat) : SameBits k (linkMark k o i) :=
  ((sameBits_setLnks ..).trans (sameBits_joinHead ..)).trans (sameBits_setHead ..)

theorem shiftRight_five (id : Nat) : id >>> 5 = id / 32 := Nat.shiftRight_eq_div_pow id 5

theorem avail_setBitmap_of_ne {o' id' : Nat} (b : BitVec 32) (hL : Layout k n) (ho : IsOrd o)
    (hi : i < nmarks n o) (hb : HasBit n o' id') (hne : ¬(o' = o ∧ id' / 32 = i)) :
    Avail (k.setBitmap o i b) o' id' ↔ Avail k o' id' := by
  rw [Avail, Kmem.setBitmap, getMark_setMark_of_ne k o i _ hL ho hb.1 hi hb.2 hne, Avail]

theorem unmarkBlk_ok {k' : Kmem} {id : Nat} (hL : Layout k n) (hk : LinksOk k n) (hb : HasBit n o id)
    (h : unmarkBlk k o id = .ok k') :
    Avail k o id ∧ SameLayout k k' ∧ LinksOk k' n ∧
      ∀ o' id', HasBit n o' id' → (Avail k' o' id' ↔ Avail k o' id' ∧ ¬(o' = o ∧ id' = id)) := by
  obtain ⟨ho, hi⟩ := hb
  simp only [unmarkBlk, shiftRight_five] at h
  split at h
  · cases h
  rename_i hAvail
  have hAvail : Avail k o id := by simpa [Avail] using hAvail
  -- the state with the bit cleared, before the mark may leave the list
  generalize hb : (k.getMark o (id / 32)).bitmap &&& ~~~(1#32 <<< (id &&& 0x1F)) = b at h
  have hS1 : SameLayout k (k.setBitmap o (id / 32) b) := sameLayout_setMark ..
  have hK1 := hk.setBitmap hL ho hi b
  have hBits : ∀ o' id', HasBit n o' id' →
      (Avail (k.setBitmap o (id / 32) b) o' id' ↔ Avail k o' id' ∧ ¬(o' = o ∧ id' = id)) := by
    intro o' id' hb'
    by_cases hEq : o' = o ∧ id' / 32 = id / 32
    · obtain ⟨rfl, hEq⟩ := hEq
      rw [Avail, Avail, hEq, Kmem.setBitmap, getMark_setMark_self, ← hb, available_clear]
      simp only [Bool.and_eq_true, decide_eq_true_eq, true_and]
      refine and_congr_right fun _ => not_congr ⟨fun h => ?_, fun h => h ▸ rfl⟩
      omega
    · rw [avail_setBitmap_of_ne b hL ho hi hb' hEq]
      refine ⟨fun h => ⟨h, fun hSame => hEq ⟨hSame.1, hSame.2 ▸ rfl⟩⟩, fun h => h.1⟩
  split at h
  · obtain rfl := Except.ok.inj h
    have hS2 := sameLayout_unlinkMark (k.setBitmap o (id / 32) b) o (id / 32)
    refine ⟨hAvail, hS1.trans hS2, hK1.unlinkMark (hS1.layout hL) ho hi, ?_⟩
    intro o' id' hb'
    rw [← hBits o' id' hb', Avail, (sameBits_unlinkMark ..).bitmap hS2, Avail]
  · obtain rfl := Except.ok.inj h
    exact ⟨hAvail, hS1, hK1, hBits⟩

theorem markBlk_ok {k' : Kmem} {id : Nat} (hL : Layout k n) (hk : LinksOk k n) (hb : HasBit n o id)
    (h : markBlk k o id = .ok k') :
    ¬Avail k o id ∧ SameLayout k k' ∧ LinksOk k' n ∧
      ∀ o' id', HasBit n o' id' → (Avail k' o' id' ↔ Avail k o' id' ∨ (o' = o ∧ id' = id)) := by
  obtain ⟨ho, hi⟩ := hb
  simp only [markBlk, shiftRight_five] at h
  split at h
  · cases h
  rename_i hAvail
  generalize hb : (k.getMark o (id / 32)).bitmap ||| (1#32 <<< (id &&& 0x1F)) = b at h
  have hS1 : SameLayout k (k.setBitmap o (id / 32) b) := sameLayout_setMark ..
  have hK1 := hk.setBitmap hL ho hi b
  have hBits : ∀ o' id', HasBit n o' id' →
      (Avail (k.setBitmap o (id / 32) b) o' id' ↔ Avail k o' id' ∨ (o' = o ∧ id' = id)) := by
    intro o' id' hb'
    by_cases hEq : o' = o ∧ id' / 32 = id / 32
    · obtain ⟨rfl, hEq⟩ := hEq
      rw [Avail, Avail, hEq, Kmem.setBitmap, getMark_setMark_self, ← hb, available_set]
      simp only [Bool.or_eq_true, decide_eq_true_eq, true_and]
      refine or_congr_right ⟨fun h => ?_, fun h => h ▸ rfl⟩
      omega
    · rw [avail_setBitmap_of_ne b hL ho hi hb' hEq]
      refine ⟨Or.inl, fun h => h.resolve_right fun hSame => hEq ⟨hSame.1, hSame.2 ▸ rfl⟩⟩
  split at h
  · obtain rfl := Except.ok.inj h
    have hS2 := sameLayout_linkMark (k.setBitmap o (id / 32) b) o (id / 32)
    refine ⟨hAvail, hS1.trans hS2, hK1.linkMark (hS1.layout hL) ho hi, ?_⟩
    intro o' id' hb'
    rw [← hBits o' id' hb', Avail, (sameBits_linkMark ..).bitmap hS2, Avail]
  · obtain rfl := Except.ok.inj h
    exact ⟨hAvail, hS1, hK1, hBits⟩

end Availability

end Xv6Rpi.Buddy
