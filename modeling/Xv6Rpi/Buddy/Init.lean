import Xv6Rpi.Buddy.Blocks

/-! # The heap that kmem_init2 builds

The marks of all orders are laid out and emptied, and then every page of the heap is
freed at the largest order. The loop that frees them is given one rule, so that each
invariant of the heap only has to survive one more page.
-/

namespace Xv6Rpi.Buddy

open Dyadic

/-- A mark without available blocks, outside of every list. -/
def emptyMark : Mark := ⟨mkLnks nil nil, 0#32⟩

def fillEmpty (marks : Nat → Mark) (lo hi : Nat) : Nat → Mark :=
  fun x => if lo ≤ x ∧ x < hi then emptyMark else marks x

theorem fillEmpty_of_mem {marks : Nat → Mark} {lo hi x : Nat} (h : lo ≤ x ∧ x < hi) :
    fillEmpty marks lo hi x = emptyMark := if_pos h

theorem fillEmpty_of_notMem {marks : Nat → Mark} {lo hi x : Nat} (h : ¬(lo ≤ x ∧ x < hi)) :
    fillEmpty marks lo hi x = marks x := if_neg h

theorem fillEmpty_self (marks : Nat → Mark) (lo : Nat) : fillEmpty marks lo lo = marks := by
  funext x
  exact fillEmpty_of_notMem (by omega)

theorem fillEmpty_append (marks : Nat → Mark) {lo mid hi : Nat} (h : lo ≤ mid) (h' : mid ≤ hi) :
    fillEmpty (fillEmpty marks lo mid) mid hi = fillEmpty marks lo hi := by
  funext x
  by_cases hHigh : mid ≤ x ∧ x < hi
  · rw [fillEmpty_of_mem hHigh, fillEmpty_of_mem (by omega)]
  · rw [fillEmpty_of_notMem hHigh]
    by_cases hLow : lo ≤ x ∧ x < mid
    · rw [fillEmpty_of_mem hLow, fillEmpty_of_mem (by omega)]
    · rw [fillEmpty_of_notMem hLow, fillEmpty_of_notMem (by omega)]

theorem update_emptyMark (marks : Nat → Mark) (i : Nat) :
    Function.update marks i emptyMark = fillEmpty marks i (i + 1) := by
  funext x
  by_cases hx : x = i
  · rw [hx, Function.update_self, fillEmpty_of_mem (by omega)]
  · rw [Function.update_of_ne hx, fillEmpty_of_notMem (by omega)]

theorem initMarks_eq (k : Kmem) (o n : Nat) :
    initMarks k o n =
      { k with marks := fillEmpty k.marks (k.ord o).offset ((k.ord o).offset + n) } := by
  induction n with
  | zero => simp [initMarks, fillEmpty_self]
  | succ n ih =>
    have hStep : Function.update (fillEmpty k.marks (k.ord o).offset ((k.ord o).offset + n))
        ((k.ord o).offset + n) emptyMark =
        fillEmpty k.marks (k.ord o).offset ((k.ord o).offset + (n + 1)) := by
      rw [update_emptyMark, fillEmpty_append _ (by omega) (by omega), Nat.add_assoc]
    rw [initMarks, ih, ← hStep]
    rfl

/-- The orders below `i` laid out from mark `total` on, `m` marks for the largest. -/
def layOut (k : Kmem) (i m total : Nat) : Kmem :=
  { k with
    orders := fun j => if j < i then ⟨nil, total + m * (2 ^ (i - 1 - j) - 1)⟩ else k.orders j
    marks := fillEmpty k.marks total (total + m * (2 ^ i - 1)) }

theorem double_total (m total i : Nat) :
    total + m + 2 * m * (2 ^ i - 1) = total + m * (2 ^ (i + 1) - 1) := by
  have hPos := Nat.two_pow_pos i
  have hLe : 2 * m ≤ 2 * m * 2 ^ i := Nat.le_mul_of_pos_right _ hPos
  rw [Nat.mul_sub, Nat.mul_sub, Nat.pow_succ, show m * (2 ^ i * 2) = 2 * m * 2 ^ i by ring]
  omega

theorem layOut_succ (k : Kmem) (i m total : Nat) :
    layOut (initMarks { k with orders := Function.update k.orders i ⟨nil, total⟩ } (i + minOrd) m)
      i (2 * m) (total + m) = layOut k (i + 1) m total := by
  have hTop : m ≤ m * (2 ^ (i + 1) - 1) := Nat.le_mul_of_pos_right m (by
    have := Nat.one_lt_two_pow (n := i + 1) (by omega)
    omega)
  have hOrd : (Function.update k.orders i ⟨nil, total⟩ (i + minOrd - minOrd)).offset = total := by
    rw [Nat.add_sub_cancel, Function.update_self]
  rw [initMarks_eq]
  simp only [layOut, Kmem.ord, hOrd, double_total]
  congr 1
  · funext j
    rcases Nat.lt_trichotomy j i with hj | rfl | hj
    · rw [if_pos hj, if_pos (by omega), show i + 1 - 1 - j = i - 1 - j + 1 by omega]
    · simp
    · rw [if_neg (by omega), if_neg (by omega), Function.update_of_ne (by omega)]
  · exact fillEmpty_append _ (by omega) (by omega)

theorem initOrders_eq (i : Nat) (k : Kmem) (m total : Nat) (hTotal : total + m * (2 ^ i - 1) < 2 ^ 32)
    (hm : m * 2 ^ i < 2 ^ 32) :
    initOrders i k m total = (layOut k i m total, total + m * (2 ^ i - 1)) := by
  induction i generalizing k m total with
  | zero => simp [initOrders, layOut, fillEmpty_self]
  | succ i ih =>
    have hDouble : m * 2 ^ (i + 1) = 2 * m * 2 ^ i := by
      rw [Nat.pow_succ]
      ring
    have h2m : 2 * m ≤ 2 * m * 2 ^ i := Nat.le_mul_of_pos_right _ (Nat.two_pow_pos i)
    rw [hDouble] at hm
    rw [← double_total] at hTotal
    rw [initOrders, Nat.mod_eq_of_lt (by omega), Nat.mod_eq_of_lt (by omega),
      ih _ _ _ hTotal hm, layOut_succ, double_total]

section Loop

/-- The number of pages that `kmem_init2` frees. -/
def pages (startHeap stop : Nat) : Nat := (stop - startHeap + (2 ^ maxOrd - 1)) / 2 ^ maxOrd

theorem lt_pages_iff {S stop p : Nat} : p < pages S stop ↔ S + p * 2 ^ maxOrd < stop := by
  simp only [pages, maxOrd]
  omega

/-- The rule of the loop that frees the heap: `P p k` holds after `p` pages. -/
theorem freeHeap_rule (S stop : Nat) (P : Nat → Kmem → Prop) (hEnd : S + pages S stop * 2 ^ maxOrd < 2 ^ 32)
    (hStop : ∀ p k, P p k → k.stop = stop)
    (hStep : ∀ p k, P p k → p < pages S stop →
      ∃ k', kfree k (S + p * 2 ^ maxOrd) maxOrd = .ok k' ∧ P (p + 1) k')
    (fuel p : Nat) (k : Kmem) (hP : P p k) (hp : p ≤ pages S stop) (hFuel : pages S stop < p + fuel) :
    ∃ k', freeHeap fuel k (S + p * 2 ^ maxOrd) = .ok k' ∧ P (pages S stop) k' := by
  induction fuel generalizing p k with
  | zero => omega
  | succ fuel ih =>
    rw [freeHeap, hStop p k hP]
    by_cases hLt : p < pages S stop
    · obtain ⟨k', hk', hP'⟩ := hStep p k hP hLt
      have hNext : (S + p * 2 ^ maxOrd + 1 <<< maxOrd) % 2 ^ 32 = S + (p + 1) * 2 ^ maxOrd := by
        have hLe : (p + 1) * 2 ^ maxOrd ≤ pages S stop * 2 ^ maxOrd := Nat.mul_le_mul_right _ hLt
        rw [Nat.add_mul, Nat.one_mul] at hLe ⊢
        rw [Nat.shiftLeft_eq, Nat.one_mul, Nat.mod_eq_of_lt (by omega), Nat.add_assoc]
      rw [if_pos (lt_pages_iff.mp hLt), hk']
      simp only [hNext]
      exact ih (p + 1) k' hP' hLt (by omega)
    · obtain rfl : p = pages S stop := by omega
      rw [if_neg (fun h => hLt (lt_pages_iff.mpr h))]
      exact ⟨k, rfl, hP⟩

end Loop

section Build

/-- A region that `kmem_init2` can lay out: neither the marks nor the pages wrap around
the address space. -/
structure Region (vstart vend : Nat) : Prop where
  startLt : vstart < 2 ^ 32
  stopLe : vend ≤ 2 ^ 32 - 2 ^ maxOrd
  noWrap : vstart + numMarks vstart vend * (2 ^ nOrd - 1) * 8 + (2 ^ maxOrd - 1) < 2 ^ 32

def heapStart (vstart vend : Nat) : Nat :=
  (vstart + numMarks vstart vend * (2 ^ nOrd - 1) * 8 + (2 ^ maxOrd - 1)) / 2 ^ maxOrd * 2 ^ maxOrd

/-- The state of `kmem_init2` before the pages are freed. -/
def emptyHeap (k : Kmem) (vstart vend : Nat) : Kmem :=
  { layOut { k with start := vstart, stop := vend } nOrd (numMarks vstart vend) 0 with
    startHeap := heapStart vstart vend }

theorem numMarks_le (vstart vend : Nat) : numMarks vstart vend ≤ 2 ^ 15 := by
  have hLt : (vend + 2 ^ 32 - vstart) % 2 ^ 32 < 2 ^ 32 := Nat.mod_lt _ (by decide)
  rw [numMarks, Nat.shiftRight_eq_div_pow]
  simp only [maxOrd]
  omega

variable {vstart vend : Nat}

theorem kmemInit2_eq (k : Kmem)
    (hWrap : vstart + numMarks vstart vend * (2 ^ nOrd - 1) * 8 + (2 ^ maxOrd - 1) < 2 ^ 32) :
    kmemInit2 k vstart vend =
      freeHeap maxTurns (emptyHeap k vstart vend) (heapStart vstart vend) := by
  have hn := numMarks_le vstart vend
  have hStart : alignUp (vstart + numMarks vstart vend * (2 ^ nOrd - 1) * 8) (1 <<< maxOrd) =
      heapStart vstart vend := by
    rw [← Nat.add_sub_assoc (Nat.one_le_two_pow)] at hWrap
    rw [Nat.shiftLeft_eq, Nat.one_mul, alignUp_eq _ _ (by decide) hWrap, heapStart,
      Nat.add_sub_assoc (Nat.one_le_two_pow)]
  rw [kmemInit2, initOrders_eq _ _ _ _ (by simp only [nOrd, maxOrd, minOrd]; omega)
    (by simp only [nOrd, maxOrd, minOrd]; omega)]
  simp only [Nat.zero_add, hStart, emptyHeap]

theorem emptyHeap_ord (k : Kmem) {o : Nat} (ho : IsOrd o) :
    (emptyHeap k vstart vend).ord o = ⟨nil, numMarks vstart vend * (2 ^ (maxOrd - o) - 1)⟩ := by
  obtain ⟨h1, h2⟩ := ho
  have hlt : o - minOrd < nOrd := by
    simp only [nOrd, maxOrd, minOrd] at *
    omega
  have hsub : nOrd - 1 - (o - minOrd) = maxOrd - o := by
    simp only [nOrd, maxOrd, minOrd] at *
    omega
  simp only [emptyHeap, layOut, Kmem.ord]
  rw [if_pos hlt, hsub, Nat.zero_add]

theorem layout_emptyHeap (k : Kmem) (h : Region vstart vend) :
    Layout (emptyHeap k vstart vend) (numMarks vstart vend) where
  pos := Nat.succ_pos _
  offset o ho := by rw [emptyHeap_ord k ho]
  aligned := Nat.mul_mod_left _ _
  heapPos := by
    have : 0 < numMarks vstart vend := Nat.succ_pos _
    simp only [emptyHeap, heapStart, nOrd, maxOrd, minOrd]
    omega
  heapLt := by
    have := h.noWrap
    simp only [emptyHeap, heapStart, nOrd, maxOrd, minOrd] at *
    omega
  stopLt := by
    have := h.stopLe
    simp only [emptyHeap, layOut, maxOrd] at *
    omega
  cover := by
    have h1 := h.startLt
    have h2 := h.stopLe
    have hLen : vend - vstart ≤ numMarks vstart vend * 2 ^ (maxOrd + 5) := by
      rw [numMarks, Nat.shiftRight_eq_div_pow]
      simp only [maxOrd] at *
      omega
    have hHeap : vstart ≤ heapStart vstart vend := by
      simp only [heapStart, maxOrd]
      omega
    calc vend - heapStart vstart vend ≤ vend - vstart := Nat.sub_le_sub_left hHeap vend
      _ ≤ numMarks vstart vend * 2 ^ (maxOrd + 5) := hLen

/-- After `p` pages: exactly the first `p` blocks of the largest order are available. -/
structure Filled (k : Kmem) (n p : Nat) : Prop where
  layout : Layout k n
  links : LinksOk k n
  avail : ∀ o id, HasBit n o id → (Avail k o id ↔ o = maxOrd ∧ id < p)

theorem emptyHeap_getMark (k : Kmem) {o i : Nat} (ho : IsOrd o) (hi : i < nmarks (numMarks vstart vend) o) :
    (emptyHeap k vstart vend).getMark o i = emptyMark := by
  rw [Kmem.getMark, emptyHeap_ord k ho]
  apply fillEmpty_of_mem
  refine ⟨Nat.zero_le _, ?_⟩
  -- the marks of an order end where those of the next smaller one begin
  have hPow : 2 ^ (maxOrd - o) ≤ 2 ^ (nOrd - 1) := by
    apply Nat.pow_le_pow_right (by decide)
    have := ho.1
    simp only [nOrd, maxOrd, minOrd] at *
    omega
  have hEnd : numMarks vstart vend * (2 ^ (maxOrd - o) - 1) + nmarks (numMarks vstart vend) o ≤
      numMarks vstart vend * (2 ^ nOrd - 1) := by
    rw [nmarks, ← Nat.mul_add]
    apply Nat.mul_le_mul_left
    have : 2 ^ nOrd = 2 * 2 ^ (nOrd - 1) := by decide
    omega
  simp only [Nat.zero_add]
  omega

theorem filled_emptyHeap (k : Kmem) (h : Region vstart vend) :
    Filled (emptyHeap k vstart vend) (numMarks vstart vend) 0 where
  layout := layout_emptyHeap k h
  links :=
    { head := fun o ho => by
        rw [emptyHeap_ord k ho]
        exact linkOk_nil _ _
      pre := fun o i ho hi => by
        rw [emptyHeap_getMark k ho hi]
        exact linkOk_nil _ _
      next := fun o i ho hi => by
        rw [emptyHeap_getMark k ho hi]
        exact linkOk_nil _ _ }
  avail o id hb := by
    rw [Avail, emptyHeap_getMark k hb.1 hb.2]
    simp [emptyMark, available]

theorem markBlk_isOk {k : Kmem} {o id : Nat} (h : ¬Avail k o id) : ∃ k', markBlk k o id = .ok k' := by
  simp only [markBlk, shiftRight_five]
  rw [Avail] at h
  rw [if_neg h]
  split
  · exact ⟨_, rfl⟩
  · exact ⟨_, rfl⟩

theorem unmarkBlk_isOk {k : Kmem} {o id : Nat} (h : Avail k o id) :
    ∃ k', unmarkBlk k o id = .ok k' := by
  simp only [unmarkBlk, shiftRight_five]
  rw [Avail] at h
  rw [h]
  simp only [Bool.not_true, Bool.false_eq_true, if_false]
  split
  · exact ⟨_, rfl⟩
  · exact ⟨_, rfl⟩

theorem isOrd_maxOrd : IsOrd maxOrd := ⟨by decide, le_rfl⟩

theorem kfree_eq {k : Kmem} {n o : Nat} {b : Nat × Nat} (hL : Layout k n) (ho : b.1 = o) (hb : InHeap k b) :
    kfree k (addr k b) o = _kfree k (addr k b) o := by
  subst ho
  have hMask : addr k b &&& ((1 <<< b.1) - 1) = 0 := by
    rw [Nat.shiftLeft_eq, Nat.one_mul, Nat.and_two_pow_sub_one_eq_mod, addr_aligned hL hb.1]
  have hLow := hb.1.1
  have hHigh := hb.1.2
  rw [kfree, if_neg]
  push Not
  exact ⟨hHigh, hLow, hMask⟩

theorem kfree_maxOrd {k : Kmem} {n p : Nat} (hL : Layout k n) (hb : InHeap k (maxOrd, p))
    (hA : ¬Avail k maxOrd p) : kfree k (addr k (maxOrd, p)) maxOrd = markBlk k maxOrd p := by
  rw [kfree_eq hL rfl hb, _kfree]
  simp only [mem2blkid_addr hL hb, shiftRight_five]
  rw [Avail] at hA
  rw [if_neg hA, if_neg (Nat.lt_irrefl maxOrd)]
  split <;> rfl

theorem inHeap_of_lt_pages {k : Kmem} {p : Nat} (h : p < pages k.startHeap k.stop) :
    InHeap k (maxOrd, p) := by
  refine ⟨isOrd_maxOrd, ?_⟩
  exact Nat.mul_le_mul_right _ h

theorem Filled.step {k : Kmem} {n p : Nat} (h : Filled k n p) (hp : p < pages k.startHeap k.stop) :
    ∃ k', kfree k (k.startHeap + p * 2 ^ maxOrd) maxOrd = .ok k' ∧ SameLayout k k' ∧ Filled k' n (p + 1) := by
  have hIn := inHeap_of_lt_pages hp
  have hBit := hIn.hasBit h.layout
  have hNot : ¬Avail k maxOrd p := fun hA => Nat.lt_irrefl p ((h.avail _ _ hBit).mp hA).2
  obtain ⟨k', hk'⟩ := markBlk_isOk hNot
  obtain ⟨_, hS, hLinks, hBits⟩ := markBlk_ok h.layout h.links hBit hk'
  refine ⟨k', (kfree_maxOrd h.layout hIn hNot).trans hk', hS, hS.layout h.layout, hLinks, ?_⟩
  intro o id hb
  rw [hBits o id hb, h.avail o id hb]
  omega

theorem heapEnd_lt (h : Region vstart vend) :
    heapStart vstart vend + pages (heapStart vstart vend) vend * 2 ^ maxOrd < 2 ^ 32 := by
  have h1 := h.noWrap
  have h2 := h.stopLe
  simp only [heapStart, pages, nOrd, maxOrd, minOrd] at *
  omega

/-- `kmem_init2` runs to its end, whatever further property of the heap a page keeps. -/
theorem kmemInit2_rule (k : Kmem) (h : Region vstart vend) (P : Nat → Kmem → Prop)
    (hP : P 0 (emptyHeap k vstart vend))
    (hStep : ∀ p k', Filled k' (numMarks vstart vend) p → k'.startHeap = heapStart vstart vend →
      k'.stop = vend → p < pages (heapStart vstart vend) vend → P p k' →
      ∀ k'', markBlk k' maxOrd p = .ok k'' → P (p + 1) k'') :
    ∃ k', kmemInit2 k vstart vend = .ok k' ∧ k'.start = vstart ∧ k'.startHeap = heapStart vstart vend ∧
      k'.stop = vend ∧ Filled k' (numMarks vstart vend) (pages (heapStart vstart vend) vend) ∧
      P (pages (heapStart vstart vend) vend) k' := by
  rw [kmemInit2_eq k h.noWrap]
  have hLoop := freeHeap_rule (heapStart vstart vend) vend
    (fun p k' => k'.start = vstart ∧ k'.startHeap = heapStart vstart vend ∧ k'.stop = vend ∧
      Filled k' (numMarks vstart vend) p ∧ P p k')
    (heapEnd_lt h) (fun p k' hk' => hk'.2.2.1) ?_ maxTurns 0 (emptyHeap k vstart vend)
    ⟨rfl, rfl, rfl, filled_emptyHeap k h, hP⟩ (Nat.zero_le _) ?_
  · rwa [Nat.zero_mul, Nat.add_zero] at hLoop
  · rintro p k' ⟨h1, h2, h3, hF, hPk⟩ hp
    have hp' : p < pages k'.startHeap k'.stop := by rwa [h2, h3]
    obtain ⟨k'', hk'', hS, hF'⟩ := hF.step hp'
    have hIn := inHeap_of_lt_pages hp'
    have hNot : ¬Avail k' maxOrd p := fun hA =>
      Nat.lt_irrefl p ((hF.avail _ _ (hIn.hasBit hF.layout)).mp hA).2
    have hMark : markBlk k' maxOrd p = .ok k'' := (kfree_maxOrd hF.layout hIn hNot).symm.trans hk''
    rw [h2] at hk''
    exact ⟨k'', hk'', hS.start.trans h1, hS.startHeap.trans h2, hS.stop.trans h3, hF',
      hStep p k' hF h2 h3 hp hPk k'' hMark⟩
  · have := heapEnd_lt h
    simp only [maxOrd, maxTurns] at *
    omega

theorem Filled.inv {k : Kmem} {n : Nat} (h : Filled k n (pages k.startHeap k.stop)) : Inv k n ∅ := by
  have hMem : ∀ b ∈ availSet k n, b.1 = maxOrd ∧ b.2 < pages k.startHeap k.stop :=
    fun b hb => (h.avail b.1 b.2 hb.1).mp hb.2
  refine ⟨h.layout, h.links, ?_, ?_, Set.disjoint_empty _⟩
  · intro b hb
    rw [Set.union_empty] at hb
    obtain ⟨ho, hp⟩ := hMem b hb
    have := inHeap_of_lt_pages hp
    rwa [← ho] at this
  · rw [Set.union_empty]
    intro a ha b hb hne
    obtain ⟨hao, _⟩ := hMem a ha
    obtain ⟨hbo, _⟩ := hMem b hb
    have hNum : a.2 ≠ b.2 := fun hEq => hne (Prod.ext (hao.trans hbo.symm) hEq)
    have hDisj := disjoint_of_same_order (o := maxOrd) hNum
    rwa [show a = (maxOrd, a.2) from Prod.ext hao rfl, show b = (maxOrd, b.2) from Prod.ext hbo rfl]

end Build

end Xv6Rpi.Buddy
