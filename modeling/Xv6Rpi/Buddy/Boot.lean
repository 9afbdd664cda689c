import Xv6Rpi.Buddy.FreeLists

/-! # The heap of the running kernel

`kmain` gives `kmem_init2` the memory from the initial kernel map up to the end of the
RAM. Its smallest order has more marks than a 16-bit link can tell apart.
-/

namespace Xv6Rpi.Buddy

open DLinked

def bootStart : Nat := p2v initKernmap
def bootStop : Nat := p2v paStop

theorem region_boot : Region bootStart bootStop := ⟨by decide, by decide, by decide +kernel⟩

section Pages

/-- The bitmap of a mark whose first `j` blocks are available. -/
def lowBits (j : Nat) : BitVec 32 := BitVec.ofNat 32 (2 ^ j - 1)

def pageMark (p i : Nat) : Mark :=
  if 32 * i < p then
    ⟨mkLnks (if 32 * (i + 1) < p then i + 1 else nil) (if i = 0 then nil else i - 1),
      lowBits (min 32 (p - 32 * i))⟩
  else emptyMark

def pagesFreed (k : Kmem) (n p : Nat) : Kmem :=
  { k with
    orders := Function.update k.orders (maxOrd - minOrd) ⟨if p = 0 then nil else (p - 1) / 32, 0⟩
    marks := fun x => if x < n then pageMark p x else k.marks x }

theorem lowBits_succ {j : Nat} (hj : j < 32) :
    lowBits j ||| (1#32 <<< j) = lowBits (j + 1) := by
  have hAll : ∀ j : Fin 32, lowBits j.val ||| (1#32 <<< j.val) = lowBits (j.val + 1) := by decide
  exact hAll ⟨j, hj⟩

theorem lowBits_available {j : Nat} (hj : j < 32) (p : Nat) (hp : p % 32 = j) :
    available (lowBits j) p = false := by
  have hAll : ∀ j : Fin 32, (lowBits j.val &&& (1#32 <<< j.val) != 0#32) = false := by decide
  have hAnd : p &&& 0x1F = j := by
    rw [show 0x1F = 2 ^ 5 - 1 by rfl, Nat.and_two_pow_sub_one_eq_mod]
    exact hp
  rw [available, hAnd]
  exact hAll ⟨j, hj⟩

variable {k : Kmem} {n p : Nat}

theorem pagesFreed_zero (hOrd : k.orders (maxOrd - minOrd) = ⟨nil, 0⟩)
    (hMarks : ∀ x < n, k.marks x = emptyMark) : pagesFreed k n 0 = k := by
  have hOrders : Function.update k.orders (maxOrd - minOrd) ⟨nil, 0⟩ = k.orders := by
    rw [← hOrd, Function.update_eq_self]
  have hEq : (fun x => if x < n then pageMark 0 x else k.marks x) = k.marks := by
    funext x
    by_cases hx : x < n
    · rw [if_pos hx, hMarks x hx, pageMark, if_neg (Nat.not_lt_zero _)]
    · rw [if_neg hx]
  simp only [pagesFreed, if_true, hOrders, hEq]

theorem pagesFreed_ord : (pagesFreed k n p).ord maxOrd = ⟨if p = 0 then nil else (p - 1) / 32, 0⟩ := by
  simp only [Kmem.ord, pagesFreed, Function.update_self]

theorem pagesFreed_getMark {i : Nat} (hi : i < n) : (pagesFreed k n p).getMark maxOrd i = pageMark p i := by
  rw [Kmem.getMark, pagesFreed_ord]
  simp only [Nat.zero_add, pagesFreed, if_pos hi]

theorem pageMark_succ {i : Nat} (hMod : p % 32 ≠ 0) :
    pageMark (p + 1) i =
      if i = p / 32 then ⟨(pageMark p i).lnks, (pageMark p i).bitmap ||| (1#32 <<< (p % 32))⟩
      else pageMark p i := by
  by_cases hi : i = p / 32
  · have h1 : 32 * i < p := by omega
    have h2 : min 32 (p + 1 - 32 * i) = p % 32 + 1 := by omega
    have h3 : min 32 (p - 32 * i) = p % 32 := by omega
    have h4 : ¬32 * (i + 1) < p := by omega
    have h5 : ¬32 * (i + 1) < p + 1 := by omega
    rw [if_pos hi, pageMark, pageMark, if_pos h1, if_pos (by omega), if_neg h4, if_neg h5, h2, h3,
      lowBits_succ (Nat.mod_lt _ (by decide))]
  · rw [if_neg hi, pageMark, pageMark]
    by_cases hlt : 32 * i < p
    · rw [if_pos hlt, if_pos (by omega), show min 32 (p + 1 - 32 * i) = min 32 (p - 32 * i) by omega]
      simp only [show 32 * (i + 1) < p + 1 ↔ 32 * (i + 1) < p by omega]
    · rw [if_neg hlt, if_neg (by omega)]

theorem pageMark_first {i : Nat} (hMod : p % 32 = 0) :
    pageMark (p + 1) i =
      if i = p / 32 then ⟨mkLnks nil (if p = 0 then nil else (p - 1) / 32), 0#32 ||| (1#32 <<< 0)⟩
      else if p ≠ 0 ∧ i = (p - 1) / 32 then ⟨mkLnks (p / 32) (if i = 0 then nil else i - 1), lowBits 32⟩
      else pageMark p i := by
  by_cases hi : i = p / 32
  · have h1 : 32 * i < p + 1 := by omega
    have h2 : min 32 (p + 1 - 32 * i) = 1 := by omega
    have h3 : ¬32 * (i + 1) < p + 1 := by omega
    have hNext : (if i = 0 then nil else i - 1) = if p = 0 then nil else (p - 1) / 32 := by
      by_cases h0 : p = 0
      · rw [if_pos h0, if_pos (by omega)]
      · rw [if_neg h0, if_neg (by omega)]
        omega
    rw [if_pos hi, pageMark, if_pos h1, if_neg h3, h2, hNext]
    rfl
  · rw [if_neg hi]
    by_cases hPrev : p ≠ 0 ∧ i = (p - 1) / 32
    · have h2 : min 32 (p + 1 - 32 * i) = 32 := by omega
      rw [if_pos hPrev, pageMark, if_pos (by omega), if_pos (by omega), h2,
        show i + 1 = p / 32 by omega]
    · rw [if_neg hPrev, pageMark, pageMark]
      by_cases hlt : 32 * i < p
      · rw [if_pos hlt, if_pos (by omega), show min 32 (p + 1 - 32 * i) = min 32 (p - 32 * i) by omega]
        simp only [show 32 * (i + 1) < p + 1 ↔ 32 * (i + 1) < p by omega]
      · rw [if_neg hlt, if_neg (by omega)]

theorem pageMark_lnks_last {i : Nat} (hi : p = 32 * (i + 1)) :
    pageMark p i = ⟨mkLnks nil (if i = 0 then nil else i - 1), lowBits 32⟩ := by
  rw [pageMark, if_pos (by omega), if_neg (by omega), show min 32 (p - 32 * i) = 32 by omega]

theorem available_pageMark : available (pageMark p (p / 32)).bitmap p = false := by
  rw [pageMark]
  by_cases hlt : 32 * (p / 32) < p
  · rw [if_pos hlt, show min 32 (p - 32 * (p / 32)) = p % 32 by omega]
    exact lowBits_available (Nat.mod_lt _ (by decide)) p rfl
  · rw [if_neg hlt]
    simp [emptyMark, available]

theorem pageMark_bitmap_eq_zero : (pageMark p (p / 32)).bitmap = 0#32 ↔ p % 32 = 0 := by
  have hAll : ∀ j : Fin 32, lowBits j.val = 0#32 → j.val = 0 := by decide
  rw [pageMark]
  by_cases hlt : 32 * (p / 32) < p
  · rw [if_pos hlt, show min 32 (p - 32 * (p / 32)) = p % 32 by omega]
    constructor
    · exact hAll ⟨p % 32, Nat.mod_lt _ (by decide)⟩
    · intro h
      omega
  · rw [if_neg hlt]
    simp only [emptyMark, true_iff]
    omega

theorem pagesFreed_setMark (i : Nat) (m : Mark) :
    (pagesFreed k n p).setMark maxOrd i m =
      { pagesFreed k n p with marks := Function.update (pagesFreed k n p).marks i m } := by
  rw [Kmem.setMark, pagesFreed_ord]
  simp only [Nat.zero_add]

theorem setBitmap_pagesFreed (hp : p / 32 < n) (hMod : p % 32 ≠ 0) :
    (pagesFreed k n p).setBitmap maxOrd (p / 32)
      ((pageMark p (p / 32)).bitmap ||| (1#32 <<< (p % 32))) = pagesFreed k n (p + 1) := by
  rw [Kmem.setBitmap, pagesFreed_setMark, pagesFreed_getMark hp]
  have hHead : (if p = 0 then nil else (p - 1) / 32) = p / 32 := by
    rw [if_neg (by omega)]
    omega
  ext1
  · rfl
  · rfl
  · rfl
  · simp only [pagesFreed, hHead, Nat.succ_ne_zero, if_false, Nat.add_sub_cancel]
  · funext x
    by_cases hx : x = p / 32
    · simp only [hx, Function.update_self, pagesFreed, if_pos hp, pageMark_succ hMod, if_true]
    · simp only [Function.update_of_ne hx, pagesFreed, pageMark_succ hMod, if_neg hx]

theorem linkMark_marks {i : Nat} (hOff : (k.ord maxOrd).offset = 0) :
    (linkMark k maxOrd i).marks = fun x =>
      if (k.ord maxOrd).head ≠ nil ∧ x = (k.ord maxOrd).head then
        { Function.update k.marks i { k.marks i with lnks := mkLnks nil (k.ord maxOrd).head } x with
          lnks := mkLnks i (nextLnk
            (Function.update k.marks i { k.marks i with lnks := mkLnks nil (k.ord maxOrd).head } x).lnks) }
      else Function.update k.marks i { k.marks i with lnks := mkLnks nil (k.ord maxOrd).head } x := by
  funext x
  simp only [linkMark, joinHead, setHead_marks, Kmem.setLnks, Kmem.getMark, setMark_ord, hOff, Nat.zero_add]
  by_cases hHead : (k.ord maxOrd).head = nil
  · simp only [hHead, ne_eq, not_true_eq_false, if_false, false_and, setMark_marks, hOff, Nat.zero_add]
  · by_cases hx : x = (k.ord maxOrd).head
    · simp only [ne_eq, hHead, not_false_eq_true, if_true, hx, and_self, setMark_marks, setMark_ord, hOff,
        Nat.zero_add, Function.update_self]
    · simp only [ne_eq, hHead, not_false_eq_true, if_true, hx, and_false, if_false, setMark_marks,
        setMark_ord, hOff, Nat.zero_add, Function.update_of_ne hx]

theorem linkMark_pagesFreed (hp : p / 32 < n) (hn : n ≤ nil) (hMod : p % 32 = 0) :
    linkMark ((pagesFreed k n p).setBitmap maxOrd (p / 32)
      ((pageMark p (p / 32)).bitmap ||| (1#32 <<< (p % 32)))) maxOrd (p / 32) = pagesFreed k n (p + 1) := by
  have hEmpty : pageMark p (p / 32) = emptyMark := by
    rw [pageMark, if_neg (by omega)]
  have hS := (sameLayout_setMark (pagesFreed k n p) maxOrd (p / 32) _).trans (sameLayout_linkMark
    ((pagesFreed k n p).setBitmap maxOrd (p / 32)
      ((pageMark p (p / 32)).bitmap ||| (1#32 <<< (p % 32)))) maxOrd (p / 32))
  ext1
  · exact hS.start
  · exact hS.startHeap
  · exact hS.stop
  · have hJoin : ∀ (k : Kmem) (o i h : Nat), (joinHead k o i h).orders = k.orders := by
      intro k o i h
      unfold joinHead
      split <;> rfl
    simp only [linkMark, Kmem.setHead, Kmem.ord, hJoin, Kmem.setLnks, Kmem.setBitmap, Kmem.setMark,
      pagesFreed, Function.update_self, Function.update_idem, Nat.succ_ne_zero, if_false,
      Nat.add_sub_cancel]
  · rw [linkMark_marks (by rw [setBitmap_ord, pagesFreed_ord])]
    funext x
    rw [setBitmap_ord, pagesFreed_ord]
    simp only [Kmem.setBitmap, pagesFreed_setMark, pagesFreed_getMark hp,
      hEmpty, Function.update_self, Function.update_idem, hMod]
    by_cases hx : x = p / 32
    · have hNot : ¬((if p = 0 then nil else (p - 1) / 32) ≠ nil ∧ x = if p = 0 then nil else (p - 1) / 32) := by
        rintro ⟨hHead, hEq⟩
        split at hEq
        · exact hHead (if_pos ‹p = 0›)
        · omega
      rw [if_neg hNot, hx, Function.update_self]
      simp only [pagesFreed, if_pos hp, pageMark_first hMod, if_true, emptyMark]
    · rw [Function.update_of_ne hx]
      by_cases hPrev : p ≠ 0 ∧ x = (p - 1) / 32
      · have hNil : (p - 1) / 32 ≠ nil := by omega
        have hLast : pageMark p x = ⟨mkLnks nil (if x = 0 then nil else x - 1), lowBits 32⟩ :=
          pageMark_lnks_last (by omega)
        have hNext : (if x = 0 then nil else x - 1) % 2 ^ 16 = if x = 0 then nil else x - 1 := by
          apply Nat.mod_eq_of_lt
          simp only [nil] at *
          split <;> omega
        rw [if_neg hPrev.1, if_pos ⟨hNil, hPrev.2⟩]
        simp only [pagesFreed, if_pos (show x < n by omega), hLast, nextLnk_mkLnks, hNext,
          pageMark_first hMod, if_neg hx, if_pos hPrev]
      · have hNot : ¬((if p = 0 then nil else (p - 1) / 32) ≠ nil ∧ x = if p = 0 then nil else (p - 1) / 32) := by
          rintro ⟨hHead, hEq⟩
          split at hEq
          · exact hHead (if_pos ‹p = 0›)
          · exact hPrev ⟨‹¬p = 0›, hEq⟩
        rw [if_neg hNot]
        simp only [pagesFreed, pageMark_first hMod, if_neg hx, if_neg hPrev]

theorem markBlk_pagesFreed (hp : p / 32 < n) (hn : n ≤ nil) :
    markBlk (pagesFreed k n p) maxOrd p = .ok (pagesFreed k n (p + 1)) := by
  have hMask : p &&& 0x1F = p % 32 := Nat.and_two_pow_sub_one_eq_mod p 5
  simp only [markBlk, shiftRight_five, pagesFreed_getMark hp, available_pageMark, Bool.false_eq_true,
    if_false, pageMark_bitmap_eq_zero, hMask]
  by_cases hMod : p % 32 = 0
  · rw [if_pos hMod, linkMark_pagesFreed hp hn hMod]
  · rw [if_neg hMod, setBitmap_pagesFreed hp hMod]

/-- The heap that `kmem_init2` leaves behind, in closed form. -/
def freshHeap (k : Kmem) (vstart vend : Nat) : Kmem :=
  pagesFreed (emptyHeap k vstart vend) (numMarks vstart vend) (pages (heapStart vstart vend) vend)

theorem kmemInit2_eq_freshHeap {vstart vend : Nat} (k : Kmem) (h : Region vstart vend) :
    kmemInit2 k vstart vend = .ok (freshHeap k vstart vend) := by
  have hZero : pagesFreed (emptyHeap k vstart vend) (numMarks vstart vend) 0 =
      emptyHeap k vstart vend := by
    apply pagesFreed_zero
    · exact (emptyHeap_ord k isOrd_maxOrd).trans (by simp)
    · intro x hx
      have hMark : (emptyHeap k vstart vend).getMark maxOrd x = emptyMark :=
        emptyHeap_getMark k isOrd_maxOrd (by simpa [nmarks] using hx)
      rw [Kmem.getMark, emptyHeap_ord k isOrd_maxOrd] at hMark
      simpa using hMark
  obtain ⟨k', hk', _, _, _, _, rfl⟩ := kmemInit2_rule k h
    (fun p k' => k' = pagesFreed (emptyHeap k vstart vend) (numMarks vstart vend) p) hZero.symm (by
      rintro p _ hF hStart hStop hp rfl k'' hk''
      have hIn := inHeap_of_lt_pages
        (k := pagesFreed (emptyHeap k vstart vend) (numMarks vstart vend) p) (p := p) (by rwa [hStart, hStop])
      have hLt := (hIn.hasBit hF.layout).2
      have hn := numMarks_le vstart vend
      rw [markBlk_pagesFreed (by simpa [nmarks] using hLt) (by simp only [nil]; omega)] at hk''
      exact (Except.ok.inj hk'').symm)
  exact hk'

end Pages

section Boot

/-- A call that is allowed and stores no index that the links would cut off. -/
def SafeStep (s s' : Heap) : Prop := ∃ c, Allowed s c ∧ LinkSafe s c ∧ exec s c = .ok s'

theorem nmarks_boot_le {o : Nat} (hlt : minOrd < o) :
    nmarks (numMarks bootStart bootStop) o ≤ nil := by
  have hNum : numMarks bootStart bootStop = 1529 := by decide +kernel
  have hPow : 2 ^ (maxOrd - o) ≤ 2 ^ (maxOrd - (minOrd + 1)) :=
    Nat.pow_le_pow_right (by decide) (Nat.sub_le_sub_left hlt maxOrd)
  simp only [nmarks, hNum, nil, maxOrd, minOrd] at *
  omega

/-- In the kernel's heap the lists stay intact, and no call panics, for as long as no
call puts a mark of the smallest order into a list whose links cannot name it. -/
theorem boot_lists_intact {k₀ k : Kmem} (hk : kmemInit2 k₀ bootStart bootStop = .ok k) {s : Heap}
    (hRun : Relation.ReflTransGen SafeStep ⟨k, []⟩ s) :
    (∀ o, IsOrd o → ∃ l : List Nat, l.Nodup ∧
      (∀ i, i ∈ l ↔ i < nmarks (numMarks bootStart bootStop) o ∧ (s.kmem.getMark o i).bitmap ≠ 0#32) ∧
      Linked nil (fun i => preLnk (s.kmem.getMark o i).lnks) (fun i => nextLnk (s.kmem.getMark o i).lnks)
        nil (s.kmem.ord o).head l) ∧
    ∀ c, Allowed s c → LinkSafe s c → ∃ s', exec s c = .ok s' := by
  have hAll := lists_run region_boot LinkSafe (fun _ _ => nmarks_boot_le) (fun _ _ h => Or.inr h) hk hRun
  refine ⟨fun o ho => ?_, hAll.2⟩
  obtain ⟨l, hl⟩ := hAll.1 o ho
  exact ⟨l, hl.nodup, hl.mem, hl.chain⟩

theorem linkSafe_fresh : LinkSafe ⟨freshHeap zeroKmem bootStart bootStop, []⟩ (.kmalloc 6) := by
  intro _ _ id hId
  have hNext : nextBlk (freshHeap zeroKmem bootStart bootStop) (minOrd + 1) = some 1552384 := by
    decide +kernel
  obtain rfl : 1552384 = id := Option.some.inj (hNext.symm.trans hId)
  decide

theorem safeRun {s s' : Heap} {calls : List Call} (hSafe : ∀ c ∈ calls, ∀ s, LinkSafe s c)
    (h : execAll s calls = some s') : Relation.ReflTransGen SafeStep s s' := by
  induction calls generalizing s with
  | nil =>
    obtain rfl := Option.some.inj h
    exact .refl
  | cons c cs ih =>
    obtain ⟨hFirst, hOthers⟩ := List.forall_mem_cons.mp hSafe
    rw [execAll] at h
    split at h
    · rename_i hAllowed
      obtain ⟨s₁, hStep, hRest⟩ := Option.bind_eq_some_iff.mp h
      exact .head ⟨c, hAllowed, hFirst s, toOption_eq_some.mp hStep⟩ (ih hOthers hRest)
    · cases h

/-- A block of the smallest order is taken, and one of another order is taken and freed: the mark
that is left of the first can be reached from its list, and that block can be freed, too. -/
theorem boot_lists_intact_two_blocks :
    ∃ k s, kmemInit2 zeroKmem bootStart bootStop = .ok k ∧
      execAll ⟨k, []⟩ [.kmalloc 6, .kmalloc 10, .kfree 0x8BFFC400 10] = some s ∧
      (∃ l : List Nat, 97024 ∈ l ∧ l.Nodup ∧
        Linked nil (fun i => preLnk (s.kmem.getMark 6 i).lnks) (fun i => nextLnk (s.kmem.getMark 6 i).lnks)
          nil (s.kmem.ord 6).head l) ∧
      ∃ s', exec s (.kfree 0x8BFFC000 6) = .ok s' := by
  have hk := kmemInit2_eq_freshHeap zeroKmem region_boot
  have hResult : (execAll ⟨freshHeap zeroKmem bootStart bootStop, []⟩ [.kmalloc 6, .kmalloc 10, .kfree 0x8BFFC400 10]).map
      (fun s => (s.live, mem2blkid s.kmem minOrd 0x8BFFC000 / 32, (s.kmem.getMark 6 97024).bitmap)) =
      some ([(0x8BFFC000, 6)], 97024, 2#32) := by decide +kernel
  obtain ⟨s, hs, hEq⟩ := Option.map_eq_some_iff.mp hResult
  obtain ⟨hLive, hEq⟩ := Prod.mk.inj hEq
  obtain ⟨hMark, hBits⟩ := Prod.mk.inj hEq
  have hRun : Relation.ReflTransGen SafeStep ⟨freshHeap zeroKmem bootStart bootStop, []⟩ s := by
    have hCalls := hs
    rw [execAll, if_pos ⟨by decide, by decide⟩] at hCalls
    obtain ⟨s₁, hFirst, hRest⟩ := Option.bind_eq_some_iff.mp hCalls
    refine .head ⟨.kmalloc 6, ⟨by decide, by decide⟩, linkSafe_fresh, toOption_eq_some.mp hFirst⟩ (safeRun ?_ hRest)
    -- the other calls are of another order
    exact List.forall_mem_cons.mpr ⟨fun _ hOrd => absurd hOrd (by decide),
      List.forall_mem_cons.mpr ⟨fun _ hOrd => absurd hOrd (by decide), fun _ h => absurd h List.not_mem_nil⟩⟩
  have hAll := boot_lists_intact hk hRun
  refine ⟨_, s, hk, hs, ?_, hAll.2 (.kfree 0x8BFFC000 6) ?_ ?_⟩
  · obtain ⟨l, hNodup, hMem, hChain⟩ := hAll.1 6 ⟨by decide, by decide⟩
    refine ⟨l, (hMem 97024).mpr ⟨by decide +kernel, ?_⟩, hNodup, hChain⟩
    rw [hBits]
    decide
  · rw [Allowed, hLive]
    exact List.mem_singleton_self _
  · intro _ hEmpty
    rw [hMark] at hEmpty
    exact absurd (hBits.symm.trans hEmpty) (by decide)

/-- Calls after which two marks of the smallest order that need more than 16 bits are in
use: the upper end of the memory is given out first. -/
def badCalls : List Call :=
  [.kmalloc 6, .kmalloc 6, .kmalloc 7, .kmalloc 8, .kmalloc 9, .kmalloc 10, .kmalloc 6,
    .kfree (0x8027C000 + 3104768 * 64) 6, .kmalloc 6]

def panicOf : Except Panic Heap → Option Panic
  | .error e => some e
  | .ok _ => none

theorem panicOf_eq_some {x : Except Panic Heap} {e : Panic} (h : panicOf x = some e) : x = .error e := by
  cases x with
  | error e' => exact congrArg _ (Option.some.inj h)
  | ok s => cases h

/-- The list of the smallest order leads to an empty mark. -/
theorem boot_kmalloc_panics : ∃ s, Reach bootStart bootStop s ∧ Allowed s (.kmalloc 6) ∧
    exec s (.kmalloc 6) = .error .emptyMark := by
  have hBad : ((execAll ⟨freshHeap zeroKmem bootStart bootStop, []⟩ badCalls).bind
      fun s => panicOf (exec s (.kmalloc 6))) = some .emptyMark := by
    decide +kernel
  obtain ⟨s, hs, hPanic⟩ := Option.bind_eq_some_iff.mp hBad
  exact ⟨s, ⟨zeroKmem, _, kmemInit2_eq_freshHeap zeroKmem region_boot, run_execAll hs⟩,
    ⟨by decide, by decide⟩, panicOf_eq_some hPanic⟩

end Boot

end Xv6Rpi.Buddy
