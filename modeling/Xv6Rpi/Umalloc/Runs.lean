import Xv6Rpi.Umalloc.Free

/-! # The heap of a program

`malloc` goes round the ring once, and once more when it has got more memory, so it ends; what it
takes out of a free block, and what `free` puts back, keeps the heap in order over whole runs.
-/

namespace Xv6Rpi.Umalloc

open Links

variable {L : Layout} {h : Heap} {rest taken : List Nat} {nunits p prevp : Nat}

/-! ## A block out of a free block -/

structure Given (L : Layout) (h h' : Heap) (nunits ap : Nat) (taken : List Nat) : Prop where
  inv : ∃ rest', Inv L h' rest' ((ap - sizeofHeader) :: taken)
  size : h'.size (ap - sizeofHeader) = nunits
  header : sizeofHeader < ap
  taken : ∀ q ∈ taken, h'.size q = h.size q

theorem Given.since {h₁ h' : Heap} {ap : Nat} (hGiven : Given L h₁ h' nunits ap taken)
    (hSizes : ∀ q ∈ taken, h₁.size q = h.size q) : Given L h h' nunits ap taken :=
  ⟨hGiven.inv, hGiven.size, hGiven.header,
    fun q hq => (hGiven.taken q hq).trans (hSizes q hq)⟩

theorem Inv.taken_ne (hInv : Inv L h rest taken) {q r : Nat} (hq : q ∈ taken) (hr : r ∈ rest) :
    q ≠ r := by
  rintro rfl
  have hLess := h.lt_stop (hInv.inside q (List.mem_append_left _ hr)).2.1
  have hSelf : h.stop q ≤ q ∨ h.stop q ≤ q := hInv.clear q hq q hr
  omega

theorem Inv.free_apart (hInv : Inv L h rest taken) (hp : p ∈ rest) {r : Nat}
    (hr : r ∈ rest ++ taken) (hNe : p ≠ r) : Apart h p r := by
  obtain hr | hr := List.mem_append.mp hr
  · have hPairs : (L.base :: rest).Pairwise (Apart h) := hInv.sorted.imp fun hLt => .inl hLt.le
    have hSymm : Std.Symm (Apart h) := ⟨fun _ _ hApart => hApart.symm⟩
    exact hPairs.forall (List.mem_cons_of_mem _ hp) (List.mem_cons_of_mem _ hr) hNe
  · exact (hInv.clear r hr p hp).symm

theorem Inv.take (hInv : Inv L h rest taken) {us vs : List Nat} (hSplit : rest = us ++ p :: vs)
    {h' : Heap} (hSize : h'.size = h.size) (hBrk : h'.brk = h.brk)
    (hRing : Seg h'.ptr L.base (L.base :: (us ++ vs)) L.base)
    (hEntry : h'.freep ∈ L.base :: (us ++ vs)) : Inv L h' (us ++ vs) (p :: taken) := by
  have hStop : h'.stop = h.stop := by
    funext q
    simp only [Heap.stop, hSize]
  have hApart : Apart h' = Apart h := by
    funext q r
    simp only [Apart, hStop]
  have hPerm : (us ++ vs ++ p :: taken).Perm (rest ++ taken) := by
    rw [hSplit]
    refine List.perm_middle.trans ?_
    rw [List.append_assoc, List.append_assoc, List.cons_append]
    exact List.perm_middle.symm
  have hSub : List.Sublist (L.base :: (us ++ vs)) (L.base :: rest) := by
    rw [hSplit]
    exact ((List.sublist_cons_self p vs).append_left us).cons_cons L.base
  have hpRest : p ∈ rest := by
    rw [hSplit]
    exact List.mem_append_right us List.mem_cons_self
  have hIncreasing := hInv.increasing
  rw [hSplit, List.pairwise_cons, List.pairwise_append, List.pairwise_cons] at hIncreasing
  obtain ⟨-, -, ⟨hAbove, -⟩, hBelow⟩ := hIncreasing
  constructor
  · exact hRing
  · exact hEntry
  · rw [hSize]
    exact hInv.base_size
  · rw [hStop]
    exact hInv.sorted.sublist hSub
  · rw [hSize, hStop, hBrk]
    exact fun q hq => hInv.inside q (hPerm.subset hq)
  · rw [hApart]
    exact List.pairwise_cons.mpr ⟨fun q hq => (hInv.clear q hq p hpRest).symm, hInv.apart⟩
  · rw [hApart]
    intro q hq r hr
    have hrRest : r ∈ rest := by
      rw [hSplit]
      exact ((List.sublist_cons_self p vs).append_left us).subset hr
    obtain rfl | hq := List.mem_cons.mp hq
    · refine hInv.free_apart hpRest (List.mem_append_left _ hrRest) ?_
      rintro rfl
      obtain hr | hr := List.mem_append.mp hr
      · exact lt_irrefl _ (hBelow q hr q List.mem_cons_self)
      · exact lt_irrefl _ (hAbove q hr)
    · exact hInv.clear q hq r hrRest
  · rw [hSize, hBrk, (hPerm.map h.size).sum_eq]
    exact hInv.units
  · rw [hBrk]
    exact hInv.brk_le

theorem Inv.cut (hInv : Inv L h rest taken) (hp : p ∈ rest) {q : Nat} {h' : Heap}
    (hq : q = p + sizeofHeader * (h.size p - nunits)) (hUnits : 1 ≤ nunits)
    (hFit : nunits < h.size p)
    (hSize : ∀ r, h'.size r = if r = q then nunits else if r = p then h.size p - nunits else h.size r)
    (hPtr : h'.ptr = h.ptr) (hBrk : h'.brk = h.brk) (hEntry : h'.freep ∈ L.base :: rest) :
    Inv L h' rest (q :: taken) := by
  have hBetween : p < q ∧ q + sizeofHeader * nunits = h.stop p := by
    simp only [hq, Heap.stop, sizeofHeader]
    omega
  have hStopQ : h'.stop q = h.stop p := by
    rw [Heap.stop, hSize, if_pos rfl]
    exact hBetween.2
  have hLtQ : q < h.stop p := by
    have hEq := hBetween.2
    simp only [sizeofHeader] at hEq
    omega
  have hStopP : h'.stop p = q := by
    rw [Heap.stop, hSize, if_neg hBetween.1.ne, if_pos rfl, hq]
  have hBaseP := hInv.base_lt (List.mem_append_left taken hp)
  have hFresh : ∀ r ∈ rest ++ taken, r ≠ q := by
    rintro r hr rfl
    have hNe : p ≠ r := hBetween.1.ne
    have hLess := h.lt_stop (hInv.inside r hr).2.1
    obtain hApart | hApart := hInv.free_apart hp hr hNe
    · omega
    · omega
  have hOther : ∀ r ∈ rest ++ taken, r ≠ p → h'.size r = h.size r := by
    intro r hr hNe
    rw [hSize, if_neg (hFresh r hr), if_neg hNe]
  have hStopLe : ∀ r ∈ rest ++ taken, h'.stop r ≤ h.stop r := by
    intro r hr
    by_cases hNe : r = p
    · subst hNe
      rw [hStopP]
      exact hLtQ.le
    · simp only [Heap.stop, hOther r hr hNe]
      exact le_rfl
  have hBaseSize : h'.size L.base = 0 := by
    rw [hSize, if_neg (hBaseP.trans hBetween.1).ne, if_neg hBaseP.ne, hInv.base_size]
  have hTakenNe : ∀ r ∈ taken, r ≠ p := fun r hr => hInv.taken_ne hr hp
  have hStopTaken : ∀ r ∈ taken, h'.stop r = h.stop r := by
    intro r hr
    simp only [Heap.stop, hOther r (List.mem_append_right rest hr) (hTakenNe r hr)]
  -- the new block lies within the old free one
  have hApartQ : ∀ r ∈ rest ++ taken, Apart h' q r := by
    intro r hr
    have hLe := hStopLe r hr
    simp only [Apart, hStopQ]
    by_cases hNe : p = r
    · subst hNe
      rw [hStopP]
      exact .inr le_rfl
    · obtain hApart | hApart := hInv.free_apart hp hr hNe
      · exact .inl hApart
      · right
        omega
  constructor
  · rw [hPtr]
    exact hInv.ring
  · exact hEntry
  · exact hBaseSize
  · refine hInv.sorted.imp_of_mem ?_
    intro r t hr _ hLt
    obtain rfl | hr := List.mem_cons.mp hr
    · have hStopBase := hInv.stop_base
      simp only [Heap.stop, hBaseSize] at hStopBase hLt ⊢
      omega
    · exact lt_of_le_of_lt (hStopLe r (List.mem_append_left taken hr)) hLt
  · intro r hr
    rw [hBrk]
    by_cases hNew : r = q
    · subst hNew
      obtain ⟨hFrom, -, hStop⟩ := hInv.inside p (List.mem_append_left taken hp)
      rw [hStopQ, hSize, if_pos rfl]
      exact ⟨hFrom.trans hBetween.1.le, hUnits, hStop⟩
    · have hrOld : r ∈ rest ++ taken := by
        obtain hr | hr := List.mem_append.mp hr
        · exact List.mem_append_left _ hr
        · obtain rfl | hr := List.mem_cons.mp hr
          · exact absurd rfl hNew
          · exact List.mem_append_right _ hr
      obtain ⟨hFrom, hPos, hStop⟩ := hInv.inside r hrOld
      refine ⟨hFrom, ?_, (hStopLe r hrOld).trans hStop⟩
      by_cases hrp : r = p
      · subst hrp
        rw [hSize, if_neg hNew, if_pos rfl]
        omega
      · rwa [hOther r hrOld hrp]
  · refine List.pairwise_cons.mpr ⟨fun r hr => hApartQ r (List.mem_append_right rest hr), ?_⟩
    refine hInv.apart.imp_of_mem ?_
    intro r t hr ht hApart
    simpa only [Apart, hStopTaken r hr, hStopTaken t ht] using hApart
  · intro r hr t ht
    have htIn := List.mem_append_left taken ht
    obtain rfl | hr := List.mem_cons.mp hr
    · exact hApartQ t htIn
    · have hApart := hInv.clear r hr t ht
      have hLe := hStopLe t htIn
      simp only [Apart, hStopTaken r hr] at hApart ⊢
      omega
  · rw [hBrk, ← hInv.units]
    obtain ⟨us, vs, hSplit⟩ := List.append_of_mem hp
    have hNodup : (L.base :: rest).Nodup := hInv.increasing.imp fun hLt => hLt.ne
    rw [hSplit, List.nodup_cons, List.nodup_append, List.nodup_cons] at hNodup
    obtain ⟨-, -, ⟨hRight, -⟩, hCross⟩ := hNodup
    have hUs : us.map h'.size = us.map h.size := by
      apply List.map_congr_left
      intro r hr
      refine hOther r ?_ fun hEq => hCross r hr p List.mem_cons_self hEq
      rw [hSplit]
      simp [hr]
    have hVs : vs.map h'.size = vs.map h.size := by
      apply List.map_congr_left
      intro r hr
      refine hOther r ?_ ?_
      · rw [hSplit]
        simp [hr]
      · rintro rfl
        exact hRight hr
    have hTaken : taken.map h'.size = taken.map h.size :=
      List.map_congr_left fun r hr => hOther r (List.mem_append_right rest hr) (hTakenNe r hr)
    have hSizeQ : h'.size q = nunits := by rw [hSize, if_pos rfl]
    have hSizeP : h'.size p = h.size p - nunits := by
      rw [hSize, if_neg hBetween.1.ne, if_pos rfl]
    rw [hSplit]
    simp only [List.map_append, List.map_cons, List.sum_append, List.sum_cons, hUs, hVs, hTaken,
      hSizeQ, hSizeP, sizeofHeader]
    omega
  · rw [hBrk]
    exact hInv.brk_le

/-- What has been found in a free block behind `prevp` is given away. -/
theorem Inv.carve_spec (hInv : Inv L h rest taken) (hUnits : 1 ≤ nunits) (hFit : nunits ≤ h.size p)
    (hPrev : prevp ∈ L.base :: rest) (hPtr : h.ptr prevp = p) :
    Given L h (carve h nunits prevp p).2 nunits (carve h nunits prevp p).1 taken := by
  obtain ⟨xs, ys, hSplit⟩ := List.append_of_mem hPrev
  have hHead := hInv.ptr_eq hSplit
  rw [hPtr] at hHead
  obtain _ | ⟨y, ys⟩ := ys
  · -- the base has no units
    rw [hHead, List.headD_nil, hInv.base_size] at hFit
    omega
  · rw [List.headD_cons] at hHead
    subst hHead
    obtain ⟨us, hUs, hRest⟩ : ∃ us, L.base :: us = xs ++ [prevp] ∧ rest = us ++ p :: ys := by
      cases xs with
      | nil =>
        rw [List.nil_append, List.cons.injEq] at hSplit
        exact ⟨[], by rw [hSplit.1, List.nil_append], hSplit.2⟩
      | cons x xs =>
        rw [List.cons_append, List.cons.injEq] at hSplit
        exact ⟨xs ++ [prevp], by rw [hSplit.1, List.cons_append], by
          rw [hSplit.2, List.append_assoc, List.singleton_append]⟩
    have hp : p ∈ rest := by
      rw [hRest]
      exact List.mem_append_right us List.mem_cons_self
    have hpIn := List.mem_append_left taken hp
    rw [carve]
    by_cases hExact : h.size p = nunits
    · rw [if_pos hExact]
      have hSize : (h.setPtr prevp (h.ptr p)).size = h.size := by
        funext q
        exact h.size_setPtr prevp q (h.ptr p)
      have hNodup : (L.base :: rest).Nodup := hInv.increasing.imp fun hLt => hLt.ne
      have hRing := hInv.ring
      rw [hSplit] at hRing hNodup
      rw [List.nodup_append, List.nodup_cons] at hNodup
      obtain ⟨-, ⟨hRight, -⟩, hLeft⟩ := hNodup
      have hList : L.base :: (us ++ ys) = xs ++ prevp :: ys := by
        rw [← List.cons_append, hUs, List.append_assoc, List.singleton_append]
      constructor
      · refine ⟨us ++ ys, ?_⟩
        rw [Nat.add_sub_cancel]
        apply hInv.take hRest
        · exact hSize
        · rfl
        · rw [hList]
          apply hRing.remove
          · change (h.setPtr prevp (h.ptr p)).ptr prevp = h.ptr p
            simp
          · intro q hq
            change (h.setPtr prevp (h.ptr p)).ptr q = h.ptr q
            have hNe : q ≠ prevp := hLeft q hq prevp List.mem_cons_self
            simp [hNe]
          · intro q hq
            change (h.setPtr prevp (h.ptr p)).ptr q = h.ptr q
            have hNe : q ≠ prevp := by
              rintro rfl
              exact hRight (List.mem_cons_of_mem _ hq)
            simp [hNe]
        · rw [hList]
          exact List.mem_append_right xs List.mem_cons_self
      · rw [Nat.add_sub_cancel]
        change (h.setPtr prevp (h.ptr p)).size p = nunits
        rw [hSize, hExact]
      · have hBase := hInv.base_lt hpIn
        exact Nat.lt_add_of_pos_left (by omega)
      · intro q hq
        change (h.setPtr prevp (h.ptr p)).size q = h.size q
        rw [hSize]
    · rw [if_neg hExact]
      have hStop : (h.setSize p (h.size p - nunits)).stop p =
          p + sizeofHeader * (h.size p - nunits) := by
        simp [Heap.stop]
      generalize hQ : (h.setSize p (h.size p - nunits)).stop p = q at hStop
      have hSize : ∀ r, ((h.setSize p (h.size p - nunits)).setSize q nunits).size r =
          if r = q then nunits else if r = p then h.size p - nunits else h.size r := by
        intro r
        simp
      have hPtr' : ((h.setSize p (h.size p - nunits)).setSize q nunits).ptr = h.ptr := by
        funext r
        simp
      have hCut : Inv L { (h.setSize p (h.size p - nunits)).setSize q nunits with freep := prevp } rest (q :: taken) :=
        hInv.cut hp hStop hUnits (lt_of_le_of_ne hFit (Ne.symm hExact)) hSize hPtr' rfl hPrev
      simp only [hQ]
      constructor
      · rw [Nat.add_sub_cancel]
        exact ⟨rest, hCut⟩
      · rw [Nat.add_sub_cancel]
        change ((h.setSize p (h.size p - nunits)).setSize q nunits).size q = nunits
        rw [hSize, if_pos rfl]
      · have hBase := hCut.base_lt (q := q) (by simp)
        exact Nat.lt_add_of_pos_left (by omega)
      · intro r hr
        change ((h.setSize p (h.size p - nunits)).setSize q nunits).size r = h.size r
        have hNe : r ≠ q := by
          rintro rfl
          have hSelf : Apart _ r r := (List.pairwise_cons.mp hCut.apart).1 r hr
          have hLess := Heap.lt_stop _ (hCut.inside r (by simp)).2.1
          exact absurd hLess (not_lt.mpr ((or_self_iff).mp hSelf))
        rw [hSize, if_neg hNe, if_neg (hInv.taken_ne hr hp)]

/-! ## More memory -/

structure Grown (L : Layout) (h h' : Heap) (nunits : Nat) (taken rest' : List Nat) : Prop where
  inv : Inv L h' rest' taken
  taken : ∀ q ∈ taken, h'.size q = h.size q
  room : ∃ q ∈ rest', nunits ≤ h'.size q

/-- The memory above the break is a block like one in use. -/
theorem Inv.extend (hInv : Inv L h rest taken) {nu : Nat} (hUnits : 1 ≤ nu)
    (hFit : h.brk + sizeofHeader * nu ≤ uaddrSz) {h' : Heap}
    (hSize : ∀ q, h'.size q = if q = h.brk then nu else h.size q) (hPtr : h'.ptr = h.ptr)
    (hBrk : h'.brk = h.brk + sizeofHeader * nu) (hEntry : h'.freep = h.freep) :
    Inv L h' rest (h.brk :: taken) := by
  have hBase : L.base < h.brk := by
    have hStart := hInv.start_le_brk
    have hBelow := L.base_lt
    simp only [sizeofHeader] at hBelow
    omega
  have hBelow : ∀ q ∈ rest ++ taken, q < h.brk := by
    intro q hq
    obtain ⟨-, hPos, hStop⟩ := hInv.inside q hq
    exact lt_of_lt_of_le (h.lt_stop hPos) hStop
  have hOld : ∀ q ∈ rest ++ taken, h'.size q = h.size q := by
    intro q hq
    rw [hSize, if_neg (hBelow q hq).ne]
  have hStopOld : ∀ q ∈ rest ++ taken, h'.stop q = h.stop q := by
    intro q hq
    simp only [Heap.stop, hOld q hq]
  have hBaseSize : h'.size L.base = 0 := by rw [hSize, if_neg hBase.ne, hInv.base_size]
  have hUnder : ∀ q ∈ rest ++ taken, Apart h' h.brk q := by
    intro q hq
    right
    rw [hStopOld q hq]
    exact (hInv.inside q hq).2.2
  constructor
  · rw [hPtr]
    exact hInv.ring
  · rw [hEntry]
    exact hInv.entry
  · exact hBaseSize
  · refine hInv.sorted.imp_of_mem ?_
    intro q r hq _ hLt
    obtain rfl | hq := List.mem_cons.mp hq
    · simp only [Heap.stop, hBaseSize, hInv.base_size] at hLt ⊢
      exact hLt
    · rwa [hStopOld q (List.mem_append_left taken hq)]
  · intro q hq
    rw [hBrk]
    have hCases : q = h.brk ∨ q ∈ rest ++ taken := by
      simp only [List.mem_append, List.mem_cons] at hq ⊢
      tauto
    obtain rfl | hq := hCases
    · simp only [Heap.stop, hSize, if_true]
      exact ⟨hInv.start_le_brk, hUnits, le_rfl⟩
    · obtain ⟨hFrom, hPos, hStop⟩ := hInv.inside q hq
      rw [hOld q hq, hStopOld q hq]
      exact ⟨hFrom, hPos, hStop.trans (Nat.le_add_right _ _)⟩
  · refine List.pairwise_cons.mpr ⟨fun q hq => hUnder q (List.mem_append_right rest hq), ?_⟩
    refine hInv.apart.imp_of_mem ?_
    intro q r hq hr hApart
    simpa only [Apart, hStopOld q (List.mem_append_right rest hq),
      hStopOld r (List.mem_append_right rest hr)] using hApart
  · intro q hq r hr
    obtain rfl | hq := List.mem_cons.mp hq
    · exact hUnder r (List.mem_append_left taken hr)
    · simpa only [Apart, hStopOld q (List.mem_append_right rest hq),
        hStopOld r (List.mem_append_left taken hr)] using hInv.clear q hq r hr
  · have hSum : ((rest ++ taken).map h'.size).sum = ((rest ++ taken).map h.size).sum := by
      rw [List.map_congr_left hOld]
    have hOldUnits := hInv.units
    simp only [List.map_append, List.sum_append] at hSum hOldUnits
    rw [List.map_append, List.sum_append, List.map_cons, List.sum_cons, hSize, if_pos rfl, hBrk,
      ← hOldUnits]
    simp only [sizeofHeader]
    omega
  · rw [hBrk]
    exact hFit

theorem sbrk_cases (h : Heap) (n : Nat) (answers : List Bool) :
    sbrk h n answers = none ∨
      sbrk h n answers = some (h.brk, { h with brk := h.brk + n }) ∧ h.brk + n ≤ uaddrSz := by
  cases answers with
  | nil => exact .inl rfl
  | cons answer answers =>
    cases answer with
    | false => exact .inl rfl
    | true =>
      simp only [sbrk]
      by_cases hFit : h.brk + n ≤ uaddrSz
      · exact .inr ⟨if_pos hFit, hFit⟩
      · exact .inl (if_neg hFit)

theorem Inv.morecore_spec (hInv : Inv L h rest taken) (hUnits : sizeofHeader * nunits < 2 ^ 32)
    (answers : List Bool) :
    morecore h nunits answers = some (0, h) ∨
      ∃ h' rest', morecore h nunits answers = some (h'.freep, h') ∧
        Grown L h h' nunits taken rest' := by
  have hCeil : ∃ nu, (if nunits < 4096 then 4096 else nunits) = nu ∧ nunits ≤ nu ∧ 1 ≤ nu ∧
      nu * sizeofHeader % 2 ^ 32 = sizeofHeader * nu := by
    refine ⟨_, rfl, ?_⟩
    simp only [sizeofHeader] at hUnits ⊢
    split
    · omega
    · omega
  obtain ⟨nu, hNu, hLe, hPos, hBytes⟩ := hCeil
  simp only [morecore, hNu, hBytes]
  obtain hNone | ⟨hSome, hFit⟩ := sbrk_cases h (sizeofHeader * nu) answers
  · left
    rw [hNone]
  · right
    have hExtend : Inv L (Heap.setSize { h with brk := h.brk + sizeofHeader * nu } h.brk nu) rest (h.brk :: taken) :=
      hInv.extend hPos hFit (fun q => Heap.size_setSize _ h.brk q nu) (funext fun q => Heap.ptr_setSize _ h.brk q nu)
      rfl rfl
    obtain ⟨h', rest', hFree, hFreed⟩ := hExtend.free_spec
    refine ⟨h', rest', ?_, hFreed.inv, ?_, ?_⟩
    · rw [hSome]
      simp only [hFree]
    · intro q hq
      have hBelow : q < h.brk := by
        obtain ⟨-, hSize, hStop⟩ := hInv.inside q (List.mem_append_right rest hq)
        exact lt_of_lt_of_le (h.lt_stop hSize) hStop
      rw [hFreed.taken q hq, Heap.size_setSize, if_neg hBelow.ne]
      rfl
    · obtain ⟨q, hq, hRoom⟩ := hFreed.room
      rw [Heap.size_setSize, if_pos rfl] at hRoom
      exact ⟨q, hq, hLe.trans hRoom⟩

/-! ## The loop of `malloc` -/

/-- The loop finds a block between here and `freep`, or comes to `freep` and asks for memory. -/
theorem loop_search {ring zs : List Nat} (answers : List Bool)
    (hSeg : Seg h.ptr p zs h.freep) (hFresh : h.freep ∉ zs) (hRing : ∀ z ∈ zs, z ∈ ring)
    (hPrev : prevp ∈ ring) (hPtr : h.ptr prevp = p) {n : Nat} (hTurns : zs.length < n) :
    (∃ r q, r ∈ ring ∧ h.ptr r = q ∧ nunits ≤ h.size q ∧
        mallocLoop nunits n answers h prevp p = some (carve h nunits r q)) ∨
      (∀ z, z ∈ zs ∨ z = h.freep → h.size z < nunits) ∧
        ∃ m r, m + zs.length + 1 = n ∧
          mallocLoop nunits n answers h prevp p = mallocLoop nunits (m + 1) answers h r h.freep := by
  induction zs generalizing p prevp n with
  | nil =>
    obtain rfl : p = h.freep := hSeg
    obtain ⟨m, rfl⟩ := Nat.exists_eq_succ_of_ne_zero (Nat.ne_of_gt hTurns)
    obtain hFit | hFit := Nat.lt_or_ge (h.size h.freep) nunits
    · refine .inr ⟨?_, m, prevp, rfl, rfl⟩
      rintro z (hz | rfl)
      · exact absurd hz List.not_mem_nil
      · exact hFit
    · refine .inl ⟨prevp, h.freep, hPrev, hPtr, hFit, ?_⟩
      rw [mallocLoop, if_pos hFit]
  | cons z zs ih =>
    obtain ⟨rfl, hRest⟩ := hSeg
    obtain ⟨m, rfl⟩ := Nat.exists_eq_succ_of_ne_zero (Nat.ne_of_gt (Nat.zero_lt_of_lt hTurns))
    obtain hFit | hFit := Nat.lt_or_ge (h.size p) nunits
    · have hNe : p ≠ h.freep := by
        rintro rfl
        exact hFresh List.mem_cons_self
      have hStep : ∀ r, mallocLoop nunits (m + 1) answers h r p =
          mallocLoop nunits m answers h p (h.ptr p) := by
        intro r
        rw [mallocLoop, if_neg (not_le.mpr hFit), if_neg hNe]
      rw [hStep]
      obtain hFound | ⟨hNone, k, r, hk, hGo⟩ := ih hRest
        (fun hIn => hFresh (List.mem_cons_of_mem p hIn))
        (fun z hz => hRing z (List.mem_cons_of_mem p hz)) (hRing p List.mem_cons_self) rfl
        (Nat.lt_of_succ_lt_succ hTurns)
      · exact .inl hFound
      · refine .inr ⟨?_, k, r, ?_, hGo⟩
        · rintro z (hz | rfl)
          · obtain rfl | hz := List.mem_cons.mp hz
            · exact hFit
            · exact hNone z (.inl hz)
          · exact hNone _ (.inr rfl)
        · rw [List.length_cons]
          omega
    · refine .inl ⟨prevp, p, hPrev, hPtr, hFit, ?_⟩
      rw [mallocLoop, if_pos hFit]

theorem Inv.loop_once (hInv : Inv L h rest taken) (answers : List Bool) {n : Nat}
    (hTurns : uaddrSz ≤ n) :
    (∃ r q, r ∈ L.base :: rest ∧ h.ptr r = q ∧ nunits ≤ h.size q ∧
        mallocLoop nunits n answers h h.freep (h.ptr h.freep) = some (carve h nunits r q)) ∨
      (∀ z ∈ L.base :: rest, h.size z < nunits) ∧
        ∃ m r, n ≤ m + uaddrSz ∧ mallocLoop nunits n answers h h.freep (h.ptr h.freep) =
          mallocLoop nunits (m + 1) answers h r h.freep := by
  obtain ⟨zs, hEntered⟩ := hInv.entered
  have hLength := hInv.length_le
  have hCount := hEntered.length_eq
  have hFew : zs.length < n := by omega
  have hSearch := @loop_search h nunits _ _ _ zs answers hEntered.seg hEntered.fresh
    (fun z hz => (hEntered.mem_iff z).mp (.inl hz)) hInv.entry rfl n hFew
  obtain hFound | ⟨hNone, m, r, hm, hGo⟩ := hSearch
  · exact .inl hFound
  · exact .inr ⟨fun z hz => hNone z ((hEntered.mem_iff z).mpr hz), m, r, by omega, hGo⟩

theorem Inv.freep_ne (hInv : Inv L h rest taken) : h.freep ≠ 0 := by
  have hBase := L.base_pos
  obtain hEq | hIn := List.mem_cons.mp hInv.entry
  · omega
  · have hLt := hInv.base_lt (List.mem_append_left taken hIn)
    omega

theorem Inv.loop_spec (hInv : Inv L h rest taken) (hPos : 1 ≤ nunits)
    (hUnits : sizeofHeader * nunits < 2 ^ 32) (answers : List Bool) :
    ∃ ap h', mallocLoop nunits (2 * uaddrSz) answers h h.freep (h.ptr h.freep) = some (ap, h') ∧
      (ap = 0 ∧ h' = h ∨ Given L h h' nunits ap taken) := by
  obtain ⟨r, q, hr, hPtr, hFit, hGo⟩ | ⟨hNone, m, r, hm, hGo⟩ :=
    @Inv.loop_once _ _ _ _ nunits hInv answers (2 * uaddrSz) (by omega)
  · exact ⟨_, _, hGo, .inr (hInv.carve_spec hPos hFit hr hPtr)⟩
  · have hSmall := hNone h.freep hInv.entry
    rw [hGo, mallocLoop, if_neg (not_le.mpr hSmall), if_pos rfl]
    obtain hFail | ⟨h₁, rest₁, hMore, hGrown⟩ := hInv.morecore_spec hUnits answers
    · rw [hFail]
      exact ⟨0, h, rfl, .inl ⟨rfl, rfl⟩⟩
    · rw [hMore]
      simp only [if_neg hGrown.inv.freep_ne]
      obtain ⟨r₁, q₁, hr₁, hPtr₁, hFit₁, hGo₁⟩ | ⟨hNone₁, -⟩ :=
        @Inv.loop_once _ _ _ _ nunits hGrown.inv answers.tail m (by omega)
      · have hGiven := hGrown.inv.carve_spec hPos hFit₁ hr₁ hPtr₁
        exact ⟨_, _, hGo₁, .inr (hGiven.since hGrown.taken)⟩
      · -- the new block is large enough
        obtain ⟨q, hq, hRoom⟩ := hGrown.room
        have hLess := hNone₁ q (List.mem_cons_of_mem _ hq)
        omega

theorem inv_first {mem : Nat → Header} (h : Heap)
    (hHeap : h = { ((⟨mem, 0, L.start⟩ : Heap).setPtr L.base L.base).setSize L.base 0 with
      freep := L.base }) : Inv L h [] [] := by
  subst hHeap
  constructor
  · refine ⟨rfl, ?_⟩
    change (Heap.setSize _ L.base 0).ptr L.base = L.base
    simp
  · exact List.mem_singleton.mpr rfl
  · change (Heap.setSize _ L.base 0).size L.base = 0
    simp
  · exact List.pairwise_singleton _ _
  · exact fun p hp => absurd hp List.not_mem_nil
  · exact List.Pairwise.nil
  · exact fun p hp => absurd hp List.not_mem_nil
  · rfl
  · exact L.start_le

/-! ## Runs -/

/-- The heap before the first call, and in order ever after. -/
inductive Ordered (L : Layout) (h : Heap) (taken : List Nat) : Prop
  | unused (hFreep : h.freep = 0) (hBrk : h.brk = L.start) (hTaken : taken = [])
  | used {rest : List Nat} (hInv : Inv L h rest taken)

/-- The heap is in order, and each block in use has room for what has been asked. -/
structure Program.Sound (L : Layout) (s : Program) : Prop where
  ordered : Ordered L s.heap (s.live.map Live.header)
  room : ∀ b ∈ s.live, sizeofHeader < b.ap ∧
    b.nbytes + sizeofHeader ≤ sizeofHeader * s.heap.size b.header

theorem units_spec {nbytes : Nat} (hBytes : nbytes < uaddrSz) :
    1 ≤ units nbytes ∧ sizeofHeader * units nbytes < 2 ^ 32 ∧
      nbytes + sizeofHeader ≤ sizeofHeader * units nbytes := by
  simp only [units, uaddrSz, sizeofHeader] at *
  omega

/-- The heap that `malloc` goes to work on: on the first call it is the base alone. -/
def Heap.entered (h : Heap) (base : Nat) : Heap :=
  if h.freep = 0 then { (h.setPtr base base).setSize base 0 with freep := base } else h

/-- The heap is in order when the search begins, and has a free block unless it is the first call or
the base leads to itself. -/
theorem Ordered.entered {h : Heap} {taken : List Nat} (hOrdered : Ordered L h taken) :
    ∃ rest, Inv L (h.entered L.base) rest taken ∧ (∀ q ∈ taken, (h.entered L.base).size q = h.size q) ∧
      (h.entered L.base).brk = h.brk ∧ (rest = [] ↔ h.freep = 0 ∨ h.ptr L.base = L.base) := by
  cases hOrdered with
  | unused hFreep hBrk hTaken =>
    subst hTaken
    rw [Heap.entered, if_pos hFreep]
    refine ⟨[], @inv_first _ h.mem _ ?_, fun q hq => absurd hq List.not_mem_nil, rfl, ?_⟩
    · obtain ⟨mem, freep, brk⟩ := h
      simp only at hFreep hBrk
      subst hFreep hBrk
      rfl
    · exact ⟨fun _ => .inl hFreep, fun _ => rfl⟩
  | @used rest hInv =>
    rw [Heap.entered, if_neg hInv.freep_ne]
    refine ⟨rest, hInv, fun q _ => rfl, rfl, ?_⟩
    have hNext := hInv.ptr_eq (List.nil_append (L.base :: rest)).symm
    constructor
    · rintro rfl
      exact .inr hNext
    · rintro (hZero | hSelf)
      · exact absurd hZero hInv.freep_ne
      · cases rest with
        | nil => rfl
        | cons r rest =>
          have hLt := hInv.base_lt (List.mem_append_left taken List.mem_cons_self)
          rw [hNext] at hSelf
          exact absurd hSelf hLt.ne'

theorem malloc_spec {h : Heap} {taken : List Nat} (hOrdered : Ordered L h taken) {nbytes : Nat}
    (hBytes : nbytes < uaddrSz) (answers : List Bool) :
    ∃ ap h', malloc L.base nbytes answers h = some (ap, h') ∧
      (∀ q ∈ taken, h'.size q = h.size q) ∧
        (ap = 0 ∧ Ordered L h' taken ∨
          sizeofHeader < ap ∧ h'.size (ap - sizeofHeader) = units nbytes ∧
            Ordered L h' ((ap - sizeofHeader) :: taken)) := by
  obtain ⟨hPos, hUnits, -⟩ := units_spec hBytes
  obtain ⟨rest, hInv, hSizes, -⟩ := hOrdered.entered
  obtain ⟨ap, h', hRun, hCase⟩ := hInv.loop_spec hPos hUnits answers
  refine ⟨ap, h', hRun, ?_⟩
  obtain ⟨rfl, rfl⟩ | hGiven := hCase
  · exact ⟨hSizes, .inl ⟨rfl, .used hInv⟩⟩
  · obtain ⟨rest', hInv'⟩ := hGiven.inv
    refine ⟨?_, .inr ⟨hGiven.header, hGiven.size, .used hInv'⟩⟩
    intro q hq
    rw [hGiven.taken q hq, hSizes q hq]

theorem Inv.perm {taken' : List Nat} (hInv : Inv L h rest taken) (hPerm : taken.Perm taken') :
    Inv L h rest taken' := by
  have hAll : (rest ++ taken).Perm (rest ++ taken') := hPerm.append_left rest
  have hSymm : Std.Symm (Apart h) := ⟨fun _ _ hApart => hApart.symm⟩
  constructor
  · exact hInv.ring
  · exact hInv.entry
  · exact hInv.base_size
  · exact hInv.sorted
  · exact fun q hq => hInv.inside q (hAll.symm.subset hq)
  · exact (hPerm.pairwise_iff fun hApart => hApart.symm).mp hInv.apart
  · exact fun q hq => hInv.clear q (hPerm.symm.subset hq)
  · rw [(hAll.symm.map h.size).sum_eq]
    exact hInv.units
  · exact hInv.brk_le

theorem Inv.congr {h' : Heap} (hInv : Inv L h rest taken)
    (hSame : ∀ q, q ∈ L.base :: rest ++ taken → h'.mem q = h.mem q) (hEntry : h'.freep = h.freep)
    (hBrk : h'.brk = h.brk) : Inv L h' rest taken := by
  have hSize : ∀ q ∈ L.base :: rest ++ taken, h'.size q = h.size q := by
    intro q hq
    simp only [Heap.size, hSame q hq]
  have hStop : ∀ q ∈ L.base :: rest ++ taken, h'.stop q = h.stop q := by
    intro q hq
    simp only [Heap.stop, hSize q hq]
  have hTaken : ∀ q ∈ taken, q ∈ L.base :: rest ++ taken := fun q hq => List.mem_append_right _ hq
  have hFree : ∀ q ∈ L.base :: rest, q ∈ L.base :: rest ++ taken :=
    fun q hq => List.mem_append_left _ hq
  have hBlock : ∀ q ∈ rest ++ taken, q ∈ L.base :: rest ++ taken :=
    fun q hq => List.mem_cons_of_mem _ hq
  constructor
  · refine hInv.ring.congr ?_
    intro q hq
    simp only [Heap.ptr, hSame q (hFree q hq)]
  · rw [hEntry]
    exact hInv.entry
  · rw [hSize L.base (hFree _ List.mem_cons_self)]
    exact hInv.base_size
  · refine hInv.sorted.imp_of_mem ?_
    intro q r hq _ hLt
    rwa [hStop q (hFree q hq)]
  · intro q hq
    rw [hSize q (hBlock q hq), hStop q (hBlock q hq), hBrk]
    exact hInv.inside q hq
  · refine hInv.apart.imp_of_mem ?_
    intro q r hq hr hApart
    simpa only [Apart, hStop q (hTaken q hq), hStop r (hTaken r hr)] using hApart
  · intro q hq r hr
    simpa only [Apart, hStop q (hTaken q hq), hStop r (hFree r (List.mem_cons_of_mem _ hr))]
      using hInv.clear q hq r hr
  · have hSizes : (rest ++ taken).map h'.size = (rest ++ taken).map h.size :=
      List.map_congr_left fun q hq => hSize q (hBlock q hq)
    rw [hSizes, hBrk]
    exact hInv.units
  · rw [hBrk]
    exact hInv.brk_le

theorem Program.Sound.free_spec {s : Program} (hSound : s.Sound L) {b : Live} (hb : b ∈ s.live) :
    ∃ h', free s.heap b.ap = some h' ∧ Program.Sound L ⟨h', s.live.erase b⟩ := by
  have hPerm : (s.live.map Live.header).Perm (b.header :: (s.live.erase b).map Live.header) :=
    (List.perm_cons_erase hb).map Live.header
  obtain ⟨hAp, -⟩ := hSound.room b hb
  have hBack : b.header + sizeofHeader = b.ap := Nat.sub_add_cancel hAp.le
  cases hSound.ordered with
  | unused hFreep hBrk hTaken =>
    rw [List.map_eq_nil_iff] at hTaken
    rw [hTaken] at hb
    exact absurd hb List.not_mem_nil
  | used hInv =>
    obtain ⟨h', rest', hRun, hFreed⟩ := (hInv.perm hPerm).free_spec
    rw [hBack] at hRun
    refine ⟨h', hRun, .used hFreed.inv, ?_⟩
    intro c hc
    have hSize := hFreed.taken c.header (List.mem_map.mpr ⟨c, hc, rfl⟩)
    dsimp only
    rw [hSize]
    exact hSound.room c (List.mem_of_mem_erase hc)

theorem Program.Sound.malloc_spec {s : Program} (hSound : s.Sound L) {nbytes : Nat}
    (hBytes : nbytes < uaddrSz) (answers : List Bool) :
    ∃ ap h', malloc L.base nbytes answers s.heap = some (ap, h') ∧
      Program.Sound L ⟨h', if ap = 0 then s.live else ⟨ap, nbytes⟩ :: s.live⟩ := by
  obtain ⟨ap, h', hRun, hSizes, hCase⟩ := Umalloc.malloc_spec hSound.ordered hBytes answers
  have hOld : ∀ b ∈ s.live, sizeofHeader < b.ap ∧
      b.nbytes + sizeofHeader ≤ sizeofHeader * h'.size b.header := by
    intro b hb
    rw [hSizes b.header (List.mem_map.mpr ⟨b, hb, rfl⟩)]
    exact hSound.room b hb
  refine ⟨ap, h', hRun, ?_⟩
  obtain ⟨rfl, hOrdered⟩ | ⟨hAp, hSize, hOrdered⟩ := hCase
  · exact ⟨hOrdered, hOld⟩
  · have hNe : ap ≠ 0 := by omega
    rw [if_neg hNe]
    refine ⟨hOrdered, ?_⟩
    intro b hb
    obtain rfl | hb := List.mem_cons.mp hb
    · refine ⟨hAp, ?_⟩
      simp only [Live.header]
      rw [hSize]
      exact (units_spec hBytes).2.2
    · exact hOld b hb

theorem Program.Sound.write {s : Program} (hSound : s.Sound L) {b : Live} (hb : b ∈ s.live)
    {p : Nat} {x : Header} (hFrom : b.ap ≤ p) (hTo : p + sizeofHeader ≤ s.heap.stop b.header) :
    Program.Sound L ⟨{ s.heap with mem := Function.update s.heap.mem p x }, s.live⟩ := by
  obtain ⟨hAp, -⟩ := hSound.room b hb
  have hHeader : b.header < p := by
    simp only [Live.header, sizeofHeader] at *
    omega
  have hEnd : p < s.heap.stop b.header := by
    simp only [sizeofHeader] at hTo
    omega
  have hMem : b.header ∈ s.live.map Live.header := List.mem_map.mpr ⟨b, hb, rfl⟩
  cases hSound.ordered with
  | unused hFreep hBrk hTaken =>
    rw [hTaken] at hMem
    exact absurd hMem List.not_mem_nil
  | @used rest hInv =>
    -- no header of the heap lies within a block in use
    have hFresh : ∀ q, q ∈ L.base :: rest ++ s.live.map Live.header → q ≠ p := by
      rintro q hq rfl
      obtain hq | hq := List.mem_append.mp hq
      · obtain rfl | hq := List.mem_cons.mp hq
        · have hBase := hInv.base_lt (List.mem_append_right rest hMem)
          omega
        · have hLess := Heap.lt_stop _ (hInv.inside q (List.mem_append_left _ hq)).2.1
          obtain hApart | hApart := hInv.clear b.header hMem q hq
          · omega
          · omega
      · have hSymm : Std.Symm (Apart s.heap) := ⟨fun _ _ hApart => hApart.symm⟩
        have hLess := Heap.lt_stop _ (hInv.inside q (List.mem_append_right rest hq)).2.1
        obtain hApart | hApart := hInv.apart.forall hMem hq hHeader.ne
        · omega
        · omega
    have hInv' : Inv L { s.heap with mem := Function.update s.heap.mem p x } rest (s.live.map Live.header) :=
      hInv.congr (fun q hq => Function.update_of_ne (hFresh q hq) x s.heap.mem) rfl rfl
    refine ⟨.used hInv', ?_⟩
    intro c hc
    have hNe := hFresh c.header (List.mem_append_right _ (List.mem_map.mpr ⟨c, hc, rfl⟩))
    have hSize : ({ s.heap with mem := Function.update s.heap.mem p x } : Heap).size c.header =
        s.heap.size c.header := by
      simp only [Heap.size, Function.update_of_ne hNe]
    dsimp only
    rw [hSize]
    exact hSound.room c hc

theorem Reach.sound {s : Program} (h : Reach L s) : s.Sound L := by
  induction h with
  | start mem => exact ⟨.unused rfl rfl rfl, fun b hb => absurd hb List.not_mem_nil⟩
  | @malloc s nbytes ap answers h hReach hBytes hRun ih =>
    obtain ⟨ap', h', hRun', hSound⟩ := ih.malloc_spec hBytes answers
    rw [hRun, Option.some.injEq, Prod.mk.injEq] at hRun'
    obtain ⟨rfl, rfl⟩ := hRun'
    exact hSound
  | @free s b h hReach hLive hRun ih =>
    obtain ⟨h', hRun', hSound⟩ := ih.free_spec hLive
    rw [hRun, Option.some.injEq] at hRun'
    subst hRun'
    exact hSound
  | write hReach hLive hFrom hTo ih => exact ih.write hLive hFrom hTo

/-- In whatever state a program has come to, `malloc` and `free` end, and the heap is as they need
it: the free blocks lead round from the base in the order of their addresses and back to it, they
are apart from each other and from the blocks in use, which are apart too, and together these are
the memory that has been got. -/
theorem heap_ordered {s : Program} (h : Reach L s) :
    (∀ nbytes < uaddrSz, ∀ answers, malloc L.base nbytes answers s.heap ≠ none) ∧
      (∀ b ∈ s.live, free s.heap b.ap ≠ none) ∧
      (∀ b ∈ s.live, b.nbytes + sizeofHeader ≤ sizeofHeader * s.heap.size b.header) ∧
      Ordered L s.heap (s.live.map Live.header) := by
  have hSound := h.sound
  refine ⟨?_, ?_, fun b hb => (hSound.room b hb).2, hSound.ordered⟩
  · intro nbytes hBytes answers
    obtain ⟨ap, h', hRun, -⟩ := hSound.malloc_spec hBytes answers
    rw [hRun]
    exact Option.some_ne_none _
  · intro b hb
    obtain ⟨h', hRun, -⟩ := hSound.free_spec hb
    rw [hRun]
    exact Option.some_ne_none _

def exampleLayout : Layout := ⟨4080, 4096, by decide, by decide, by decide⟩

def Program.got (L : Layout) (nbytes : Nat) (answers : List Bool) (s : Program) : Option Program :=
  (malloc L.base nbytes answers s.heap).map fun r => ⟨r.2, if r.1 = 0 then s.live else ⟨r.1, nbytes⟩ :: s.live⟩

def Program.freed (b : Live) (s : Program) : Option Program :=
  if b ∈ s.live then (free s.heap b.ap).map fun h => ⟨h, s.live.erase b⟩ else none

theorem Reach.got {s s' : Program} (h : Reach L s) {nbytes : Nat} (hBytes : nbytes < uaddrSz) {answers : List Bool}
    (hRun : s.got L nbytes answers = some s') : Reach L s' := by
  obtain ⟨r, hMalloc, rfl⟩ := Option.map_eq_some_iff.mp hRun
  exact h.malloc hBytes hMalloc

theorem Reach.freed {s s' : Program} (h : Reach L s) {b : Live} (hRun : s.freed b = some s') : Reach L s' := by
  rw [Program.freed] at hRun
  split_ifs at hRun with hLive
  obtain ⟨h', hFree, rfl⟩ := Option.map_eq_some_iff.mp hRun
  exact h.free hLive hFree

/-- Three blocks are got, the one in the middle is given back, and a part of it is got again. -/
def exampleRun : Option Program :=
  (Program.got exampleLayout 100 [true] ⟨⟨fun _ => ⟨0, 0⟩, 0, exampleLayout.start⟩, []⟩).bind fun s =>
    (s.got exampleLayout 40 []).bind fun s => (s.got exampleLayout 60 []).bind fun s =>
      (s.freed ⟨36712, 40⟩).bind (Program.got exampleLayout 8 [])

theorem heap_ordered_example : ∃ s, exampleRun = some s ∧ s.live = [⟨36744, 8⟩, ⟨36640, 60⟩, ⟨36760, 100⟩] ∧
    s.heap.ptr 4096 = 36704 ∧ Ordered exampleLayout s.heap [36736, 36632, 36752] ∧ free s.heap 36640 ≠ none := by
  have hResult : exampleRun.map (fun s => (s.live, s.heap.ptr 4096)) =
      some ([⟨36744, 8⟩, ⟨36640, 60⟩, ⟨36760, 100⟩], 36704) := by decide +kernel
  obtain ⟨s, hRun, hEq⟩ := Option.map_eq_some_iff.mp hResult
  obtain ⟨hLive, hHole⟩ := Prod.mk.inj hEq
  have hReach : Reach exampleLayout s := by
    obtain ⟨s₁, h₁, hRun⟩ := Option.bind_eq_some_iff.mp hRun
    obtain ⟨s₂, h₂, hRun⟩ := Option.bind_eq_some_iff.mp hRun
    obtain ⟨s₃, h₃, hRun⟩ := Option.bind_eq_some_iff.mp hRun
    obtain ⟨s₄, h₄, h₅⟩ := Option.bind_eq_some_iff.mp hRun
    have hReach₁ := (Reach.start fun _ => ⟨0, 0⟩).got (by decide) h₁
    exact (((hReach₁.got (by decide) h₂).got (by decide) h₃).freed h₄).got (by decide) h₅
  obtain ⟨-, hFree, -, hOrdered⟩ := heap_ordered hReach
  refine ⟨s, hRun, hLive, hHole, ?_, ?_⟩
  · rwa [hLive] at hOrdered
  · rw [hLive] at hFree
    exact hFree ⟨36640, 60⟩ (by decide)

end Xv6Rpi.Umalloc
