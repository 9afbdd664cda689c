import Xv6Rpi.Lib.Links
import Xv6Rpi.Umalloc.Model

/-! # The free list

The free blocks, behind the header `base`, are in the order of their addresses, linked into a ring,
and none of them begins where another one ends. `free` keeps this: the block is linked in where it
belongs, and joined to its neighbours.
-/

namespace Xv6Rpi.Umalloc

open Links

def Apart (h : Heap) (p q : Nat) : Prop := h.stop p ≤ q ∨ h.stop q ≤ p

theorem Apart.symm {h : Heap} {p q : Nat} (hApart : Apart h p q) : Apart h q p := Or.symm hApart

/-- A heap with these free blocks, and these blocks in use. -/
structure Inv (L : Layout) (h : Heap) (rest taken : List Nat) : Prop where
  ring : Seg h.ptr L.base (L.base :: rest) L.base
  entry : h.freep ∈ L.base :: rest
  base_size : h.size L.base = 0
  sorted : (L.base :: rest).Pairwise fun p q => h.stop p < q
  inside : ∀ p ∈ rest ++ taken, L.start ≤ p ∧ 1 ≤ h.size p ∧ h.stop p ≤ h.brk
  apart : taken.Pairwise (Apart h)
  clear : ∀ p ∈ taken, ∀ q ∈ rest, Apart h p q
  units : L.start + sizeofHeader * ((rest ++ taken).map h.size).sum = h.brk
  brk_le : h.brk ≤ uaddrSz

variable {L : Layout} {h : Heap} {rest taken xs ys : List Nat} {p bp : Nat}

theorem Heap.lt_stop (h : Heap) {p : Nat} (hp : 1 ≤ h.size p) : p < h.stop p := by
  simp only [stop, sizeofHeader]
  omega

theorem Heap.le_stop (h : Heap) (p : Nat) : p ≤ h.stop p := Nat.le_add_right _ _

/-! ## The ring -/

theorem Inv.base_lt (hInv : Inv L h rest taken) {q : Nat} (hq : q ∈ rest ++ taken) : L.base < q := by
  have hStart := (hInv.inside q hq).1
  have hBase := L.base_lt
  simp only [sizeofHeader] at hBase
  omega

theorem Inv.increasing (hInv : Inv L h rest taken) : (L.base :: rest).Pairwise (· < ·) :=
  hInv.sorted.imp fun hLt => lt_of_le_of_lt (h.le_stop _) hLt

/-- A block of the ring leads to the next one, and the last one to the base. -/
theorem Inv.ptr_eq (hInv : Inv L h rest taken) (hSplit : L.base :: rest = xs ++ p :: ys) :
    h.ptr p = ys.headD L.base := by
  have hRing := hInv.ring
  rw [hSplit] at hRing
  exact (seg_split.mp hRing).2.start

/-- The ring has no more cells than `find` takes turns. -/
theorem Inv.length_le (hInv : Inv L h rest taken) : (L.base :: rest).length ≤ uaddrSz := by
  have hNodup : (L.base :: rest).Nodup := hInv.increasing.imp fun hLt => hLt.ne
  have hSub : L.base :: rest ⊆ List.range uaddrSz := by
    intro q hq
    rw [List.mem_range]
    obtain rfl | hq := List.mem_cons.mp hq
    · have hBase := L.base_lt
      have hStart := L.start_le
      simp only [sizeofHeader] at hBase
      omega
    · have hMem : q ∈ rest ++ taken := List.mem_append_left taken hq
      obtain ⟨-, hSize, hStop⟩ := hInv.inside q hMem
      have hLt := h.lt_stop hSize
      have hBrk := hInv.brk_le
      omega
  have hLength := (hNodup.subperm hSub).length_le
  rwa [List.length_range] at hLength

/-! ## Where a block belongs -/

def Stops (h : Heap) (bp p : Nat) : Prop :=
  (bp > p ∧ bp < h.ptr p) ∨ (p ≥ h.ptr p ∧ (bp > p ∨ bp < h.ptr p))

theorem find_of_stops {n : Nat} (hStops : Stops h bp p) : find h bp (n + 1) p = some p := by
  rw [find]
  obtain hBetween | hWrap := hStops
  · rw [if_pos hBetween]
  · rw [if_pos hWrap]
    split
    · rfl
    · rfl

theorem find_of_seg {r z : Nat} (hSeg : Seg h.ptr p (xs ++ r :: ys) z)
    (hPass : ∀ a ∈ xs, ¬ Stops h bp a) (hStops : Stops h bp r) {n : Nat} (hTurns : xs.length < n) :
    find h bp n p = some r := by
  induction xs generalizing p n with
  | nil =>
    obtain ⟨rfl, -⟩ := hSeg
    cases n with
    | zero => exact absurd hTurns (Nat.not_lt_zero _)
    | succ n => exact find_of_stops hStops
  | cons a xs ih =>
    obtain ⟨rfl, hRest⟩ := hSeg
    cases n with
    | zero => exact absurd hTurns (Nat.not_lt_zero _)
    | succ n =>
      have hGo := hPass p List.mem_cons_self
      simp only [Stops, not_or] at hGo
      rw [find, if_neg hGo.1, if_neg hGo.2]
      exact ih hRest (fun b hb => hPass b (List.mem_cons_of_mem p hb)) (by simpa using hTurns)

theorem exists_before {c : Nat} {l : List Nat} (hSorted : (c :: l).Pairwise (· < ·)) (hc : c < bp)
    (hFresh : bp ∉ l) :
    ∃ xs p ys, c :: l = xs ++ p :: ys ∧ p < bp ∧ ∀ y ∈ ys, bp < y := by
  induction l generalizing c with
  | nil => exact ⟨[], c, [], rfl, hc, fun y hy => absurd hy List.not_mem_nil⟩
  | cons d l ih =>
    obtain ⟨hHead, hTail⟩ := List.pairwise_cons.mp hSorted
    obtain ⟨hNe, hFresh'⟩ := not_or.mp (fun hMem => hFresh (List.mem_cons.mpr hMem))
    obtain hLt | hGt := Nat.lt_or_gt_of_ne (Ne.symm hNe)
    · obtain ⟨xs, p, ys, hEq, hp, hys⟩ := ih hTail hLt hFresh'
      exact ⟨c :: xs, p, ys, by rw [hEq, List.cons_append], hp, hys⟩
    · refine ⟨[], c, d :: l, rfl, hc, ?_⟩
      intro y hy
      obtain rfl | hy := List.mem_cons.mp hy
      · exact hGt
      · exact hGt.trans ((List.pairwise_cons.mp hTail).1 y hy)

theorem Inv.stops_iff (hInv : Inv L h rest taken) (hSplit : L.base :: rest = xs ++ p :: ys)
    (hBase : L.base < bp) (hp : p < bp) (hys : ∀ y ∈ ys, bp < y) {a : Nat}
    (ha : a ∈ L.base :: rest) : Stops h bp a ↔ a = p := by
  have hSorted := hInv.increasing
  constructor
  · intro hStops
    by_contra hNe
    rw [hSplit] at ha hSorted
    obtain hLeft | hRight := List.mem_append.mp ha
    · -- before `p` the ring goes up, but not beyond `p`
      obtain ⟨us, vs, rfl⟩ := List.append_of_mem hLeft
      have hPtr := hInv.ptr_eq (show L.base :: rest = us ++ a :: (vs ++ p :: ys) by simp [hSplit])
      have hUp : a < h.ptr a ∧ h.ptr a ≤ p := by
        rw [List.append_assoc, List.pairwise_append, List.cons_append, List.pairwise_cons,
          List.pairwise_append, List.pairwise_cons] at hSorted
        obtain ⟨-, ⟨hAbove, -, -, hCross⟩, -⟩ := hSorted
        cases vs with
        | nil =>
          rw [hPtr]
          exact ⟨hAbove p (by simp), le_rfl⟩
        | cons v vs =>
          rw [hPtr]
          exact ⟨hAbove v (by simp), (hCross v List.mem_cons_self p List.mem_cons_self).le⟩
      simp only [Stops] at hStops
      omega
    · obtain rfl | hRight := List.mem_cons.mp hRight
      · exact hNe rfl
      · -- behind `p` the ring is above the block, and so is no wrap
        have hAbove := hys a hRight
        have hPtr : a < h.ptr a ∨ h.ptr a = L.base := by
          obtain ⟨us, vs, rfl⟩ := List.append_of_mem hRight
          have hPtr := hInv.ptr_eq (show L.base :: rest = (xs ++ p :: us) ++ a :: vs by simp [hSplit])
          cases vs with
          | nil => exact .inr hPtr
          | cons v vs =>
            rw [List.pairwise_append, List.pairwise_cons, List.pairwise_append,
              List.pairwise_cons] at hSorted
            obtain ⟨-, ⟨-, -, ⟨hUp, -⟩, -⟩, -⟩ := hSorted
            rw [hPtr]
            exact .inl (hUp v List.mem_cons_self)
        simp only [Stops] at hStops
        omega
  · rintro rfl
    have hPtr := hInv.ptr_eq hSplit
    cases ys with
    | nil =>
      have hFirst : L.base ≤ a := by
        obtain rfl | hMem := List.mem_cons.mp ha
        · exact le_rfl
        · exact ((List.pairwise_cons.mp hSorted).1 a hMem).le
      rw [List.headD_nil] at hPtr
      right
      omega
    | cons y ys =>
      have hAbove := hys y List.mem_cons_self
      rw [List.headD_cons] at hPtr
      left
      omega

structure Entered (h : Heap) (ring zs : List Nat) : Prop where
  seg : Seg h.ptr (h.ptr h.freep) zs h.freep
  fresh : h.freep ∉ zs
  mem_iff : ∀ z, z ∈ zs ∨ z = h.freep ↔ z ∈ ring
  length_eq : zs.length + 1 = ring.length

theorem Inv.entered (hInv : Inv L h rest taken) : ∃ zs, Entered h (L.base :: rest) zs := by
  obtain ⟨us, vs, hEntry⟩ := List.append_of_mem hInv.entry
  have hRing := hInv.ring
  have hNodup : (L.base :: rest).Nodup := hInv.increasing.imp fun hLt => hLt.ne
  rw [hEntry] at hRing hNodup
  rw [List.nodup_append, List.nodup_cons] at hNodup
  obtain ⟨-, ⟨hFresh, -⟩, hCross⟩ := hNodup
  refine ⟨vs ++ us, hRing.rotate, ?_, ?_, ?_⟩
  · rw [List.mem_append, not_or]
    exact ⟨hFresh, fun hIn => hCross _ hIn _ List.mem_cons_self rfl⟩
  · intro z
    rw [hEntry]
    simp only [List.mem_cons, List.mem_append]
    tauto
  · rw [hEntry]
    simp only [List.length_cons, List.length_append]
    omega

theorem Inv.find_eq (hInv : Inv L h rest taken) (hSplit : L.base :: rest = xs ++ p :: ys)
    (hBase : L.base < bp) (hp : p < bp) (hys : ∀ y ∈ ys, bp < y) :
    find h bp uaddrSz h.freep = some p := by
  have hMem : p ∈ L.base :: rest := by
    rw [hSplit]
    exact List.mem_append_right xs List.mem_cons_self
  obtain ⟨zs, hEntered⟩ := hInv.entered
  have hSeg : Seg h.ptr h.freep (h.freep :: zs) h.freep := ⟨rfl, hEntered.seg⟩
  have hSame : ∀ a, a ∈ h.freep :: zs ↔ a ∈ L.base :: rest := by
    intro a
    rw [← hEntered.mem_iff, List.mem_cons]
    exact or_comm
  have hLength : (h.freep :: zs).length = (L.base :: rest).length := hEntered.length_eq
  obtain ⟨as, bs, hList, hFirst⟩ := List.eq_append_cons_of_mem ((hSame p).mpr hMem)
  rw [hList] at hSeg hSame hLength
  refine find_of_seg hSeg ?_ ((hInv.stops_iff hSplit hBase hp hys hMem).mpr rfl) ?_
  · intro a ha hStops
    have haRing := (hSame a).mp (List.mem_append_left _ ha)
    rw [(hInv.stops_iff hSplit hBase hp hys haRing).mp hStops] at ha
    exact hFirst ha
  · have hLe := hInv.length_le
    rw [← hLength, List.length_append, List.length_cons] at hLe
    omega

/-! ## Joining a block to the ones behind it -/

/-- The blocks `zs` have followed `a`, and now `ws` do: the first of them is part of `a` if it
began where `a` ended. -/
structure Joined (base : Nat) (h h' : Heap) (a : Nat) (zs ws : List Nat) : Prop where
  way : ws = zs ∧ h'.size a = h.size a ∨
    ∃ z, zs = z :: ws ∧ z = h.stop a ∧ h'.size a = h.size a + h.size z
  ring : Seg h'.ptr (h'.ptr a) ws base
  sorted : (a :: ws).Pairwise fun p q => h'.stop p < q
  sum : h'.size a + (ws.map h'.size).sum = h.size a + (zs.map h.size).sum
  other : ∀ q, q ≠ a → h'.ptr q = h.ptr q ∧ h'.size q = h.size q
  brk : h'.brk = h.brk

theorem join_joined {base a : Nat} {zs : List Nat} (hSeg : Seg h.ptr (zs.headD base) zs base)
    (hSorted : zs.Pairwise fun p q => h.stop p < q) (hAbove : ∀ z ∈ zs, a < z ∧ h.stop a ≤ z)
    (hLast : zs = [] → base < a) :
    ∃ ws, Joined base h (join h a (zs.headD base)) a zs ws := by
  cases zs with
  | nil =>
    have hApart : h.stop a ≠ base := by
      have hBase := hLast rfl
      have hLe := h.le_stop a
      omega
    have hJoin : join h a base = h.setPtr a base := by rw [join, if_neg hApart]
    refine ⟨[], ?_⟩
    rw [List.headD_nil, hJoin]
    constructor
    · exact .inl ⟨rfl, by simp⟩
    · simp
    · simp
    · simp
    · intro q hq
      simp [hq]
    · rfl
  | cons b zs =>
    obtain ⟨hHead, hTail⟩ := List.pairwise_cons.mp hSorted
    obtain ⟨hLt, hLe⟩ := hAbove b List.mem_cons_self
    obtain ⟨-, hRest⟩ := hSeg
    have hOther : ∀ z ∈ zs, z ≠ a := by
      intro z hz
      have hUp := (hAbove z (List.mem_cons_of_mem b hz)).1
      omega
    rw [List.headD_cons]
    by_cases hMeet : h.stop a = b
    · -- `b` becomes part of `a`
      have hJoin : join h a b = (h.setSize a (h.size a + h.size b)).setPtr a (h.ptr b) := by
        rw [join, if_pos hMeet]
      have hSize : ∀ q, (join h a b).size q = if q = a then h.size a + h.size b else h.size q := by
        intro q
        rw [hJoin]
        simp
      have hPtr : ∀ q, (join h a b).ptr q = if q = a then h.ptr b else h.ptr q := by
        intro q
        rw [hJoin]
        simp
      have hSizes : zs.map (join h a b).size = zs.map h.size := by
        apply List.map_congr_left
        intro z hz
        rw [hSize, if_neg (hOther z hz)]
      refine ⟨zs, ?_⟩
      constructor
      · refine .inr ⟨b, rfl, hMeet.symm, ?_⟩
        rw [hSize, if_pos rfl]
      · rw [hPtr, if_pos rfl]
        apply hRest.congr
        intro z hz
        rw [hPtr, if_neg (hOther z hz)]
      · refine List.pairwise_cons.mpr ⟨?_, ?_⟩
        · intro z hz
          have hBehind := hHead z hz
          simp only [Heap.stop, sizeofHeader] at hBehind hMeet ⊢
          rw [hSize, if_pos rfl]
          omega
        · refine hTail.imp_of_mem ?_
          intro p q hp _ hStop
          simp only [Heap.stop] at hStop ⊢
          rwa [hSize, if_neg (hOther p hp)]
      · rw [hSizes, hSize, if_pos rfl, List.map_cons, List.sum_cons]
        omega
      · intro q hq
        rw [hPtr, hSize, if_neg hq, if_neg hq]
        exact ⟨rfl, rfl⟩
      · rw [hJoin]
        rfl
    · have hJoin : join h a b = h.setPtr a b := by rw [join, if_neg hMeet]
      rw [hJoin]
      refine ⟨b :: zs, ?_⟩
      constructor
      · exact .inl ⟨rfl, by simp⟩
      · refine ⟨by simp, ?_⟩
        simp only [Heap.ptr_setPtr, if_neg hLt.ne']
        apply hRest.congr
        intro z hz
        simp [hOther z hz]
      · refine List.pairwise_cons.mpr ⟨?_, ?_⟩
        · intro z hz
          simp only [Heap.stop, Heap.size_setPtr]
          obtain rfl | hz := List.mem_cons.mp hz
          · exact lt_of_le_of_ne hLe hMeet
          · have hBehind := hHead z hz
            have hLeB := h.le_stop b
            simp only [Heap.stop] at hLe hBehind hLeB
            omega
        · simpa only [Heap.stop, Heap.size_setPtr] using hSorted
      · have hSizes : (h.setPtr a b).size = h.size := by
          funext q
          exact h.size_setPtr a q b
        rw [hSizes]
      · intro q hq
        simp [hq]
      · rfl

theorem Joined.subset {base a : Nat} {h' : Heap} {zs ws : List Nat}
    (hJoined : Joined base h h' a zs ws) : ws ⊆ zs := by
  obtain ⟨rfl, -⟩ | ⟨z, rfl, -⟩ := hJoined.way
  · exact List.Subset.refl ws
  · exact List.subset_cons_self z ws

theorem Joined.size {base a : Nat} {h' : Heap} {zs ws : List Nat}
    (hJoined : Joined base h h' a zs ws) :
    h'.size a = h.size a ∨ ∃ z ∈ zs, z = h.stop a ∧ h'.size a = h.size a + h.size z := by
  obtain ⟨-, hSame⟩ | ⟨z, rfl, hMeet, hGrown⟩ := hJoined.way
  · exact .inl hSame
  · exact .inr ⟨z, List.mem_cons_self, hMeet, hGrown⟩

theorem Joined.stop_other {base a : Nat} {h' : Heap} {zs ws : List Nat}
    (hJoined : Joined base h h' a zs ws) {q : Nat} (hq : q ≠ a) : h'.stop q = h.stop q := by
  simp only [Heap.stop, (hJoined.other q hq).2]

theorem Joined.cover {base a : Nat} {h' : Heap} {zs ws : List Nat}
    (hJoined : Joined base h h' a zs ws) {i j : Nat} (hij : i < j)
    (hOut : ∀ z ∈ a :: zs, j ≤ z ∨ h.stop z ≤ i) : ∀ z ∈ a :: ws, j ≤ z ∨ h'.stop z ≤ i := by
  intro z hz
  by_cases hza : z = a
  · subst hza
    have hHere := hOut z List.mem_cons_self
    obtain hSame | ⟨b, hb, hMeet, hGrown⟩ := hJoined.size
    · simp only [Heap.stop] at hHere ⊢
      rwa [hSame]
    · have hNext := hOut b (List.mem_cons_of_mem z hb)
      simp only [Heap.stop, sizeofHeader] at hHere hNext hMeet ⊢
      omega
  · obtain rfl | hz := List.mem_cons.mp hz
    · exact absurd rfl hza
    · rw [hJoined.stop_other hza]
      exact hOut z (List.mem_cons_of_mem a (hJoined.subset hz))

theorem Joined.stop_le {base a : Nat} {h' : Heap} {zs ws : List Nat}
    (hJoined : Joined base h h' a zs ws) {top : Nat} (hTop : ∀ z ∈ a :: zs, h.stop z ≤ top) :
    ∀ z ∈ a :: ws, h'.stop z ≤ top := by
  intro z hz
  by_cases hza : z = a
  · subst hza
    have hHere := hTop z List.mem_cons_self
    obtain hSame | ⟨b, hb, hMeet, hGrown⟩ := hJoined.size
    · simp only [Heap.stop] at hHere ⊢
      rwa [hSame]
    · have hNext := hTop b (List.mem_cons_of_mem z hb)
      simp only [Heap.stop, sizeofHeader] at hHere hNext hMeet ⊢
      omega
  · obtain rfl | hz := List.mem_cons.mp hz
    · exact absurd rfl hza
    · rw [hJoined.stop_other hza]
      exact hTop z (List.mem_cons_of_mem a (hJoined.subset hz))

theorem Joined.size_le {base a : Nat} {h' : Heap} {zs ws : List Nat}
    (hJoined : Joined base h h' a zs ws) (q : Nat) : h.size q ≤ h'.size q := by
  by_cases hq : q = a
  · subst hq
    obtain hSame | ⟨b, -, -, hGrown⟩ := hJoined.size
    · exact hSame.ge
    · omega
  · exact (hJoined.other q hq).2.ge

/-! ## Freeing a block -/

structure Freed (L : Layout) (h h' : Heap) (bp : Nat) (taken : List Nat) (rest' : List Nat) :
    Prop where
  inv : Inv L h' rest' taken
  brk : h'.brk = h.brk
  taken : ∀ q ∈ taken, h'.size q = h.size q
  room : ∃ q ∈ rest', h.size bp ≤ h'.size q

theorem exists_rest {base : Nat} {zs ws : List Nat} (hSplit : base :: rest = xs ++ p :: zs) :
    ∃ rest', base :: rest' = xs ++ p :: ws := by
  cases xs with
  | nil =>
    rw [List.nil_append, List.cons.injEq] at hSplit
    exact ⟨ws, by rw [List.nil_append, hSplit.1]⟩
  | cons x xs =>
    rw [List.cons_append, List.cons.injEq] at hSplit
    exact ⟨xs ++ p :: ws, by rw [List.cons_append, hSplit.1]⟩

/-- Wherever the block goes, it is above the base and above the free block before it. -/
theorem Inv.place (hInv : Inv L h rest (bp :: taken)) :
    ∃ xs p ys, L.base :: rest = xs ++ p :: ys ∧ L.base < bp ∧ h.stop p ≤ bp ∧ p < bp ∧
      ∀ y ∈ ys, bp < y ∧ h.stop bp ≤ y := by
  have hMem : bp ∈ rest ++ bp :: taken := List.mem_append_right rest List.mem_cons_self
  have hBase := hInv.base_lt hMem
  have hLess := h.lt_stop (hInv.inside bp hMem).2.1
  have hClear : ∀ q ∈ rest, h.stop bp ≤ q ∨ h.stop q ≤ bp := hInv.clear bp List.mem_cons_self
  have hFresh : bp ∉ rest := by
    intro hIn
    have hSelf := hClear bp hIn
    omega
  obtain ⟨xs, p, ys, hSplit, hp, hys⟩ := exists_before hInv.increasing hBase hFresh
  have hRing : ∀ q, q ∈ xs ++ p :: ys → q = L.base ∨ q ∈ rest := by
    intro q hq
    rw [← hSplit] at hq
    exact List.mem_cons.mp hq
  refine ⟨xs, p, ys, hSplit, hBase, ?_, hp, ?_⟩
  · obtain rfl | hp' := hRing p (by simp)
    · simp only [Heap.stop, hInv.base_size]
      omega
    · have hApart := hClear p hp'
      omega
  · intro y hy
    have hLt := hys y hy
    obtain rfl | hy' := hRing y (by simp [hy])
    · omega
    · have hApart := hClear y hy'
      have hLe := h.le_stop y
      exact ⟨hLt, by omega⟩

theorem mem_ring {base : Nat} (hSplit : base :: rest = xs ++ p :: ys) {z : Nat}
    (hz : z ∈ p :: bp :: ys) : z = base ∨ z = bp ∨ z ∈ rest := by
  have hRing : z ∈ xs ++ p :: ys → z = base ∨ z ∈ rest := by
    intro hz
    rw [← hSplit] at hz
    exact List.mem_cons.mp hz
  obtain rfl | hz := List.mem_cons.mp hz
  · exact (hRing (by simp)).imp_right .inr
  · obtain rfl | hz := List.mem_cons.mp hz
    · exact .inr (.inl rfl)
    · exact (hRing (by simp [hz])).imp_right .inr

theorem Inv.start_le_brk (hInv : Inv L h rest taken) : L.start ≤ h.brk := by
  have hUnits := hInv.units
  omega

theorem Inv.stop_base (hInv : Inv L h rest taken) : h.stop L.base = L.base := by
  simp only [Heap.stop, hInv.base_size, Nat.mul_zero, Nat.add_zero]

theorem Inv.stop_around (hInv : Inv L h rest (bp :: taken)) (hSplit : L.base :: rest = xs ++ p :: ys)
    {z : Nat} (hz : z ∈ p :: bp :: ys) : h.stop z ≤ h.brk := by
  obtain rfl | rfl | hRest := mem_ring hSplit hz
  · have hStart := hInv.start_le_brk
    have hBelow := L.base_lt
    rw [hInv.stop_base]
    omega
  · exact (hInv.inside z (List.mem_append_right rest List.mem_cons_self)).2.2
  · exact (hInv.inside z (List.mem_append_left _ hRest)).2.2

theorem Inv.clear_around (hInv : Inv L h rest (bp :: taken)) (hSplit : L.base :: rest = xs ++ p :: ys)
    {q : Nat} (hq : q ∈ taken) {z : Nat} (hz : z ∈ p :: bp :: ys) :
    h.stop q ≤ z ∨ h.stop z ≤ q := by
  obtain rfl | rfl | hRest := mem_ring hSplit hz
  · have hBase := hInv.base_lt (q := q) (by simp [hq])
    rw [hInv.stop_base]
    exact .inr hBase.le
  · exact ((List.pairwise_cons.mp hInv.apart).1 q hq).symm
  · exact hInv.clear q (List.mem_cons_of_mem bp hq) z hRest

theorem Inv.free_spec (hInv : Inv L h rest (bp :: taken)) :
    ∃ h' rest', free h (bp + sizeofHeader) = some h' ∧ Freed L h h' bp taken rest' := by
  obtain ⟨xs, p, ys, hSplit, hBase, hStopP, hp, hys⟩ := hInv.place
  have hFind := hInv.find_eq hSplit hBase hp fun y hy => (hys y hy).1
  have hPtr := hInv.ptr_eq hSplit
  have hRing := hInv.ring
  have hSorted := hInv.sorted
  have hIncreasing := hInv.increasing
  rw [hSplit] at hRing hSorted hIncreasing
  obtain ⟨hSegLeft, hSegRight⟩ := seg_split.mp hRing
  obtain ⟨hSortedLeft, hSortedRight, hCross⟩ := List.pairwise_append.mp hSorted
  obtain ⟨hBehindP, hSortedYs⟩ := List.pairwise_cons.mp hSortedRight
  obtain ⟨-, hIncRight, hIncCross⟩ := List.pairwise_append.mp hIncreasing
  rw [hPtr] at hSegRight
  obtain ⟨ws, hUpper⟩ := join_joined hSegRight hSortedYs hys fun _ => hBase
  rw [← hPtr] at hUpper
  generalize hHeap₁ : join h bp (h.ptr p) = h₁ at hUpper
  have hStopP₁ : h₁.stop p = h.stop p := hUpper.stop_other hp.ne
  have hSeg₁ : Seg h₁.ptr ((bp :: ws).headD L.base) (bp :: ws) L.base := ⟨rfl, hUpper.ring⟩
  have hAbove : ∀ z ∈ bp :: ws, p < z ∧ h₁.stop p ≤ z := by
    intro z hz
    rw [hStopP₁]
    obtain rfl | hz := List.mem_cons.mp hz
    · exact ⟨hp, hStopP⟩
    · have hy := hys z (hUpper.subset hz)
      omega
  obtain ⟨vs, hLower⟩ := join_joined hSeg₁ hUpper.sorted hAbove (fun h => absurd h (by simp))
  rw [List.headD_cons] at hLower
  generalize hHeap₂ : join h₁ p bp = h₂ at hLower
  obtain ⟨rest', hRest'⟩ := @exists_rest _ _ _ _ _ vs hSplit
  refine ⟨{ h₂ with freep := p }, rest', ?_, ?_⟩
  · rw [free, Nat.add_sub_cancel]
    simp only [hFind, hHeap₁, hHeap₂]
  have hOther : ∀ q, q ≠ p → q ≠ bp → h₂.ptr q = h.ptr q ∧ h₂.size q = h.size q := by
    intro q hqp hqb
    rw [(hLower.other q hqp).1, (hLower.other q hqp).2]
    exact hUpper.other q hqb
  have hLeft : ∀ q ∈ xs, q ≠ p ∧ q ≠ bp := by
    intro q hq
    have hLt := hIncCross q hq p List.mem_cons_self
    omega
  have hOldMem : ∀ q ∈ xs ++ p :: ys, q = L.base ∨ q ∈ rest := by
    intro q hq
    rw [← hSplit] at hq
    exact List.mem_cons.mp hq
  have hNewMem : ∀ q ∈ p :: vs, q = p ∨ q = bp ∨ q ∈ ys := by
    intro q hq
    obtain rfl | hq := List.mem_cons.mp hq
    · exact .inl rfl
    · obtain rfl | hq := List.mem_cons.mp (hLower.subset hq)
      · exact .inr (.inl rfl)
      · exact .inr (.inr (hUpper.subset hq))
  have hTop : ∀ q ∈ p :: vs, h₂.stop q ≤ h.brk := by
    apply hLower.stop_le
    intro z hz
    obtain rfl | hz := List.mem_cons.mp hz
    · rw [hStopP₁]
      exact hInv.stop_around hSplit List.mem_cons_self
    · exact hUpper.stop_le (fun z hz => hInv.stop_around hSplit (List.mem_cons_of_mem p hz)) z hz
  have hCover : ∀ q ∈ taken, ∀ z ∈ p :: vs, h.stop q ≤ z ∨ h₂.stop z ≤ q := by
    intro q hq
    have hLess := h.lt_stop (hInv.inside q (by simp [hq])).2.1
    apply hLower.cover hLess
    intro z hz
    obtain rfl | hz := List.mem_cons.mp hz
    · rw [hStopP₁]
      exact hInv.clear_around hSplit hq List.mem_cons_self
    · exact hUpper.cover hLess
        (fun z hz => hInv.clear_around hSplit hq (List.mem_cons_of_mem p hz)) z hz
  have hTaken : ∀ q ∈ taken, h₂.size q = h.size q := by
    intro q hq
    have hLess := h.lt_stop (hInv.inside q (by simp [hq])).2.1
    refine (hOther q ?_ ?_).2
    · rintro rfl
      have hSelf := hInv.clear_around hSplit hq (z := q) (by simp)
      omega
    · rintro rfl
      have hSelf := hInv.clear_around hSplit hq (z := q) (by simp)
      omega
  have hStopTaken : ∀ q ∈ taken, h₂.stop q = h.stop q := by
    intro q hq
    simp only [Heap.stop, hTaken q hq]
  have hStopLeft : ∀ q ∈ xs, h₂.stop q = h.stop q := by
    intro q hq
    simp only [Heap.stop, (hOther q (hLeft q hq).1 (hLeft q hq).2).2]
  have hBaseSize : h₂.size L.base = 0 := by
    have hBaseMem : L.base ∈ xs ++ p :: ys := by
      rw [← hSplit]
      exact List.mem_cons_self
    by_cases hBaseP : L.base = p
    · obtain hSame | ⟨z, hz, hMeet, -⟩ := hLower.size
      · rw [hBaseP, hSame, (hUpper.other p hp.ne).2, ← hBaseP, hInv.base_size]
      · rw [hStopP₁, ← hBaseP, hInv.stop_base, hBaseP] at hMeet
        have hUp := (hAbove z hz).1
        omega
    · rw [(hOther L.base hBaseP hBase.ne).2, hInv.base_size]
  have hSum : (rest'.map h₂.size).sum = (rest.map h.size).sum + h.size bp := by
    have hOld : ((L.base :: rest).map h.size).sum = ((xs ++ p :: ys).map h.size).sum := by
      rw [hSplit]
    have hNew : ((L.base :: rest').map h₂.size).sum = ((xs ++ p :: vs).map h₂.size).sum := by
      rw [hRest']
    have hLeftSizes : xs.map h₂.size = xs.map h.size :=
      List.map_congr_left fun q hq => (hOther q (hLeft q hq).1 (hLeft q hq).2).2
    have hSumUpper := hUpper.sum
    have hSumLower := hLower.sum
    have hSizeP := (hUpper.other p hp.ne).2
    simp only [List.map_cons, List.sum_cons, List.map_append, List.sum_append, hBaseSize,
      hInv.base_size, hLeftSizes] at hOld hNew hSumLower
    omega
  have hSorted' : (L.base :: rest').Pairwise fun p q => h₂.stop p < q := by
    rw [hRest']
    refine List.pairwise_append.mpr ⟨?_, hLower.sorted, ?_⟩
    · refine hSortedLeft.imp_of_mem ?_
      intro q r hq _ hLt
      rwa [hStopLeft q hq]
    · intro q hq r hr
      rw [hStopLeft q hq]
      have hBelow := hCross q hq p List.mem_cons_self
      obtain rfl | rfl | hr := hNewMem r hr
      · exact hBelow
      · omega
      · have hAboveR := (hys r hr).1
        omega
  have hMemRest : ∀ q ∈ rest', q ∈ xs ∨ q ∈ p :: vs := by
    intro q hq
    have hIn : q ∈ L.base :: rest' := List.mem_cons_of_mem _ hq
    rw [hRest'] at hIn
    exact List.mem_append.mp hIn
  have hBelowRest : ∀ q ∈ rest', L.base < q := by
    intro q hq
    have hLt := (List.pairwise_cons.mp hSorted').1 q hq
    have hLe := h₂.le_stop L.base
    omega
  have hOldRest : ∀ q ∈ rest', q = bp ∨ q ∈ rest := by
    intro q hq
    have hLt := hBelowRest q hq
    have hIn : q ∈ xs ++ p :: ys ∨ q = bp := by
      obtain hq | hq := hMemRest q hq
      · exact .inl (List.mem_append_left _ hq)
      · obtain rfl | rfl | hq := hNewMem q hq
        · exact .inl (by simp)
        · exact .inr rfl
        · exact .inl (by simp [hq])
    obtain hIn | hIn := hIn
    · rw [← hSplit] at hIn
      obtain rfl | hIn := List.mem_cons.mp hIn
      · omega
      · exact .inr hIn
    · exact .inl hIn
  have hGrow : ∀ q, h.size q ≤ h₂.size q := fun q => (hUpper.size_le q).trans (hLower.size_le q)
  have hBrk : h₂.brk = h.brk := hLower.brk.trans hUpper.brk
  constructor
  · constructor
    · rw [hRest']
      refine seg_split.mpr ⟨?_, hLower.ring⟩
      exact hSegLeft.congr fun q hq => (hOther q (hLeft q hq).1 (hLeft q hq).2).1
    · rw [hRest']
      exact List.mem_append_right xs List.mem_cons_self
    · exact hBaseSize
    · exact hSorted'
    · intro q hq
      change L.start ≤ q ∧ 1 ≤ h₂.size q ∧ h₂.stop q ≤ h₂.brk
      have hOldIn : q ∈ rest ++ bp :: taken := by
        obtain hq | hq := List.mem_append.mp hq
        · obtain rfl | hq := hOldRest q hq
          · simp
          · simp [hq]
        · simp [hq]
      obtain ⟨hFrom, hSize, hStop⟩ := hInv.inside q hOldIn
      refine ⟨hFrom, hSize.trans (hGrow q), ?_⟩
      rw [hBrk]
      obtain hq | hq := List.mem_append.mp hq
      · obtain hq | hq := hMemRest q hq
        · rwa [hStopLeft q hq]
        · exact hTop q hq
      · rwa [hStopTaken q hq]
    · refine (List.pairwise_cons.mp hInv.apart).2.imp_of_mem ?_
      intro q r hq hr hApart
      change h₂.stop q ≤ r ∨ h₂.stop r ≤ q
      rwa [hStopTaken q hq, hStopTaken r hr]
    · intro q hq r hr
      change h₂.stop q ≤ r ∨ h₂.stop r ≤ q
      rw [hStopTaken q hq]
      obtain hr' | hr' := hMemRest r hr
      · rw [hStopLeft r hr']
        obtain rfl | hOld := hOldRest r hr
        · exact absurd rfl (hLeft r hr').2
        · exact hInv.clear q (List.mem_cons_of_mem bp hq) r hOld
      · exact hCover q hq r hr'
    · change L.start + sizeofHeader * ((rest' ++ taken).map h₂.size).sum = h₂.brk
      have hUnits := hInv.units
      have hSizes : taken.map h₂.size = taken.map h.size := List.map_congr_left hTaken
      rw [List.map_append, List.sum_append, List.map_cons, List.sum_cons] at hUnits
      rw [List.map_append, List.sum_append, hSum, hSizes, hBrk, ← hUnits,
        Nat.add_assoc (rest.map h.size).sum]
    · change h₂.brk ≤ uaddrSz
      rw [hBrk]
      exact hInv.brk_le
  · exact hBrk
  · exact hTaken
  · obtain ⟨hWhole, -⟩ | ⟨z, hPart, -, hSize⟩ := hLower.way
    · refine ⟨bp, ?_, hGrow bp⟩
      have hIn : bp ∈ L.base :: rest' := by
        rw [hRest', hWhole]
        simp
      obtain hEq | hIn := List.mem_cons.mp hIn
      · omega
      · exact hIn
    · -- the block is part of the one before it, which is not the base
      rw [List.cons.injEq] at hPart
      rw [← hPart.1] at hSize
      have hBpSize := (hInv.inside bp (List.mem_append_right rest List.mem_cons_self)).2.1
      have hBpGrow := hUpper.size_le bp
      refine ⟨p, ?_, ?_⟩
      · have hIn : p ∈ L.base :: rest' := by
          rw [hRest']
          simp
        obtain hEq | hIn := List.mem_cons.mp hIn
        · rw [hEq, hBaseSize] at hSize
          omega
        · exact hIn
      · change h.size bp ≤ h₂.size p
        omega

end Xv6Rpi.Umalloc
