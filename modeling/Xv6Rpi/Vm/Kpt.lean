import Xv6Rpi.Buddy.Boot

/-! # Page-table pages

`kpt_alloc` and `kpt_free` of vm.c keep the page-table pages of the initial kernel map in
a list of their own and take the others from the buddy allocator. The list is threaded
through the free pages themselves; here it is a list of addresses.
-/

namespace Xv6Rpi.Vm

open Buddy

def ptSz : Nat := 1024
def ptOrder : Nat := 10

structure KptMem where
  freelist : List Nat
  kmem : Kmem

def _kptFree (m : KptMem) (v : Nat) : KptMem := { m with freelist := v :: m.freelist }

def kptFree (m : KptMem) (v : Nat) : Except Panic KptMem :=
  if p2v kernlink ≤ v then (kfree m.kmem v ptOrder).map fun k => { m with kmem := k }
  else .ok (_kptFree m v)

/-- The addresses stay below `hi`, so the loop cannot wrap around. -/
def kptFreerange (m : KptMem) (low hi : Nat) : KptMem :=
  if low < hi then kptFreerange (_kptFree m low) (low + ptSz) hi else m
termination_by hi - low
decreasing_by
  simp only [ptSz]
  omega

def kptAlloc (m : KptMem) : Except Panic (Nat × KptMem) :=
  match m.freelist with
  | r :: rest => .ok (r, { m with freelist := rest })
  | [] => (kmalloc m.kmem ptOrder).bind fun r =>
    if r.1 = 0 then .error .oomKptAlloc else .ok (r.1, { m with kmem := r.2 })

/-- The part of `kmain` that fills both pools; `kernEnd` is the address of the linker's
symbol `end`. -/
def kmainMem (m : KptMem) (kernEnd : Nat) : Except Panic KptMem :=
  let m := kptFreerange { m with freelist := [] } (alignUp kernEnd ptSz) (p2v initKernmap)
  (kmemInit2 m.kmem (p2v initKernmap) (p2v paStop)).map fun k => { m with kmem := k }

/-- The two pools with the page-table pages and the buddy blocks in use. -/
structure Pools where
  freelist : List Nat
  heap : Heap
  pages : List Nat

def Pools.mem (s : Pools) : KptMem := ⟨s.freelist, s.heap.kmem⟩

inductive KptCall where
  | kptAlloc
  | kptFree (v : Nat)
  | other (c : Call)

/-- Only page-table pages in use are given to `kpt_free`, and the other users of the
buddy allocator leave them alone. -/
def KptAllowed (s : Pools) : KptCall → Prop
  | .kptAlloc => True
  | .kptFree v => v ∈ s.pages
  | .other c => Allowed s.heap c ∧ ∀ v ∈ s.pages, c ≠ .kfree v ptOrder

def kptExec (s : Pools) : KptCall → Except Panic Pools
  | .kptAlloc => (kptAlloc s.mem).map fun r =>
      ⟨r.2.freelist, ⟨r.2.kmem, if s.freelist = [] then (r.1, ptOrder) :: s.heap.live else s.heap.live⟩,
        r.1 :: s.pages⟩
  | .kptFree v => (kptFree s.mem v).map fun m =>
      ⟨m.freelist, ⟨m.kmem, s.heap.live.erase (v, ptOrder)⟩, s.pages.erase v⟩
  | .other c => (exec s.heap c).map fun h => { s with heap := h }

def bootPools (m : KptMem) : Pools := ⟨m.freelist, ⟨m.kmem, []⟩, []⟩

def KptStep (s s' : Pools) : Prop := ∃ c, KptAllowed s c ∧ kptExec s c = .ok s'

/-- The call gives no page of the initial kernel map to `kpt_free`. -/
def KeepsBoot : KptCall → Prop
  | .kptFree v => p2v initKernmap ≤ v
  | _ => True

/-- The page-table pages in use that come from the buddy allocator, as its blocks. -/
def heapPages (s : Pools) : List (Nat × Nat) :=
  (s.pages.filter fun v => p2v initKernmap ≤ v).map fun v => (v, ptOrder)

def kernmapPages (s : Pools) : List Nat := s.freelist ++ s.pages.filter fun v => v < p2v initKernmap

structure PoolsInv (boot : KptMem) (s : Pools) : Prop where
  run : Relation.ReflTransGen Step ⟨boot.kmem, []⟩ s.heap
  heap : (heapPages s).Subperm s.heap.live
  kernmap : boot.freelist.Perm (kernmapPages s)

section Boot

theorem mem_kptFreerange {m : KptMem} {low hi v : Nat} (h : v ∈ (kptFreerange m low hi).freelist) :
    v ∈ m.freelist ∨ low ≤ v ∧ v < hi ∧ (v - low) % ptSz = 0 := by
  rw [kptFreerange] at h
  split at h
  · rename_i hlt
    rcases mem_kptFreerange h with hIn | ⟨h1, h2, h3⟩
    · rcases List.mem_cons.mp hIn with rfl | hIn
      · exact Or.inr ⟨le_rfl, hlt, by rw [Nat.sub_self, Nat.zero_mod]⟩
      · exact Or.inl hIn
    · refine Or.inr ⟨by omega, h2, ?_⟩
      simp only [ptSz] at *
      omega
  · exact Or.inl h
termination_by hi - low
decreasing_by
  simp only [ptSz]
  omega

theorem kptFreerange_kmem (m : KptMem) (low hi : Nat) : (kptFreerange m low hi).kmem = m.kmem := by
  rw [kptFreerange]
  split
  · exact kptFreerange_kmem (_kptFree m low) (low + ptSz) hi
  · rfl
termination_by hi - low
decreasing_by
  simp only [ptSz]
  omega

variable {m₀ m : KptMem} {kernEnd : Nat}

theorem kmainMem_ok (hBoot : kmainMem m₀ kernEnd = .ok m) :
    (∃ k₀, kmemInit2 k₀ bootStart bootStop = .ok m.kmem) ∧
      m.freelist = (kptFreerange { m₀ with freelist := [] } (alignUp kernEnd ptSz) (p2v initKernmap)).freelist := by
  obtain ⟨k, hk, rfl⟩ := map_eq_ok.mp hBoot
  exact ⟨⟨_, hk⟩, rfl⟩

theorem boot_freelist (hLow : kernbase ≤ kernEnd) (hHigh : kernEnd ≤ p2v initKernmap)
    (hBoot : kmainMem m₀ kernEnd = .ok m) {v : Nat} (hv : v ∈ m.freelist) :
    kernbase ≤ v ∧ v + ptSz ≤ p2v initKernmap := by
  rw [(kmainMem_ok hBoot).2] at hv
  have hMap : p2v initKernmap = 0x80100000 := by decide
  have hEnd : alignUp kernEnd ptSz = (kernEnd + 2 ^ 10 - 1) / 2 ^ 10 * 2 ^ 10 :=
    alignUp_eq kernEnd 10 (by decide) (by omega)
  rcases mem_kptFreerange hv with hNil | ⟨h1, h2, h3⟩
  · cases hNil
  · simp only [hMap, ptSz, kernbase] at *
    omega

theorem poolsInv_boot (m : KptMem) : PoolsInv m (bootPools m) where
  run := .refl
  heap := by simp [heapPages, bootPools]
  kernmap := by simp [kernmapPages, bootPools]

end Boot

section Steps

variable {boot : KptMem} {s s' : Pools}

theorem p2v_kernlink : p2v kernlink = 0 := by decide

/-- The comparison in `kpt_free` wraps around: every page goes to `kfree`. -/
theorem kptFree_eq (m : KptMem) (v : Nat) :
    kptFree m v = (kfree m.kmem v ptOrder).map fun k => { m with kmem := k } := by
  rw [kptFree, p2v_kernlink, if_pos (Nat.zero_le v)]

theorem isOrd_ptOrder : IsOrd ptOrder := ⟨by decide, by decide⟩

variable (hInit : ∃ k₀, kmemInit2 k₀ bootStart bootStop = .ok boot.kmem)
  (hFree : ∀ v ∈ boot.freelist, v < p2v initKernmap)

theorem initKernmap_le_heapStart : p2v initKernmap ≤ heapStart bootStart bootStop := by decide +kernel

include hInit in
/-- Live blocks of the buddy allocator lie in its heap, above the initial kernel map. -/
theorem PoolsInv.live_bounds (h : PoolsInv boot s) {a : Nat × Nat} (ha : a ∈ s.heap.live) :
    p2v initKernmap ≤ a.1 ∧ s.heap.kmem.startHeap ≤ a.1 ∧ a.1 + 2 ^ a.2 ≤ s.heap.kmem.stop := by
  obtain ⟨k₀, hk⟩ := hInit
  obtain ⟨hStart, hStop, L, hInv⟩ := Reach.inv region_boot ⟨k₀, boot.kmem, hk, h.run⟩
  obtain ⟨hLow, hHigh⟩ := hInv.live_bounds (by rw [hStop]; decide) ha
  refine ⟨?_, hLow, hHigh⟩
  rw [hStart] at hLow
  exact initKernmap_le_heapStart.trans hLow

include hInit in
theorem PoolsInv.initKernmap_le_avail (h : PoolsInv boot s) {o id : Nat}
    (hBit : HasBit (numMarks bootStart bootStop) o id) (hAvail : Avail s.heap.kmem o id) :
    p2v initKernmap ≤ blkid2mem s.heap.kmem o id := by
  obtain ⟨k₀, hk⟩ := hInit
  obtain ⟨hStart, _, L, hInv⟩ := Reach.inv region_boot ⟨k₀, boot.kmem, hk, h.run⟩
  have hLow := hInv.startHeap_le_avail hBit hAvail
  rw [hStart] at hLow
  exact initKernmap_le_heapStart.trans hLow

include hFree in
theorem PoolsInv.freelist_lt (h : PoolsInv boot s) {v : Nat} (hv : v ∈ s.freelist) : v < p2v initKernmap :=
  hFree v (h.kernmap.mem_iff.mpr (List.mem_append_left _ hv))

theorem heapPages_cons_of_lt {fl : List Nat} {hp : Heap} {v : Nat} (hv : v < p2v initKernmap) :
    heapPages ⟨fl, hp, v :: s.pages⟩ = heapPages s := by
  simp [heapPages, hv]

theorem heapPages_cons_of_le {fl : List Nat} {hp : Heap} {v : Nat} (hv : p2v initKernmap ≤ v) :
    heapPages ⟨fl, hp, v :: s.pages⟩ = (v, ptOrder) :: heapPages s := by
  simp [heapPages, hv]

include hInit hFree in
theorem PoolsInv.kptAlloc (h : PoolsInv boot s) (hs : kptExec s .kptAlloc = .ok s') : PoolsInv boot s' := by
  obtain ⟨⟨v, m⟩, hr, rfl⟩ := map_eq_ok.mp hs
  cases hList : s.freelist with
  | cons r rest =>
    simp only [Vm.kptAlloc, Pools.mem, hList] at hr
    obtain ⟨rfl, rfl⟩ := Prod.mk.inj (Except.ok.inj hr)
    have hr : r < p2v initKernmap := h.freelist_lt hFree (by rw [hList]; exact List.mem_cons_self)
    refine ⟨h.run, ?_, ?_⟩
    · rw [heapPages_cons_of_lt hr]
      exact h.heap
    · have hMap := h.kernmap
      simp only [kernmapPages, hList, List.cons_append] at hMap
      simp only [kernmapPages, List.filter_cons, decide_eq_true hr, if_true]
      exact hMap.trans List.perm_middle.symm
  | nil =>
    simp only [Vm.kptAlloc, Pools.mem, hList] at hr
    obtain ⟨⟨a, k⟩, hk, hEq⟩ := bind_eq_ok.mp hr
    split at hEq
    · cases hEq
    rename_i hPos
    obtain ⟨rfl, rfl⟩ := Prod.mk.inj (Except.ok.inj hEq)
    have hExec : exec s.heap (.kmalloc ptOrder) = .ok ⟨k, (a, ptOrder) :: s.heap.live⟩ := by
      rw [exec, hk]
      simp only [Except.map, if_neg hPos]
    have hRun : Relation.ReflTransGen Step ⟨boot.kmem, []⟩ ⟨k, (a, ptOrder) :: s.heap.live⟩ :=
      h.run.tail ⟨.kmalloc ptOrder, isOrd_ptOrder, hExec⟩
    have ha : p2v initKernmap ≤ a := by
      obtain ⟨k₀, hk₀⟩ := hInit
      exact (PoolsInv.live_bounds ⟨k₀, hk₀⟩ (s := ⟨boot.freelist, ⟨k, (a, ptOrder) :: s.heap.live⟩, []⟩)
        ⟨hRun, by simp [heapPages], by simp [kernmapPages]⟩ List.mem_cons_self).1
    refine ⟨hRun, ?_, ?_⟩
    · rw [heapPages_cons_of_le ha]
      exact (List.subperm_cons _).mpr h.heap
    · have hMap := h.kernmap
      simp only [kernmapPages, hList] at hMap
      simp only [kernmapPages, List.filter_cons, decide_eq_false (Nat.not_lt.mpr ha)]
      exact hMap

/-- A page of the buddy allocator's goes back to it. -/
theorem PoolsInv.kptFree {v : Nat} (h : PoolsInv boot s) (hv : v ∈ s.pages) (hHeap : p2v initKernmap ≤ v)
    (hs : kptExec s (.kptFree v) = .ok s') : PoolsInv boot s' := by
  obtain ⟨m, hm, rfl⟩ := map_eq_ok.mp hs
  rw [kptFree_eq] at hm
  obtain ⟨k, hk, rfl⟩ := map_eq_ok.mp hm
  have hPerm := List.perm_cons_erase hv
  have hPages : (heapPages s).Perm ((v, ptOrder) :: heapPages { s with pages := s.pages.erase v }) := by
    have hCons : heapPages ⟨s.freelist, s.heap, v :: s.pages.erase v⟩ =
        (v, ptOrder) :: heapPages { s with pages := s.pages.erase v } := by simp [heapPages, hHeap]
    rw [← hCons]
    exact (hPerm.filter _).map _
  have hLive : (v, ptOrder) ∈ s.heap.live :=
    h.heap.subset (hPages.mem_iff.mpr List.mem_cons_self)
  refine ⟨h.run.tail ⟨.kfree v ptOrder, hLive, ?_⟩, ?_, ?_⟩
  · simp only [exec, Pools.mem] at hk ⊢
    rw [hk]
    rfl
  · have hSub := (hPages.subperm_right.mp (List.Subperm.refl _)).trans h.heap
    have hErase := hSub.erase (v, ptOrder)
    rwa [List.erase_cons_head] at hErase
  · have hMap := h.kernmap
    have hFilter := hPerm.filter fun v => v < p2v initKernmap
    simp only [List.filter_cons, decide_eq_false (Nat.not_lt.mpr hHeap)] at hFilter
    exact hMap.trans (hFilter.append_left _)

theorem PoolsInv.other {c : Call} (h : PoolsInv boot s) (hc : KptAllowed s (.other c))
    (hs : kptExec s (.other c) = .ok s') : PoolsInv boot s' := by
  obtain ⟨hAllowed, hKeep⟩ := hc
  obtain ⟨hp, hExec, rfl⟩ := map_eq_ok.mp hs
  refine ⟨h.run.tail ⟨c, hAllowed, hExec⟩, ?_, h.kernmap⟩
  cases c with
  | kmalloc order =>
    obtain ⟨r, _, rfl⟩ := map_eq_ok.mp hExec
    dsimp only
    split
    · exact h.heap
    · exact h.heap.cons_right _
  | kfree mem order =>
    obtain ⟨k, _, rfl⟩ := map_eq_ok.mp hExec
    have hNot : (mem, order) ∉ heapPages s := by
      intro hIn
      obtain ⟨v, hv, hEq⟩ := List.mem_map.mp hIn
      obtain ⟨rfl, rfl⟩ := Prod.mk.inj hEq
      exact hKeep v (List.mem_of_mem_filter hv) rfl
    have hErase := h.heap.erase (mem, order)
    rwa [List.erase_of_not_mem hNot] at hErase

include hInit hFree in
theorem PoolsInv.step {c : KptCall} (h : PoolsInv boot s) (hc : KptAllowed s c) (hKeep : KeepsBoot c)
    (hs : kptExec s c = .ok s') : PoolsInv boot s' := by
  cases c with
  | kptAlloc => exact h.kptAlloc hInit hFree hs
  | kptFree v => exact h.kptFree hc hKeep hs
  | other c => exact h.other hc hs

end Steps

/-- As long as no page of the initial kernel map is given to `kpt_free`: what goes to
`kfree` lies in the heap, the pages of the initial kernel map are in their own list or
in use, and no free one meets a block of the buddy allocator. -/
theorem page_table_pages_return {kernEnd : Nat} (hLow : kernbase ≤ kernEnd)
    (hHigh : kernEnd ≤ p2v initKernmap) {m₀ m : KptMem} (hBoot : kmainMem m₀ kernEnd = .ok m) {s : Pools}
    (hRun : Relation.ReflTransGen
      (fun s s' => ∃ c, KptAllowed s c ∧ KeepsBoot c ∧ kptExec s c = .ok s') (bootPools m) s) :
    (∀ v, KptAllowed s (.kptFree v) → KeepsBoot (.kptFree v) →
      s.heap.kmem.startHeap ≤ v ∧ v + ptSz ≤ s.heap.kmem.stop) ∧
    m.freelist.Perm (s.freelist ++ s.pages.filter fun v => v < p2v initKernmap) ∧
    (∀ v ∈ s.freelist, ∀ a ∈ s.heap.live, Disjoint (bytes (v, ptOrder)) (bytes a)) ∧
    ∀ v ∈ s.freelist, ∀ o id, HasBit (numMarks bootStart bootStop) o id → Avail s.heap.kmem o id →
      Disjoint (bytes (v, ptOrder)) (bytes (blkid2mem s.heap.kmem o id, o)) := by
  have hInit := (kmainMem_ok hBoot).1
  have hPage := fun v => boot_freelist hLow hHigh hBoot (v := v)
  have hFree : ∀ v ∈ m.freelist, v < p2v initKernmap := by
    intro v hv
    have := (hPage v hv).2
    simp only [ptSz] at this
    omega
  have h : PoolsInv m s := by
    induction hRun with
    | refl => exact poolsInv_boot m
    | tail _ hStep ih =>
      obtain ⟨c, hAllowed, hKeep, hExec⟩ := hStep
      exact ih.step hInit hFree hAllowed hKeep hExec
  have hBelow : ∀ v ∈ s.freelist, v + ptSz ≤ p2v initKernmap := fun v hv =>
    (hPage v (h.kernmap.mem_iff.mpr (List.mem_append_left _ hv))).2
  have hApart : ∀ v a o : Nat, v + ptSz ≤ p2v initKernmap → p2v initKernmap ≤ a →
      Disjoint (bytes (v, ptOrder)) (bytes (a, o)) := by
    intro v a o hv ha
    rw [Set.disjoint_left]
    rintro x ⟨_, h1⟩ ⟨h2, _⟩
    simp only [ptSz, ptOrder] at *
    omega
  refine ⟨?_, h.kernmap, ?_, ?_⟩
  · intro v hv hHeap
    have hIn : (v, ptOrder) ∈ heapPages s :=
      List.mem_map.mpr ⟨v, List.mem_filter.mpr ⟨hv, decide_eq_true hHeap⟩, rfl⟩
    exact (h.live_bounds hInit (h.heap.subset hIn)).2
  · intro v hv a ha
    exact hApart v a.1 a.2 (hBelow v hv) (h.live_bounds hInit ha).1
  · intro v hv o id hBit hAvail
    exact hApart v _ o (hBelow v hv) (h.initKernmap_le_avail hInit hBit hAvail)

section Examples

/-- The pools after booting a kernel whose image ends at `0x800B0000`. -/
def examplePools : KptMem :=
  { kptFreerange ⟨[], zeroKmem⟩ 0x800B0000 (p2v initKernmap) with kmem := freshHeap zeroKmem bootStart bootStop }

theorem kmainMem_examplePools : kmainMem ⟨[], zeroKmem⟩ 0x800B0000 = .ok examplePools := by
  have hUp : alignUp 0x800B0000 ptSz = 0x800B0000 := by decide
  simp only [kmainMem, hUp, kptFreerange_kmem]
  rw [show kmemInit2 zeroKmem (p2v initKernmap) (p2v paStop) = _ from
    kmemInit2_eq_freshHeap zeroKmem region_boot]
  rfl

theorem examplePools_freelist : ∃ rest, examplePools.freelist = 0x800FFC00 :: rest ∧ 0x800FFC00 ∉ rest := by
  have hHead : examplePools.freelist.head? = some 0x800FFC00 := by decide +kernel
  have hTail : 0x800FFC00 ∉ examplePools.freelist.tail := by decide +kernel
  obtain ⟨rest, hList⟩ := List.head?_eq_some_iff.mp hHead
  rw [hList] at hTail
  exact ⟨rest, hList, hTail⟩

def onePage (rest : List Nat) : Pools := ⟨rest, ⟨examplePools.kmem, []⟩, [0x800FFC00]⟩

theorem kptExec_onePage {rest : List Nat} (h : examplePools.freelist = 0x800FFC00 :: rest) :
    kptExec (bootPools examplePools) .kptAlloc = .ok (onePage rest) := by
  simp only [kptExec, kptAlloc, Pools.mem, bootPools, h]
  rfl

theorem page_table_pages_return_onePage :
    ∃ rest, examplePools.freelist = 0x800FFC00 :: rest ∧
      (∀ v, KptAllowed (onePage rest) (.kptFree v) → KeepsBoot (.kptFree v) →
        (onePage rest).heap.kmem.startHeap ≤ v ∧ v + ptSz ≤ (onePage rest).heap.kmem.stop) ∧
      examplePools.freelist.Perm (rest ++ [0x800FFC00].filter fun v => v < p2v initKernmap) := by
  obtain ⟨rest, hList, _⟩ := examplePools_freelist
  have h := page_table_pages_return (by decide) (by decide) kmainMem_examplePools
    (.single ⟨.kptAlloc, trivial, trivial, kptExec_onePage hList⟩)
  exact ⟨rest, hList, h.1, h.2.1⟩

/-- The first page-table page that is given back is not in the heap, yet it goes to the
buddy allocator. -/
theorem kernmap_page_to_kfree :
    ∃ m s s', kmainMem ⟨[], zeroKmem⟩ 0x800B0000 = .ok m ∧
      Relation.ReflTransGen KptStep (bootPools m) s ∧ 0x800FFC00 ∈ m.freelist ∧
      KptAllowed s (.kptFree 0x800FFC00) ∧ kptExec s (.kptFree 0x800FFC00) = .ok s' ∧
      p2v kernlink ≤ 0x800FFC00 ∧ ¬s.heap.kmem.startHeap ≤ 0x800FFC00 ∧ 0x800FFC00 ∉ s'.freelist := by
  obtain ⟨rest, hList, hNot⟩ := examplePools_freelist
  have hBelow : ¬examplePools.kmem.startHeap ≤ 0x800FFC00 := by decide +kernel
  have hFree : (kfree examplePools.kmem 0x800FFC00 ptOrder).toOption.isSome = true := by decide +kernel
  obtain ⟨k, hk⟩ := Option.isSome_iff_exists.mp hFree
  refine ⟨_, onePage rest, ⟨rest, ⟨k, []⟩, []⟩, kmainMem_examplePools, ?_, ?_, List.mem_cons_self, ?_, ?_, hBelow, hNot⟩
  · exact .single ⟨.kptAlloc, trivial, kptExec_onePage hList⟩
  · rw [hList]
    exact List.mem_cons_self
  · simp only [kptExec, kptFree_eq, Pools.mem, onePage, toOption_eq_some.mp hk]
    rfl
  · decide

end Examples

end Xv6Rpi.Vm
