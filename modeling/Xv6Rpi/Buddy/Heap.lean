import Xv6Rpi.Buddy.Init

/-! # Runs of kmalloc and kfree

A heap remembers, besides the allocator's own state, which blocks have been handed out
and not yet given back. A run starts from the heap `kmem_init2` built and makes calls
that free only live blocks, each with the order it was allocated with.
-/

namespace Xv6Rpi.Buddy

open Dyadic

structure Heap where
  kmem : Kmem
  live : List (Nat × Nat)

inductive Call where
  | kmalloc (order : Nat)
  | kfree (mem order : Nat)

def Allowed (s : Heap) : Call → Prop
  | .kmalloc order => IsOrd order
  | .kfree mem order => (mem, order) ∈ s.live

instance (s : Heap) (c : Call) : Decidable (Allowed s c) :=
  match c with
  | .kmalloc order => inferInstanceAs (Decidable (minOrd ≤ order ∧ order ≤ maxOrd))
  | .kfree mem order => inferInstanceAs (Decidable ((mem, order) ∈ s.live))

def exec (s : Heap) : Call → Except Panic Heap
  | .kmalloc order => (kmalloc s.kmem order).map fun r =>
      ⟨r.2, if r.1 = 0 then s.live else (r.1, order) :: s.live⟩
  | .kfree mem order => (kfree s.kmem mem order).map fun k => ⟨k, s.live.erase (mem, order)⟩

def Step (s s' : Heap) : Prop := ∃ c, Allowed s c ∧ exec s c = .ok s'

/-- The states that runs from a fresh heap over the region reach. -/
def Reach (vstart vend : Nat) (s : Heap) : Prop :=
  ∃ k₀ k, kmemInit2 k₀ vstart vend = .ok k ∧ Relation.ReflTransGen Step ⟨k, []⟩ s

def bytes (a : Nat × Nat) : Set Nat := Set.Ico a.1 (a.1 + 2 ^ a.2)

/-- A live block as the pair that `kmalloc` and its caller know it by. -/
def handle (k : Kmem) (b : Nat × Nat) : Nat × Nat := (addr k b, b.1)

/-- The list `L` names the live blocks by order and number. -/
structure HeapInv (s : Heap) (n : Nat) (L : List (Nat × Nat)) : Prop where
  nodup : L.Nodup
  live : s.live = L.map (handle s.kmem)
  inv : Inv s.kmem n {b | b ∈ L}

theorem handle_injective (k : Kmem) : Function.Injective (handle k) := by
  rintro ⟨o, i⟩ ⟨o', i'⟩ h
  obtain ⟨hAddr, rfl⟩ := Prod.mk.inj h
  have hMul : i * 2 ^ o = i' * 2 ^ o := Nat.add_left_cancel hAddr
  rw [Nat.eq_of_mul_eq_mul_right (Nat.two_pow_pos o) hMul]

theorem SameLayout.handle {k k' : Kmem} (h : SameLayout k k') : handle k' = handle k := by
  funext b
  rw [Buddy.handle, Buddy.handle, h.addr]

theorem disjoint_bytes (k : Kmem) {b c : Nat × Nat} (h : Disjoint (span b) (span c)) :
    Disjoint (bytes (handle k b)) (bytes (handle k c)) := by
  rw [Set.disjoint_left] at h ⊢
  intro x hx hx'
  have hSpan : ∀ d : Nat × Nat, x ∈ bytes (handle k d) → x - k.startHeap ∈ span d := by
    rintro d ⟨h1, h2⟩
    simp only [handle, addr] at h1 h2
    rw [mem_span, Nat.add_mul, Nat.one_mul]
    omega
  exact h (hSpan b hx) (hSpan c hx')

def zeroKmem : Kmem := ⟨0, 0, 0, fun _ => ⟨0, 0⟩, fun _ => ⟨0#32, 0#32⟩⟩

def execAll (s : Heap) : List Call → Option Heap
  | [] => some s
  | c :: cs => if Allowed s c then (exec s c).toOption.bind fun s => execAll s cs else none

/-- A run over a region, as far as the list of live blocks it ends with. -/
def liveAfter (vstart vend : Nat) (calls : List Call) : Option (List (Nat × Nat)) :=
  (((kmemInit2 zeroKmem vstart vend).toOption).bind fun k => execAll ⟨k, []⟩ calls).map Heap.live

variable {s s' : Heap} {n : Nat} {L : List (Nat × Nat)}

theorem kmalloc_eq {k : Kmem} {o : Nat} (ho : IsOrd o) : kmalloc k o = _kmalloc k o := by
  have h1 := ho.1
  have h2 := ho.2
  rw [kmalloc, if_neg (by omega)]

theorem HeapInv.kmalloc {order : Nat} (h : HeapInv s n L) (ho : IsOrd order)
    (hk : exec s (.kmalloc order) = .ok s') :
    SameLayout s.kmem s'.kmem ∧ ∃ L', HeapInv s' n L' := by
  obtain ⟨⟨mem, k'⟩, hk', rfl⟩ := map_eq_ok.mp hk
  rw [kmalloc_eq ho] at hk'
  obtain ⟨hS, hCases⟩ := h.inv.kmallocUnlocked ho hk'
  refine ⟨hS, ?_⟩
  rcases hCases with ⟨rfl, hInv⟩ | ⟨id, rfl, hNot, hInv⟩
  · exact ⟨L, h.nodup, by simp [h.live, hS.handle], hInv⟩
  · have hPos : addr s.kmem (order, id) ≠ 0 := by
      have := h.inv.layout.heapPos
      rw [addr]
      omega
    refine ⟨(order, id) :: L, List.nodup_cons.mpr ⟨hNot, h.nodup⟩, ?_, ?_⟩
    · simp [hPos, h.live, hS.handle, handle]
    · convert hInv using 1
      ext b
      simp

theorem HeapInv.inv_erase {o id : Nat} (h : HeapInv s n L) (hb : (o, id) ∈ L) :
    Inv s.kmem n (insert (o, id) {b | b ∈ L.erase (o, id)}) := by
  have hSet : {b | b ∈ L} = insert (o, id) {b | b ∈ L.erase (o, id)} := by
    ext b
    simp only [Set.mem_ofPred_eq, Set.mem_insert_iff, h.nodup.mem_erase_iff]
    constructor
    · exact fun hbL => (eq_or_ne b (o, id)).imp_right fun hne => ⟨hne, hbL⟩
    · rintro (rfl | ⟨_, hbL⟩)
      · exact hb
      · exact hbL
  exact hSet ▸ h.inv

theorem HeapInv.kfree {mem order : Nat} (h : HeapInv s n L) (hLive : (mem, order) ∈ s.live)
    (hk : exec s (.kfree mem order) = .ok s') :
    SameLayout s.kmem s'.kmem ∧ ∃ L', HeapInv s' n L' := by
  rw [h.live] at hLive
  obtain ⟨⟨o, id⟩, hb, hEq⟩ := List.mem_map.mp hLive
  obtain ⟨rfl, rfl⟩ := Prod.mk.inj hEq
  have hNot : (o, id) ∉ {b | b ∈ L.erase (o, id)} := h.nodup.not_mem_erase
  have hInv := h.inv_erase hb
  obtain ⟨k', hk', rfl⟩ := map_eq_ok.mp hk
  rw [kfree_eq hInv.layout rfl hInv.held] at hk'
  obtain ⟨hInv', hS⟩ := hInv.kfreeUnlocked hNot hk'
  refine ⟨hS, L.erase (o, id), h.nodup.erase _, ?_, hInv'⟩
  simp only [h.live, hS.handle]
  exact (List.map_erase (handle_injective s.kmem) L).symm

theorem HeapInv.step (h : HeapInv s n L) (hk : Step s s') :
    SameLayout s.kmem s'.kmem ∧ ∃ L', HeapInv s' n L' := by
  obtain ⟨c, hAllowed, hExec⟩ := hk
  cases c with
  | kmalloc order => exact h.kmalloc hAllowed hExec
  | kfree mem order => exact h.kfree hAllowed hExec

theorem HeapInv.run (h : HeapInv s n L) (hk : Relation.ReflTransGen Step s s') :
    SameLayout s.kmem s'.kmem ∧ ∃ L', HeapInv s' n L' := by
  induction hk with
  | refl => exact ⟨.refl _, L, h⟩
  | tail _ hStep ih =>
    obtain ⟨hS, L', hInv⟩ := ih
    obtain ⟨hS', hInv'⟩ := hInv.step hStep
    exact ⟨hS.trans hS', hInv'⟩

theorem kmemInit2_inv (k₀ : Kmem) {vstart vend : Nat} (h : Region vstart vend) :
    ∃ k, kmemInit2 k₀ vstart vend = .ok k ∧ k.startHeap = heapStart vstart vend ∧ k.stop = vend ∧
      HeapInv ⟨k, []⟩ (numMarks vstart vend) [] := by
  obtain ⟨k, hk, _, hStart, hStop, hF, _⟩ :=
    kmemInit2_rule k₀ h (fun _ _ => True) trivial (fun _ _ _ _ _ _ _ _ _ => trivial)
  refine ⟨k, hk, hStart, hStop, List.nodup_nil, rfl, ?_⟩
  have hInv := Filled.inv (by rw [hStart, hStop]; exact hF)
  simpa using hInv

theorem Reach.inv {vstart vend : Nat} (h : Region vstart vend) (hs : Reach vstart vend s) :
    s.kmem.startHeap = heapStart vstart vend ∧ s.kmem.stop = vend ∧
      ∃ L, HeapInv s (numMarks vstart vend) L := by
  obtain ⟨k₀, k, hk, hRun⟩ := hs
  obtain ⟨k', hk', hStart, hStop, hInv⟩ := kmemInit2_inv k₀ h
  obtain rfl : k' = k := Except.ok.inj (hk'.symm.trans hk)
  obtain ⟨hS, hInv'⟩ := hInv.run hRun
  exact ⟨hS.startHeap.trans hStart, hS.stop.trans hStop, hInv'⟩

theorem HeapInv.pairwise (h : HeapInv s n L) :
    s.live.Pairwise fun a b => Disjoint (bytes a) (bytes b) := by
  rw [h.live, List.pairwise_map]
  apply List.Pairwise.imp_of_mem _ h.nodup
  intro b c hb hc hne
  exact disjoint_bytes _ (h.inv.packing (Or.inr hb) (Or.inr hc) hne)

theorem HeapInv.live_bounds (h : HeapInv s n L) (hStop : s.kmem.stop % 2 ^ maxOrd = 0) {a : Nat × Nat}
    (ha : a ∈ s.live) : s.kmem.startHeap ≤ a.1 ∧ a.1 + 2 ^ a.2 ≤ s.kmem.stop := by
  rw [h.live] at ha
  obtain ⟨b, hb, rfl⟩ := List.mem_map.mp ha
  have hIn := h.inv.inHeap b (Or.inr hb)
  have hEnd := hIn.2
  have hLen : heapLen s.kmem ≤ s.kmem.stop - s.kmem.startHeap := by
    have h1 := h.inv.layout.aligned
    simp only [heapLen, maxOrd] at *
    omega
  have hPow := Nat.two_pow_pos b.1
  rw [Nat.add_mul, Nat.one_mul] at hEnd
  simp only [handle, addr]
  omega

theorem HeapInv.disjoint_avail (h : HeapInv s n L) {a : Nat × Nat} (ha : a ∈ s.live) {o id : Nat}
    (hBit : HasBit n o id) (hAvail : Avail s.kmem o id) :
    Disjoint (bytes a) (bytes (blkid2mem s.kmem o id, o)) := by
  rw [h.live] at ha
  obtain ⟨b, hb, rfl⟩ := List.mem_map.mp ha
  have hMem : (o, id) ∈ availSet s.kmem n := ⟨hBit, hAvail⟩
  have hIn := h.inv.inHeap _ (Or.inl hMem)
  have hne : b ≠ (o, id) := by
    rintro rfl
    exact h.inv.notMem_availSet hb hMem
  have hDisj := disjoint_bytes s.kmem (h.inv.packing (Or.inr hb) (Or.inl hMem) hne)
  rwa [handle, handle, ← blkid2mem_eq h.inv.layout hIn] at hDisj

theorem HeapInv.startHeap_le_avail (h : HeapInv s n L) {o id : Nat} (hBit : HasBit n o id)
    (hAvail : Avail s.kmem o id) : s.kmem.startHeap ≤ blkid2mem s.kmem o id := by
  have hIn := h.inv.inHeap (o, id) (Or.inl ⟨hBit, hAvail⟩)
  rw [blkid2mem_eq h.inv.layout hIn]
  exact Nat.le_add_right _ _

/-- A region whose end is on a page boundary and whose marks do not wrap around. -/
theorem region_of_aligned {vstart vend : Nat} (hs : vstart < 2 ^ 32) (he : vend < 2 ^ 32)
    (hAlign : vend % 2 ^ maxOrd = 0)
    (hWrap : vstart + numMarks vstart vend * (2 ^ nOrd - 1) * 8 + (2 ^ maxOrd - 1) < 2 ^ 32) :
    Region vstart vend := by
  refine ⟨hs, ?_, hWrap⟩
  simp only [maxOrd] at *
  omega

/-- Live blocks are aligned, lie in the heap, and meet neither one another nor a block
that some bitmap shows as available. -/
theorem live_blocks_disjoint {vstart vend : Nat} (hs : vstart < 2 ^ 32) (he : vend < 2 ^ 32)
    (hAlign : vend % 2 ^ maxOrd = 0)
    (hWrap : vstart + numMarks vstart vend * (2 ^ nOrd - 1) * 8 + (2 ^ maxOrd - 1) < 2 ^ 32)
    {s : Heap} (hReach : Reach vstart vend s) :
    (s.live.Pairwise fun a b => Disjoint (bytes a) (bytes b)) ∧
    (∀ a ∈ s.live, a.1 % 2 ^ a.2 = 0 ∧ s.kmem.startHeap ≤ a.1 ∧ a.1 + 2 ^ a.2 ≤ s.kmem.stop) ∧
    ∀ a ∈ s.live, ∀ o id, HasBit (numMarks vstart vend) o id → Avail s.kmem o id →
      Disjoint (bytes a) (bytes (blkid2mem s.kmem o id, o)) := by
  obtain ⟨_, hStop, L, h⟩ := hReach.inv (region_of_aligned hs he hAlign hWrap)
  refine ⟨h.pairwise, ?_, fun a ha o id => h.disjoint_avail ha⟩
  intro a ha
  refine ⟨?_, h.live_bounds (by rwa [hStop]) ha⟩
  rw [h.live] at ha
  obtain ⟨b, hb, rfl⟩ := List.mem_map.mp ha
  exact addr_aligned h.inv.layout (h.inv.inHeap b (Or.inr hb)).1

theorem run_execAll {calls : List Call} (h : execAll s calls = some s') :
    Relation.ReflTransGen Step s s' := by
  induction calls generalizing s with
  | nil =>
    obtain rfl := Option.some.inj h
    exact .refl
  | cons c cs ih =>
    rw [execAll] at h
    split at h
    · rename_i hAllowed
      obtain ⟨s₁, hStep, hRest⟩ := Option.bind_eq_some_iff.mp h
      exact .head ⟨c, hAllowed, toOption_eq_some.mp hStep⟩ (ih hRest)
    · cases h

theorem run_liveAfter {vstart vend : Nat} {calls : List Call} {live : List (Nat × Nat)}
    (h : liveAfter vstart vend calls = some live) :
    ∃ k s, kmemInit2 zeroKmem vstart vend = .ok k ∧ Relation.ReflTransGen Step ⟨k, []⟩ s ∧
      s.live = live := by
  obtain ⟨s, hs, rfl⟩ := Option.map_eq_some_iff.mp h
  obtain ⟨k, hk, hRun⟩ := Option.bind_eq_some_iff.mp hs
  exact ⟨k, s, toOption_eq_some.mp hk, run_execAll hRun, rfl⟩

theorem reach_liveAfter {vstart vend : Nat} {calls : List Call} {live : List (Nat × Nat)}
    (h : liveAfter vstart vend calls = some live) : ∃ s, Reach vstart vend s ∧ s.live = live := by
  obtain ⟨k, s, hk, hRun, hLive⟩ := run_liveAfter h
  exact ⟨s, ⟨zeroKmem, k, hk, hRun⟩, hLive⟩

theorem live_blocks_disjoint_two_blocks :
    ∃ s, Reach 0x10000 0x18000 s ∧ s.live = [(0x11040, 6), (0x11000, 6)] ∧
      ((s.live.Pairwise fun a b => Disjoint (bytes a) (bytes b)) ∧
      (∀ a ∈ s.live, a.1 % 2 ^ a.2 = 0 ∧ s.kmem.startHeap ≤ a.1 ∧ a.1 + 2 ^ a.2 ≤ s.kmem.stop) ∧
      ∀ a ∈ s.live, ∀ o id, HasBit (numMarks 0x10000 0x18000) o id → Avail s.kmem o id →
        Disjoint (bytes a) (bytes (blkid2mem s.kmem o id, o))) := by
  have hRun : liveAfter 0x10000 0x18000 [.kmalloc 6, .kmalloc 6] =
      some [(0x11040, 6), (0x11000, 6)] := by
    decide +kernel
  obtain ⟨s, hReach, hLive⟩ := reach_liveAfter hRun
  exact ⟨s, hReach, hLive,
    live_blocks_disjoint (by decide) (by decide) (by decide) (by decide +kernel) hReach⟩

end Xv6Rpi.Buddy
