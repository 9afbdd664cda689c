import Xv6Rpi.Uvm.Word

/-! # Address spaces

A page directory stands for two partial functions: which page table an entry of the directory
holds, and which page with which access permission a user page number is mapped to. The
functions of vm.c are described by what they do to these two, and by what they leave alone:
everything in use that does not belong to the directory.
-/

namespace Xv6Rpi.Uvm

open Prog

/-- What the hardware finds for a user address: its page and the access permission. -/
def translate (m : Mem) (d va : Nat) : Option (Nat × Nat) :=
  if numUpde ≤ pdeIdx va then none
  else if m.tab d (pdeIdx va) &&& peTypes = 0 then none
  else if m.tab (p2v (ptAddr (m.tab d (pdeIdx va)))) (pteIdx va) &&& peTypes = 0 then none
  else some (p2v (pteAddr (m.tab (p2v (ptAddr (m.tab d (pdeIdx va)))) (pteIdx va))),
    pteAp (m.tab (p2v (ptAddr (m.tab d (pdeIdx va)))) (pteIdx va)))

structure UserPage (m : Mem) (v : Nat) : Prop where
  aligned : v % pteSz = 0
  low : m.heap ≤ v
  high : v + pteSz ≤ p2v paStop
  used : m.page v = true

def InTables (T : Nat → Option Nat) (t : Nat) : Prop := ∃ i, T i = some t

def InPages (P : Nat → Option (Nat × Nat)) (v : Nat) : Prop := ∃ k ap, P k = some (v, ap)

/-- The page directory `d` has the page tables `T`, and they map the pages `P`. -/
structure Dir (m : Mem) (d : Nat) (T : Nat → Option Nat) (P : Nat → Option (Nat × Nat)) : Prop where
  heap : kernbase < m.heap
  addr : TableAddr d
  used : m.table d = true
  kernel : d ≠ m.kernelPgtbl
  pde : ∀ i < numUpde, m.tab d i = (T i).elim 0 pdeWord
  table : ∀ i t, T i = some t → i < numUpde ∧ TableAddr t ∧ m.table t = true ∧ t ≠ d
  inj : ∀ i j t, T i = some t → T j = some t → i = j
  pte : ∀ i t, T i = some t → ∀ j < numPte, m.tab t j = (P (256 * i + j)).elim 0 fun q => pteWord (v2p q.1) q.2
  page : ∀ k v ap, P k = some (v, ap) → UserPage m v ∧ ap < 4 ∧ ∃ t, T (k / 256) = some t
  once : ∀ k k' v ap ap', P k = some (v, ap) → P k' = some (v, ap') → k = k'

/-- What a function that works on the directory `d` does: it takes its tables from `T` to `T'`
and its pages from `P` to `P'`, and whatever else is in use stays as it is. -/
structure Touch (m m' : Mem) (d : Nat) (T T' : Nat → Option Nat) (P P' : Nat → Option (Nat × Nat)) : Prop where
  heap : m'.heap = m.heap
  kernel : m'.kernelPgtbl = m.kernelPgtbl
  wild : m'.wild = m.wild
  tab : ∀ t, m.table t = true → t ≠ d → ¬InTables T t → m'.tab t = m.tab t
  byte : ∀ v, m.page v = true → ¬InPages P v → m'.byte v = m.byte v
  table : ∀ t, m'.table t = true ↔ m.table t = true ∧ ¬InTables T t ∨ InTables T' t
  page : ∀ v, m'.page v = true ↔ m.page v = true ∧ ¬InPages P v ∨ InPages P' v
  newTable : ∀ t, InTables T' t → InTables T t ∨ m.table t = false
  newPage : ∀ v, InPages P' v → InPages P v ∨ m.page v = false

section Dir

variable {m m' m₁ : Mem} {d t va k : Nat} {T T' T₁ : Nat → Option Nat} {P P' P₁ : Nat → Option (Nat × Nat)}

theorem UserPage.addr {v : Nat} (h : UserPage m v) : PageAddr v := by
  have hHigh := h.high
  rw [paStop_eq, pteSz] at hHigh
  exact ⟨h.aligned, by omega⟩

theorem UserPage.write {v w : Nat} (h : UserPage m v) (l : Nat → UInt8) :
    UserPage { m with byte := Function.update m.byte w l } v := ⟨h.aligned, h.low, h.high, h.used⟩

theorem UserPage.ne {v : Nat} (h : UserPage m v) (hHeap : kernbase < m.heap) : v ≠ 0 ∧ v2p v ≠ 0 := by
  have hHigh := h.high
  have hLow := h.low
  rw [paStop_eq, pteSz] at hHigh
  simp only [v2p, kernbase_eq] at *
  omega

theorem Dir.inUsed (h : Dir m d T P) (ht : InTables T t) : m.table t = true := by
  obtain ⟨i, hi⟩ := ht
  exact (h.table i t hi).2.2.1

theorem Dir.not_inTables (h : Dir m d T P) : ¬InTables T d := by
  rintro ⟨i, hi⟩
  exact (h.table i d hi).2.2.2 rfl

theorem Dir.pageUsed (h : Dir m d T P) {v : Nat} (hv : InPages P v) : UserPage m v := by
  obtain ⟨k, ap, hk⟩ := hv
  exact (h.page k v ap hk).1

/-- A directory only depends on itself, on its tables and on the pages being in use. -/
theorem Dir.congr (h : Dir m d T P) (hHeap : m'.heap = m.heap) (hKernel : m'.kernelPgtbl = m.kernelPgtbl)
    (hTab : ∀ t, t = d ∨ InTables T t → m'.tab t = m.tab t ∧ m'.table t = true)
    (hPage : ∀ v, InPages P v → m'.page v = true) : Dir m' d T P where
  heap := hHeap ▸ h.heap
  addr := h.addr
  used := (hTab d (.inl rfl)).2
  kernel := hKernel ▸ h.kernel
  pde i hi := by rw [(hTab d (.inl rfl)).1, h.pde i hi]
  table i t hi := by
    obtain ⟨h1, h2, -, h4⟩ := h.table i t hi
    exact ⟨h1, h2, (hTab t (.inr ⟨i, hi⟩)).2, h4⟩
  inj := h.inj
  pte i t hi j hj := by rw [(hTab t (.inr ⟨i, hi⟩)).1, h.pte i t hi j hj]
  page k v ap hk := by
    obtain ⟨hPg, hRest⟩ := h.page k v ap hk
    exact ⟨⟨hPg.aligned, hHeap ▸ hPg.low, hPg.high, hPage v ⟨k, ap, hk⟩⟩, hRest⟩
  once := h.once

theorem Touch.refl (h : Dir m d T P) : Touch m m d T T P P where
  heap := rfl
  kernel := rfl
  wild := rfl
  tab _ _ _ _ := rfl
  byte _ _ _ := rfl
  table t := by
    constructor
    · intro ht
      by_cases hIn : InTables T t
      · exact .inr hIn
      · exact .inl ⟨ht, hIn⟩
    · rintro (⟨ht, -⟩ | hIn)
      · exact ht
      · exact h.inUsed hIn
  page v := by
    constructor
    · intro hv
      by_cases hIn : InPages P v
      · exact .inr hIn
      · exact .inl ⟨hv, hIn⟩
    · rintro (⟨hv, -⟩ | hIn)
      · exact hv
      · exact (h.pageUsed hIn).used
  newTable _ := .inl
  newPage _ := .inl

theorem Touch.trans (h : Touch m m₁ d T T₁ P P₁) (h' : Touch m₁ m' d T₁ T' P₁ P') : Touch m m' d T T' P P' := by
  -- what is in use and not the directory's before is so in between
  have hTable : ∀ t, m.table t = true → ¬InTables T t → m₁.table t = true ∧ ¬InTables T₁ t := by
    intro t ht hOut
    refine ⟨(h.table t).mpr (.inl ⟨ht, hOut⟩), fun hIn => ?_⟩
    obtain hOld | hNew := h.newTable t hIn
    · exact hOut hOld
    · rw [ht] at hNew
      cases hNew
  have hPage : ∀ v, m.page v = true → ¬InPages P v → m₁.page v = true ∧ ¬InPages P₁ v := by
    intro v hv hOut
    refine ⟨(h.page v).mpr (.inl ⟨hv, hOut⟩), fun hIn => ?_⟩
    obtain hOld | hNew := h.newPage v hIn
    · exact hOut hOld
    · rw [hv] at hNew
      cases hNew
  constructor
  · exact h'.heap.trans h.heap
  · exact h'.kernel.trans h.kernel
  · exact h'.wild.trans h.wild
  · intro t ht hne hOut
    obtain ⟨ht₁, hOut₁⟩ := hTable t ht hOut
    rw [h'.tab t ht₁ hne hOut₁, h.tab t ht hne hOut]
  · intro v hv hOut
    obtain ⟨hv₁, hOut₁⟩ := hPage v hv hOut
    rw [h'.byte v hv₁ hOut₁, h.byte v hv hOut]
  · intro t
    rw [h'.table t]
    constructor
    · rintro (⟨ht, hOut⟩ | hIn)
      · obtain hOld | hIn := (h.table t).mp ht
        · exact .inl hOld
        · exact absurd hIn hOut
      · exact .inr hIn
    · rintro (⟨ht, hOut⟩ | hIn)
      · exact .inl (hTable t ht hOut)
      · exact .inr hIn
  · intro v
    rw [h'.page v]
    constructor
    · rintro (⟨hv, hOut⟩ | hIn)
      · obtain hOld | hIn := (h.page v).mp hv
        · exact .inl hOld
        · exact absurd hIn hOut
      · exact .inr hIn
    · rintro (⟨hv, hOut⟩ | hIn)
      · exact .inl (hPage v hv hOut)
      · exact .inr hIn
  · intro t hIn
    obtain hMid | hFree := h'.newTable t hIn
    · exact h.newTable t hMid
    · refine or_iff_not_imp_left.mpr fun hOut => ?_
      by_contra hUsed
      rw [Bool.not_eq_false] at hUsed
      rw [(hTable t hUsed hOut).1] at hFree
      cases hFree
  · intro v hIn
    obtain hMid | hFree := h'.newPage v hIn
    · exact h.newPage v hMid
    · refine or_iff_not_imp_left.mpr fun hOut => ?_
      by_contra hUsed
      rw [Bool.not_eq_false] at hUsed
      rw [(hPage v hUsed hOut).1] at hFree
      cases hFree

/-- Two directories have no table and no page in common. -/
structure Apart (d d' : Nat) (T T' : Nat → Option Nat) (P P' : Nat → Option (Nat × Nat)) : Prop where
  ne : d ≠ d'
  left : ¬InTables T' d
  right : ¬InTables T d'
  tables : ∀ t, InTables T t → ¬InTables T' t
  pages : ∀ v, InPages P v → ¬InPages P' v

theorem Touch.other {d' : Nat} {U U' : Nat → Option Nat} {V V' : Nat → Option (Nat × Nat)}
    (h : Touch m m' d' U U' V V') (hDir : Dir m d T P) (hApart : Apart d d' T U P V) :
    Dir m' d T P ∧ Apart d d' T U' P V' := by
  have hTab : ∀ t, t = d ∨ InTables T t → m.table t = true ∧ t ≠ d' ∧ ¬InTables U t := by
    rintro t (rfl | hIn)
    · exact ⟨hDir.used, hApart.ne, hApart.left⟩
    · refine ⟨hDir.inUsed hIn, ?_, hApart.tables t hIn⟩
      rintro rfl
      exact hApart.right hIn
  have hNew : ∀ t, m.table t = true → ¬InTables U t → ¬InTables U' t := by
    intro t ht hOut hIn
    obtain hOld | hFree := h.newTable t hIn
    · exact hOut hOld
    · rw [ht] at hFree
      cases hFree
  constructor
  · refine hDir.congr h.heap h.kernel (fun t ht => ?_) fun v hv => ?_
    · obtain ⟨hUsed, hne, hOut⟩ := hTab t ht
      exact ⟨h.tab t hUsed hne hOut, (h.table t).mpr (.inl ⟨hUsed, hOut⟩)⟩
    · exact (h.page v).mpr (.inl ⟨(hDir.pageUsed hv).used, hApart.pages v hv⟩)
  · constructor
    · exact hApart.ne
    · exact hNew d hDir.used hApart.left
    · exact hApart.right
    · intro t hIn
      obtain ⟨hUsed, -, hOut⟩ := hTab t (.inr hIn)
      exact hNew t hUsed hOut
    · intro v hv hIn
      obtain hOld | hFree := h.newPage v hIn
      · exact hApart.pages v hv hOld
      · rw [(hDir.pageUsed hv).used] at hFree
        cases hFree

end Dir

section Walk

variable {R : Rely Mem Panic Label} {m m' : Mem} {d t va k : Nat} {T T' : Nat → Option Nat}
  {P P' : Nat → Option (Nat × Nat)}

def npages : Nat := numUpde * numPte

theorem Dir.pde_none (h : Dir m d T P) {i : Nat} (hi : i < numUpde) (hT : T i = none) :
    m.tab d i &&& peTypes = 0 := by
  rw [h.pde i hi, hT, Option.elim_none, Nat.zero_and]

theorem Dir.pde_some (h : Dir m d T P) {i : Nat} (hT : T i = some t) :
    m.tab d i &&& peTypes ≠ 0 ∧ p2v (ptAddr (m.tab d i)) = t := by
  obtain ⟨hi, hAddr, -, -⟩ := h.table i t hT
  rw [h.pde i hi, hT, Option.elim_some]
  exact ⟨hAddr.present, hAddr.ptAddr⟩

theorem Dir.pte_none (h : Dir m d T P) {i j : Nat} (hT : T i = some t) (hj : j < numPte)
    (hP : P (256 * i + j) = none) : m.tab t j = 0 := by
  rw [h.pte i t hT j hj, hP, Option.elim_none]

theorem Dir.pte_some (h : Dir m d T P) {i j v ap : Nat} (hT : T i = some t) (hj : j < numPte)
    (hP : P (256 * i + j) = some (v, ap)) : m.tab t j &&& peTypes ≠ 0 ∧ pteAddr (m.tab t j) = v2p v ∧
      p2v (v2p v) = v ∧ pteAp (m.tab t j) = ap := by
  obtain ⟨hPage, hAp, -⟩ := h.page _ v ap hP
  have hAddr := hPage.addr
  rw [h.pte i t hT j hj, hP, Option.elim_some]
  refine ⟨hAddr.present ap, hAddr.pteAddr ap, hAddr.p2v_v2p, ?_⟩
  rw [hAddr.pteAp, Nat.mod_eq_of_lt hAp]

theorem pdeIdx_lt (hva : va < uaddrSz) : pdeIdx va < numUpde := by
  rw [pdeIdx_eq]
  simp only [uaddrSz, pteSz, numUpde] at *
  omega

theorem pteIdx_lt (va : Nat) : pteIdx va < numPte := by
  rw [pteIdx_eq]
  exact Nat.mod_lt _ (by decide)

theorem idx_add (va : Nat) : 256 * pdeIdx va + pteIdx va = va / pteSz := by
  rw [pdeIdx_eq, pteIdx_eq]
  exact Nat.div_add_mod _ _

theorem Dir.translate (h : Dir m d T P) (va : Nat) : translate m d va = P (va / pteSz) := by
  rw [Uvm.translate, ← idx_add]
  by_cases hi : numUpde ≤ pdeIdx va
  · rw [if_pos hi]
    cases hP : P (256 * pdeIdx va + pteIdx va) with
    | none => rfl
    | some q =>
      obtain ⟨-, -, t, ht⟩ := h.page _ q.1 q.2 hP
      rw [idx_add, ← pdeIdx_eq] at ht
      exact absurd (h.table _ t ht).1 (Nat.not_lt.mpr hi)
  · rw [if_neg hi]
    cases hT : T (pdeIdx va) with
    | none =>
      rw [if_pos (h.pde_none (Nat.lt_of_not_le hi) hT)]
      cases hP : P (256 * pdeIdx va + pteIdx va) with
      | none => rfl
      | some q =>
        obtain ⟨-, -, t, ht⟩ := h.page _ q.1 q.2 hP
        rw [idx_add, ← pdeIdx_eq, hT] at ht
        cases ht
    | some t =>
      obtain ⟨hPresent, hAddr⟩ := h.pde_some hT
      rw [if_neg hPresent, hAddr]
      cases hP : P (256 * pdeIdx va + pteIdx va) with
      | none =>
        rw [h.pte_none hT (pteIdx_lt va) hP, if_pos (Nat.zero_and _)]
      | some q =>
        obtain ⟨hPage, hPa, hV, hAp⟩ := h.pte_some hT (pteIdx_lt va) hP
        rw [if_neg hPage, hPa, hV, hAp]

theorem Dir.size (h : Dir m d T P) : m.dirSize d = numUpde := if_neg h.kernel

/-- `walkpgdir` without `alloc` returns the entry, if there is a page table for it. -/
theorem wp_find (hR : R.Calm) (h : Dir m d T P) (hva : va < uaddrSz) {Q : Option (Nat × Nat) → Mem → Prop}
    (hQ : Q ((T (pdeIdx va)).map fun t => (t, pteIdx va)) m) : wp R (walkpgdir d va false) Q m := by
  rw [walkpgdir, wp_bind]
  apply wp_getM hR
  have hi := pdeIdx_lt hva
  rw [h.size, if_neg (Nat.not_le.mpr hi)]
  cases hT : T (pdeIdx va) with
  | none =>
    rw [hT] at hQ
    rw [if_neg (not_not.mpr (h.pde_none hi hT)), if_pos (show (!false) = true from rfl), wp_pure]
    exact hQ
  | some t =>
    obtain ⟨hPresent, hAddr⟩ := h.pde_some hT
    rw [hT] at hQ
    rw [if_pos hPresent, hAddr, wp_pure]
    exact hQ

def Mem.withTable (m : Mem) (d i t : Nat) : Mem :=
  Mem.setEntry { m with
    answers := m.answers.tail
    table := Function.update m.table t true
    tab := Function.update m.tab t fun _ => 0 } d i (pdeWord t)

theorem inTables_update {i t' : Nat} (hT : T i = none) :
    InTables (Function.update T i (some t)) t' ↔ t' = t ∨ InTables T t' := by
  constructor
  · rintro ⟨j, hj⟩
    by_cases hEq : j = i
    · subst hEq
      rw [Function.update_self] at hj
      exact .inl (Option.some.inj hj).symm
    · rw [Function.update_of_ne hEq] at hj
      exact .inr ⟨j, hj⟩
  · rintro (rfl | ⟨j, hj⟩)
    · exact ⟨i, Function.update_self ..⟩
    · have hne : j ≠ i := by
        rintro rfl
        rw [hT] at hj
        cases hj
      exact ⟨j, by rw [Function.update_of_ne hne, hj]⟩

theorem Dir.withTable (h : Dir m d T P) {i : Nat} (hi : i < numUpde) (hT : T i = none) (hFree : m.FreeTable t) :
    Dir (m.withTable d i t) d (Function.update T i (some t)) P ∧
      Touch m (m.withTable d i t) d T (Function.update T i (some t)) P P := by
  obtain ⟨hAligned, hLow, hHigh, -, hUnused, -⟩ := hFree
  have hne : d ≠ t := by
    rintro rfl
    rw [h.used] at hUnused
    cases hUnused
  have hOut : ∀ t', InTables T t' → t' ≠ t ∧ t' ≠ d := by
    rintro t' ⟨j, hj⟩
    obtain ⟨-, -, hUsed, hNe⟩ := h.table j t' hj
    refine ⟨?_, hNe⟩
    rintro rfl
    rw [hUsed] at hUnused
    cases hUnused
  have hTab : ∀ t', t' ≠ d → t' ≠ t → (m.withTable d i t).tab t' = m.tab t' := by
    intro t' h1 h2
    simp only [Mem.withTable, Mem.setEntry, Function.update_of_ne h1, Function.update_of_ne h2]
  have hTable : ∀ t', (m.withTable d i t).table t' = if t' = t then true else m.table t' := fun t' =>
    Function.update_apply ..
  constructor
  · constructor
    · exact h.heap
    · exact h.addr
    · rw [hTable, if_neg hne, h.used]
    · exact h.kernel
    · intro j hj
      simp only [Mem.withTable, Mem.setEntry, Function.update_self, Function.update_of_ne hne]
      by_cases hEq : j = i
      · rw [hEq, Function.update_self, Function.update_self, Option.elim_some]
      · rw [Function.update_of_ne hEq, Function.update_of_ne hEq, h.pde j hj]
    · intro j t' hj
      rw [hTable]
      obtain rfl | ⟨j', hj'⟩ := (inTables_update hT).mp ⟨j, hj⟩
      · refine ⟨?_, ⟨hAligned, hLow, hHigh⟩, if_pos rfl, hne.symm⟩
        by_cases hEq : j = i
        · rwa [hEq]
        · rw [Function.update_of_ne hEq] at hj
          exact absurd rfl (hOut _ ⟨j, hj⟩).1
      · have hNe := (hOut t' ⟨j', hj'⟩).1
        by_cases hEq : j = i
        · rw [hEq, Function.update_self] at hj
          exact absurd (Option.some.inj hj).symm hNe
        · rw [Function.update_of_ne hEq] at hj
          rw [if_neg hNe]
          exact h.table j t' hj
    · intro j j' t' hj hj'
      by_cases hEq : j = i
      · by_cases hEq' : j' = i
        · rw [hEq, hEq']
        · rw [hEq, Function.update_self] at hj
          rw [Function.update_of_ne hEq'] at hj'
          exact absurd (Option.some.inj hj).symm (hOut t' ⟨j', hj'⟩).1
      · by_cases hEq' : j' = i
        · rw [hEq', Function.update_self] at hj'
          rw [Function.update_of_ne hEq] at hj
          exact absurd (Option.some.inj hj').symm (hOut t' ⟨j, hj⟩).1
        · rw [Function.update_of_ne hEq] at hj
          rw [Function.update_of_ne hEq'] at hj'
          exact h.inj j j' t' hj hj'
    · intro j t' hj n hn
      by_cases hEq : j = i
      · rw [hEq, Function.update_self] at hj
        obtain rfl := Option.some.inj hj
        have hNone : P (256 * i + n) = none := by
          cases hP : P (256 * i + n) with
          | none => rfl
          | some q =>
            obtain ⟨-, -, t', ht'⟩ := h.page _ q.1 q.2 hP
            have hIdx : (256 * i + n) / 256 = i := by
              simp only [numPte] at hn
              omega
            rw [hIdx, hT] at ht'
            cases ht'
        rw [hEq, hNone, Option.elim_none]
        simp only [Mem.withTable, Mem.setEntry, Function.update_of_ne hne.symm, Function.update_self]
      · rw [Function.update_of_ne hEq] at hj
        obtain ⟨hNe, hNe'⟩ := hOut t' ⟨j, hj⟩
        rw [hTab t' hNe' hNe, h.pte j t' hj n hn]
    · intro k v ap hk
      obtain ⟨hPage, hAp, t', ht'⟩ := h.page k v ap hk
      refine ⟨⟨hPage.aligned, hPage.low, hPage.high, hPage.used⟩, hAp, t', ?_⟩
      have hne' : k / 256 ≠ i := by
        rintro hEq
        rw [hEq, hT] at ht'
        cases ht'
      rw [Function.update_of_ne hne', ht']
    · exact h.once
  · constructor
    · rfl
    · rfl
    · rfl
    · intro t' ht' hNe _
      have hNe' : t' ≠ t := by
        rintro rfl
        rw [ht'] at hUnused
        cases hUnused
      exact hTab t' hNe hNe'
    · exact fun _ _ _ => rfl
    · intro t'
      rw [hTable, inTables_update hT]
      by_cases hEq : t' = t
      · rw [if_pos hEq]
        exact ⟨fun _ => .inr (.inl hEq), fun _ => rfl⟩
      · rw [if_neg hEq]
        constructor
        · intro hUsed
          by_cases hIn : InTables T t'
          · exact .inr (.inr hIn)
          · exact .inl ⟨hUsed, hIn⟩
        · rintro (⟨hUsed, -⟩ | hEq' | hIn)
          · exact hUsed
          · exact absurd hEq' hEq
          · exact h.inUsed hIn
    · exact (Touch.refl h).page
    · intro t' ht'
      obtain rfl | hIn := (inTables_update hT).mp ht'
      · exact .inr hUnused
      · exact .inl hIn
    · exact fun _ => .inl

theorem wp_create (hR : Allows R) (h : Dir m d T P) (hva : va < uaddrSz) {Q : Option (Nat × Nat) → Mem → Prop}
    (hOld : ∀ t, T (pdeIdx va) = some t → Q (some (t, pteIdx va)) m)
    (hNew : ∀ t m', T (pdeIdx va) = none → m.table t = false → Dir m' d (Function.update T (pdeIdx va) (some t)) P →
      Touch m m' d T (Function.update T (pdeIdx va) (some t)) P P → m'.byte = m.byte → m'.page = m.page →
      Q (some (t, pteIdx va)) m') :
    wp R (walkpgdir d va true) Q m := by
  rw [walkpgdir, wp_bind]
  apply wp_getM hR.toCalm
  have hi := pdeIdx_lt hva
  rw [h.size, if_neg (Nat.not_le.mpr hi)]
  cases hT : T (pdeIdx va) with
  | some t =>
    obtain ⟨hPresent, hAddr⟩ := h.pde_some hT
    rw [if_pos hPresent, hAddr, wp_pure]
    exact hOld t hT
  | none =>
    rw [if_neg (not_not.mpr (h.pde_none hi hT)), if_neg (by decide), wp_bind]
    apply wp_kptAlloc hR
    intro t hFree
    obtain ⟨hDir, hTouch⟩ := h.withTable hi hT hFree
    rw [wp_bind]
    apply wp_modifyM hR.toCalm
    rw [wp_pure]
    exact hNew t _ hT hFree.2.2.2.2.1 hDir hTouch rfl rfl

end Walk

end Xv6Rpi.Uvm
