import Xv6Rpi.Uvm.Oom
import Xv6Rpi.Uvm.Stack

/-! # What mappages does to any page directory

Nothing is asked here of the pages that are mapped: the entries of the page tables are any words, and
the physical addresses need not be those of the allocator. A page directory only has to have its page
tables for itself. The loop is taken one page at a time, and a range of pages is mapped like its first
page and the others after it.
-/

namespace Xv6Rpi.Uvm

open Prog

def Mem.tableAt (m : Mem) (d i : Nat) : Nat := p2v (ptAddr (m.tab d i))

def Mem.Holds (m : Mem) (d i : Nat) : Prop := m.tab d i &&& peTypes ≠ 0

instance (m : Mem) (d i : Nat) : Decidable (m.Holds d i) := inferInstanceAs (Decidable (_ ≠ _))

/-- The directory and its page tables are in use, and no entry of it shares a page table. -/
structure WellFormed (m : Mem) (d : Nat) : Prop where
  own : m.table d = true ∨ d = m.kernelPgtbl
  table : ∀ i < m.dirSize d, m.Holds d i → m.table (m.tableAt d i) = true ∧ m.tableAt d i ≠ d
  inj : ∀ i < m.dirSize d, ∀ j < m.dirSize d, m.Holds d i → m.Holds d j → m.tableAt d i = m.tableAt d j → i = j

/-- The word of the entry that `walkpgdir` finds for an address. -/
def found (m : Mem) (d va : Nat) : Option Nat :=
  match (walkpgdir d va false).run m with
  | .ok (some (t, i), m') => some (m'.tab t i)
  | _ => none

/-- The word of the entry for the page with the number `k`. -/
def pte (m : Mem) (d k : Nat) : Option Nat :=
  if m.Holds d (k / 256) then some (m.tab (m.tableAt d (k / 256)) (k % 256)) else none

def dirPages (m : Mem) (d : Nat) : Nat := 256 * m.dirSize d

/-- The entries of the pages from `lo` to `hi` have been written, and the others are what they were; where
a page table has been made for them, they are empty. -/
structure Mapped (m m' : Mem) (d lo hi pa ap : Nat) : Prop where
  wellFormed : WellFormed m' d
  kernel : m'.kernelPgtbl = m.kernelPgtbl
  inside : ∀ k, lo ≤ k → k < hi → pte m' d k = some (pteWord ((pa + (k - lo) * pteSz) % 2 ^ 32) ap)
  same : ∀ k < dirPages m d, ¬(lo ≤ k ∧ k < hi) → ∀ w, pte m d k = some w → pte m' d k = some w
  empty : ∀ k < dirPages m d, ¬(lo ≤ k ∧ k < hi) → pte m d k = none → pte m' d k = none ∨ pte m' d k = some 0

section Find

variable {m m' : Mem} {d va k i t : Nat}

theorem found_eq (hIn : pdeIdx va < m.dirSize d) : found m d va = pte m d (va / pteSz) := by
  have hWalk : (walkpgdir d va false).run m =
      .ok ((if m.Holds d (pdeIdx va) then some (m.tableAt d (pdeIdx va), pteIdx va) else none), m) := by
    rw [walkpgdir, run_bind]
    change (if m.dirSize d ≤ pdeIdx va then (panic .outside : UvmM (Option (Nat × Nat))) else _).run m = _
    rw [if_neg (Nat.not_le.mpr hIn)]
    by_cases hHolds : m.Holds d (pdeIdx va)
    · rw [if_pos (show m.tab d (pdeIdx va) &&& peTypes ≠ 0 from hHolds), if_pos hHolds]
      rfl
    · rw [if_neg (show ¬(m.tab d (pdeIdx va) &&& peTypes ≠ 0) from hHolds), if_neg hHolds]
      rfl
  rw [found, hWalk, pte, ← pdeIdx_eq, ← pteIdx_eq]
  by_cases hHolds : m.Holds d (pdeIdx va)
  · rw [if_pos hHolds, if_pos hHolds]
  · rw [if_neg hHolds, if_neg hHolds]

theorem Mem.dirSize_congr (hKernel : m'.kernelPgtbl = m.kernelPgtbl) (d : Nat) : m'.dirSize d = m.dirSize d := by
  rw [Mem.dirSize, Mem.dirSize, hKernel]

theorem lt_dirPages : k < dirPages m d ↔ k / 256 < m.dirSize d := by
  rw [dirPages]
  omega

theorem FreeTable.addr (h : m.FreeTable t) : TableAddr t := ⟨h.1, h.2.1, h.2.2.1⟩

end Find

section Step

variable {R : Rely Mem Panic Label} {m m' m₁ : Mem} {d k i t pa ap lo mid hi : Nat}

theorem WellFormed.ne_free (h : WellFormed m d) (hFree : m.FreeTable t) : d ≠ t := by
  rintro rfl
  obtain ⟨-, -, -, hKernel, hUnused, -⟩ := hFree
  cases h.own with
  | inl hUsed =>
    rw [hUsed] at hUnused
    cases hUnused
  | inr hEq => exact hKernel hEq

/-- The entries of a directory whose entry `i` has got a new page table. -/
theorem withTable_holds (hNe : d ≠ t) (hAddr : TableAddr t) (j : Nat) :
    ((m.withTable d i t).Holds d j ↔ j = i ∨ m.Holds d j) ∧
      (m.withTable d i t).tableAt d j = if j = i then t else m.tableAt d j := by
  have hTab : (m.withTable d i t).tab d = Function.update (m.tab d) i (pdeWord t) := by
    simp only [Mem.withTable, Mem.setEntry, Function.update_self, Function.update_of_ne hNe]
  rw [Mem.Holds, Mem.tableAt, hTab]
  by_cases hEq : j = i
  · rw [hEq, Function.update_self, if_pos rfl]
    exact ⟨iff_of_true hAddr.present (Or.inl rfl), hAddr.ptAddr⟩
  · rw [Function.update_of_ne hEq, if_neg hEq, or_iff_right hEq]
    exact ⟨Iff.rfl, rfl⟩

theorem WellFormed.withTable (h : WellFormed m d) (hFree : m.FreeTable t) :
    WellFormed (m.withTable d i t) d ∧ (∀ k, k / 256 < m.dirSize d →
      pte (m.withTable d i t) d k = if k / 256 = i then some 0 else pte m d k) := by
  have hNe := h.ne_free hFree
  have hEntry := withTable_holds (m := m) (i := i) hNe (FreeTable.addr hFree)
  have hUsed (t' : Nat) : (m.withTable d i t).table t' = if t' = t then true else m.table t' := Function.update_apply ..
  have hFresh {j : Nat} (hj : j < m.dirSize d) (hIn : m.Holds d j) : m.tableAt d j ≠ t := by
    intro hEq
    have hTable := (h.table j hj hIn).1
    rw [hEq, hFree.2.2.2.2.1] at hTable
    cases hTable
  constructor
  · constructor
    · cases h.own with
      | inl hOwn =>
        refine Or.inl ?_
        rw [hUsed, if_neg hNe]
        exact hOwn
      | inr hKernel => exact Or.inr hKernel
    · intro j hj hIn
      rw [(hEntry j).2, hUsed]
      by_cases hEq : j = i
      · rw [if_pos hEq, if_pos rfl]
        exact ⟨rfl, hNe.symm⟩
      · obtain ⟨hTable, hOut⟩ := h.table j hj (((hEntry j).1.mp hIn).resolve_left hEq)
        rw [if_neg hEq, hTable]
        exact ⟨ite_self _, hOut⟩
    · intro j hj j' hj' hIn hIn' hEq
      rw [(hEntry j).2, (hEntry j').2] at hEq
      have hOld {n : Nat} (hIn : (m.withTable d i t).Holds d n) (hn : n ≠ i) : m.Holds d n :=
        ((hEntry n).1.mp hIn).resolve_left hn
      by_cases h1 : j = i
      · by_cases h2 : j' = i
        · rw [h1, h2]
        · rw [if_pos h1, if_neg h2] at hEq
          exact absurd hEq.symm (hFresh hj' (hOld hIn' h2))
      · by_cases h2 : j' = i
        · rw [if_neg h1, if_pos h2] at hEq
          exact absurd hEq (hFresh hj (hOld hIn h1))
        · rw [if_neg h1, if_neg h2] at hEq
          exact h.inj j hj j' hj' (hOld hIn h1) (hOld hIn' h2) hEq
  · intro k hk
    rw [pte, (hEntry _).2]
    by_cases hEq : k / 256 = i
    · rw [if_pos ((hEntry _).1.mpr (Or.inl hEq)), if_pos hEq, if_pos hEq]
      congr 1
      simp only [Mem.withTable, Mem.setEntry, Function.update_of_ne hNe.symm, Function.update_self]
    · rw [if_neg hEq, if_neg hEq, pte]
      by_cases hIn : m.Holds d (k / 256)
      · have hTab : (m.withTable d i t).tab (m.tableAt d (k / 256)) = m.tab (m.tableAt d (k / 256)) := by
          simp only [Mem.withTable, Mem.setEntry, Function.update_of_ne (h.table _ hk hIn).2,
            Function.update_of_ne (hFresh hk hIn)]
        rw [if_pos ((hEntry _).1.mpr (Or.inr hIn)), if_pos hIn, hTab]
      · rw [if_neg (fun hNew => hIn (((hEntry _).1.mp hNew).resolve_left hEq)), if_neg hIn]

theorem WellFormed.setEntry (h : WellFormed m d) {w : Nat} (hk : k / 256 < m.dirSize d) (hHolds : m.Holds d (k / 256)) :
    WellFormed (m.setEntry (m.tableAt d (k / 256)) (k % 256) w) d ∧ ∀ k', k' / 256 < m.dirSize d →
      pte (m.setEntry (m.tableAt d (k / 256)) (k % 256) w) d k' = if k' = k then some w else pte m d k' := by
  have hDir : (m.setEntry (m.tableAt d (k / 256)) (k % 256) w).tab d = m.tab d :=
    m.setEntry_other _ _ (h.table _ hk hHolds).2.symm
  have hHolds' (j : Nat) : (m.setEntry (m.tableAt d (k / 256)) (k % 256) w).Holds d j ↔ m.Holds d j := by
    rw [Mem.Holds, Mem.Holds, hDir]
  have hTable' (j : Nat) : (m.setEntry (m.tableAt d (k / 256)) (k % 256) w).tableAt d j = m.tableAt d j := by
    simp only [Mem.tableAt] at hDir ⊢
    rw [hDir]
  constructor
  · constructor
    · exact h.own
    · intro j hj hIn
      rw [hTable']
      exact h.table j hj ((hHolds' j).mp hIn)
    · intro j hj j' hj' hIn hIn' hEq
      rw [hTable', hTable'] at hEq
      exact h.inj j hj j' hj' ((hHolds' j).mp hIn) ((hHolds' j').mp hIn') hEq
  · intro k' hk'
    rw [pte, hTable']
    by_cases hIn : m.Holds d (k' / 256)
    · rw [if_pos ((hHolds' _).mpr hIn), pte, if_pos hIn]
      by_cases hSame : k' / 256 = k / 256
      · rw [hSame, Mem.setEntry_self]
        by_cases hEq : k' = k
        · rw [if_pos hEq, hEq, Function.update_self]
        · rw [if_neg hEq, Function.update_of_ne (by omega)]
      · have hOther : m.tableAt d (k' / 256) ≠ m.tableAt d (k / 256) := by
          intro hEq
          exact hSame (h.inj _ hk' _ hk hIn hHolds hEq)
        have hNe : k' ≠ k := fun hEq => hSame (congrArg (· / 256) hEq)
        rw [m.setEntry_other _ _ hOther, if_neg hNe]
    · have hNe : k' ≠ k := by
        rintro rfl
        exact hIn hHolds
      rw [if_neg (mt (hHolds' _).mp hIn), if_neg hNe, pte, if_neg hIn]

/-- `walkpgdir` with `alloc` finds the entry of a page, in a page table that it may have made. -/
theorem wp_walkPage (hR : Allows R) (h : WellFormed m d) (hk : k / 256 < m.dirSize d) {Q : Option (Nat × Nat) → Mem → Prop}
    (hQ : ∀ m', WellFormed m' d → m'.kernelPgtbl = m.kernelPgtbl → m'.Holds d (k / 256) →
      (∀ k' < dirPages m d, ∀ w, pte m d k' = some w → pte m' d k' = some w) →
      (∀ k' < dirPages m d, pte m d k' = none → pte m' d k' = none ∨ pte m' d k' = some 0) →
      Q (some (m'.tableAt d (k / 256), k % 256)) m') :
    wp R (walkpgdir d (k * pteSz) true) Q m := by
  rw [walkpgdir, wp_bind]
  apply wp_getM hR.toCalm
  rw [pdeIdx_page, pteIdx_page, if_neg (Nat.not_le.mpr hk)]
  by_cases hHolds : m.Holds d (k / 256)
  · rw [if_pos (show m.tab d (k / 256) &&& peTypes ≠ 0 from hHolds), wp_pure]
    exact hQ m h rfl hHolds (fun _ _ _ => id) fun _ _ => Or.inl
  · rw [if_neg (show ¬(m.tab d (k / 256) &&& peTypes ≠ 0) from hHolds), if_neg (by decide), wp_bind]
    apply wp_kptAlloc hR
    intro t hFree
    have hAddr := FreeTable.addr hFree
    obtain ⟨hForm, hPte⟩ := h.withTable (i := k / 256) hFree
    have hEntry := withTable_holds (m := m) (i := k / 256) (h.ne_free hFree) hAddr (k / 256)
    rw [wp_bind]
    apply wp_modifyM hR.toCalm
    rw [wp_pure]
    have hNone {k' : Nat} (hEq : k' / 256 = k / 256) : pte m d k' = none := by
      rw [pte, hEq, if_neg hHolds]
    have hAt := hEntry.2
    rw [if_pos rfl] at hAt
    have hEnd := hQ (m.withTable d (k / 256) t) hForm rfl (hEntry.1.mpr (Or.inl rfl)) ?_ ?_
    · rw [hAt] at hEnd
      exact hEnd
    · intro k' hk' w hw
      rw [hPte k' (lt_dirPages.mp hk')]
      split
      · rename_i hEq
        rw [hNone hEq] at hw
        cases hw
      · exact hw
    · intro k' hk' hw
      rw [hPte k' (lt_dirPages.mp hk')]
      split
      · exact Or.inr rfl
      · exact Or.inl hw

theorem Mapped.trans (h : Mapped m m₁ d lo mid pa ap) (h' : Mapped m₁ m' d mid hi ((pa + (mid - lo) * pteSz) % 2 ^ 32) ap)
    (hLo : lo ≤ mid) (hHi : mid ≤ hi) (hIn : hi ≤ dirPages m d) : Mapped m m' d lo hi pa ap := by
  have hPages : dirPages m₁ d = dirPages m d := by
    rw [dirPages, dirPages, Mem.dirSize_congr h.kernel]
  refine ⟨h'.wellFormed, h'.kernel.trans h.kernel, ?_, ?_, ?_⟩
  · intro k hk hk'
    by_cases hMid : k < mid
    · exact h'.same k (by omega) (by omega) _ (h.inside k hk hMid)
    · rw [h'.inside k (by omega) hk']
      rw [Nat.mod_add_mod, Nat.add_assoc, ← Nat.add_mul, show mid - lo + (k - mid) = k - lo by omega]
  · intro k hk hOut w hw
    exact h'.same k (by omega) (by omega) w (h.same k hk (by omega) w hw)
  · intro k hk hOut hw
    cases h.empty k hk (by omega) hw with
    | inl hNone => exact h'.empty k (by omega) (by omega) hNone
    | inr hZero => exact Or.inr (h'.same k (by omega) (by omega) 0 hZero)

theorem wp_mapTurn (hR : Allows R) {n last : Nat} (h : WellFormed m d) (hIn : k < dirPages m d)
    (hFree : ∀ w, pte m d k = some w → w &&& peTypes = 0) (hPa : pa < 2 ^ 32) {Q : Int → Mem → Prop}
    (hQ : ∀ m', Mapped m m' d k (k + 1) pa ap → if k * pteSz = last then Q 0 m' else
      wp R (mapLoop d last ap n ((k * pteSz + pteSz) % 2 ^ 32) ((pa + pteSz) % 2 ^ 32)) Q m') :
    wp R (mapLoop d last ap (n + 1) (k * pteSz) pa) Q m := by
  rw [mapLoop, wp_bind]
  apply wp_walkPage hR h (lt_dirPages.mp hIn)
  intro m₁ hForm hKernel hHolds hSame hEmpty
  have hPages : dirPages m₁ d = dirPages m d := by
    rw [dirPages, dirPages, Mem.dirSize_congr hKernel]
  have hPte : pte m₁ d k = some (m₁.tab (m₁.tableAt d (k / 256)) (k % 256)) := if_pos hHolds
  have hUnmapped : m₁.tab (m₁.tableAt d (k / 256)) (k % 256) &&& peTypes = 0 := by
    cases hOld : pte m d k with
    | some w =>
      rw [hSame k hIn w hOld] at hPte
      rw [← Option.some.inj hPte]
      exact hFree w hOld
    | none =>
      cases hEmpty k hIn hOld with
      | inl hNone =>
        rw [hNone] at hPte
        cases hPte
      | inr hZero =>
        rw [hZero] at hPte
        rw [← Option.some.inj hPte, Nat.zero_and]
  have hSize : k / 256 < m₁.dirSize d := by rw [← lt_dirPages, hPages]; exact hIn
  obtain ⟨hForm', hPte'⟩ := hForm.setEntry (w := pteWord pa ap) hSize hHolds
  have hMapped : Mapped m (m₁.setEntry (m₁.tableAt d (k / 256)) (k % 256) (pteWord pa ap)) d k (k + 1) pa ap := by
    refine ⟨hForm', hKernel, ?_, ?_, ?_⟩
    · intro k' hk hk'
      obtain rfl : k' = k := by omega
      rw [hPte' k' hSize, if_pos rfl, Nat.sub_self, Nat.zero_mul, Nat.add_zero, Nat.mod_eq_of_lt hPa]
    · intro k' hk' hOut w hw
      rw [hPte' k' (by rwa [← lt_dirPages, hPages]), if_neg (by omega)]
      exact hSame k' hk' w hw
    · intro k' hk' hOut hw
      rw [hPte' k' (by rwa [← lt_dirPages, hPages]), if_neg (by omega)]
      exact hEmpty k' hk' hw
  have hNext := hQ _ hMapped
  dsimp only
  rw [wp_bind]
  apply wp_getM hR.toCalm
  rw [if_neg (not_not.mpr hUnmapped), wp_bind]
  apply wp_modifyM hR.toCalm
  split
  · rename_i hEnd
    rw [if_pos hEnd] at hNext
    exact hNext
  · rename_i hEnd
    rw [if_neg hEnd] at hNext
    exact hNext

/-- The loop maps the pages from `k` on to the last, if none of them is mapped. -/
theorem wp_mapLoop (hR : Allows R) {n : Nat} (h : WellFormed m d) (hIn : k + n < dirPages m d)
    (hTop : (k + n) * pteSz < 2 ^ 32) (hFree : ∀ k', k ≤ k' → k' ≤ k + n → ∀ w, pte m d k' = some w → w &&& peTypes = 0)
    (hPa : pa < 2 ^ 32) {Q : Int → Mem → Prop} (hQ : ∀ m', Mapped m m' d k (k + n + 1) pa ap → Q 0 m') :
    wp R (mapLoop d ((k + n) * pteSz) ap (n + 1) (k * pteSz) pa) Q m := by
  induction n generalizing m k pa with
  | zero =>
    apply wp_mapTurn hR h hIn (hFree k le_rfl le_rfl) hPa
    intro m' hMapped
    rw [if_pos rfl]
    exact hQ m' hMapped
  | succ n ih =>
    apply wp_mapTurn hR h (by omega) (hFree k le_rfl (by omega)) hPa
    intro m₁ hMapped
    have hPages : dirPages m₁ d = dirPages m d := by
      rw [dirPages, dirPages, Mem.dirSize_congr hMapped.kernel]
    have hMore : k * pteSz ≠ (k + (n + 1)) * pteSz := by
      simp only [pteSz]
      omega
    have hNext : (k * pteSz + pteSz) % 2 ^ 32 = (k + 1) * pteSz := by
      simp only [pteSz] at *
      omega
    rw [if_neg hMore, hNext, show k + (n + 1) = k + 1 + n by omega]
    apply ih hMapped.wellFormed (by omega) (by rwa [show k + 1 + n = k + (n + 1) by omega]) ?_ (Nat.mod_lt _ (by decide))
    · intro m' hRest
      apply hQ
      have hStep : (pa + (k + 1 - k) * pteSz) % 2 ^ 32 = (pa + pteSz) % 2 ^ 32 := by
        rw [Nat.add_sub_cancel_left, Nat.one_mul]
      rw [← hStep] at hRest
      have hTrans := hMapped.trans hRest (by omega) (by omega) (by omega)
      rwa [show k + 1 + n + 1 = k + (n + 1) + 1 by omega] at hTrans
    · intro k' hk hk' w hw
      cases hOld : pte m d k' with
      | some w' =>
        have hSame := hMapped.same k' (by omega) (by omega) w' hOld
        rw [hw] at hSame
        rw [Option.some.inj hSame]
        exact hFree k' (by omega) (by omega) w' hOld
      | none =>
        cases hMapped.empty k' (by omega) (by omega) hOld with
        | inl hNone =>
          rw [hNone] at hw
          cases hw
        | inr hZero =>
          rw [hZero] at hw
          rw [← Option.some.inj hw, Nat.zero_and]

end Step

section Range

/-- The page-rounded range `[va, va + size)`. -/
def Covered (va size a : Nat) : Prop := va ≤ a ∧ a / pteSz ≤ (va + size - 1) / pteSz

variable {m m' : Mem} {d va size pa ap : Nat}

theorem v2p_p2v {a : Nat} (h : a < 2 ^ 32) : v2p (p2v a) = a := by
  simp only [v2p, p2v, kernbase_eq]
  omega

/-- The entry that is written for a page address holds it, with the two bits of the permission. -/
theorem pteWord_fields {a : Nat} (hMod : a % pteSz = 0) (hLt : a < 2 ^ 32) :
    pteAddr (pteWord a ap) = a ∧ pteAp (pteWord a ap) = ap % 4 := by
  have hPage : PageAddr (p2v a) := by
    constructor
    · simp only [p2v, kernbase_eq, pteSz] at *
      omega
    · exact Nat.mod_lt _ (by decide)
  have hAddr := hPage.pteAddr ap
  have hAp := hPage.pteAp ap
  rw [v2p_p2v hLt] at hAddr hAp
  exact ⟨hAddr, hAp⟩

end Range

/-- Where every `kpt_alloc` finds a page-table page, `mappages` returns 0 and maps exactly the pages of the
range: their entries have the physical page and the permission asked for, every other entry that was there
is there as it was, the ones that were not are missing or empty, and no two entries of the directory share
a page table. Elsewhere `kpt_alloc` panics. -/
theorem mappages_maps {m : Mem} {d va size pa : Nat} (h : WellFormed m d) (hVa : va % pteSz = 0)
    (hPa : pa % pteSz = 0 ∧ pa < 2 ^ 32) (hSize : 0 < size) (hEnd : va + size - 1 < 2 ^ 32)
    (hIn : pdeIdx (va + size - 1) < m.dirSize d)
    (hFree : ∀ a, Covered va size a → ∀ w, found m d a = some w → w &&& peTypes = 0) (ap : Nat) :
    ((mappages d va size pa ap).along Tables m → ∃ m', (mappages d va size pa ap).run m = .ok (0, m') ∧ WellFormed m' d ∧
      (∀ a, Covered va size a → ∃ w, found m' d a = some w ∧
        pteAddr w = alignDn ((pa + (a - va)) % 2 ^ 32) pteSz ∧ pteAp w = ap % 4) ∧
      ∀ a, pdeIdx a < m.dirSize d → ¬Covered va size a →
        (∀ w, found m d a = some w → found m' d a = some w) ∧
        (found m d a = none → found m' d a = none ∨ found m' d a = some 0)) ∧
    (¬(mappages d va size pa ap).along Tables m → (mappages d va size pa ap).run m = .error .oomKptAlloc) := by
  obtain ⟨hPaMod, hPaLt⟩ := hPa
  have hTop : (va + size - 1) / pteSz * pteSz < 2 ^ 32 := lt_of_le_of_lt (Nat.div_mul_le_self _ _) hEnd
  have hFirst : va / pteSz * pteSz = va := by
    simp only [pteSz] at *
    omega
  have hSplit : (va + size - 1) / pteSz = va / pteSz + ((va + size - 1) / pteSz - va / pteSz) :=
    (Nat.add_sub_cancel' (Nat.div_le_div_right (by omega))).symm
  have hDir : (va + size - 1) / pteSz < dirPages m d := by
    rw [lt_dirPages, ← pdeIdx_eq]
    exact hIn
  have hRange {a : Nat} : Covered va size a ↔ va / pteSz ≤ a / pteSz ∧ a / pteSz ≤ (va + size - 1) / pteSz := by
    apply and_congr_left
    intro _
    simp only [pteSz] at *
    omega
  have hFound {m₁ : Mem} (hKernel : m₁.kernelPgtbl = m.kernelPgtbl) {a : Nat} (ha : pdeIdx a < m.dirSize d) :
      found m₁ d a = pte m₁ d (a / pteSz) := found_eq (by rwa [Mem.dirSize_congr hKernel])
  -- the turns of the loop are as many as there are pages
  have hTurns : mappages d va size pa ap =
      mapLoop d ((va / pteSz + ((va + size - 1) / pteSz - va / pteSz)) * pteSz) ap
        ((va + size - 1) / pteSz - va / pteSz + 1) (va / pteSz * pteSz) pa := by
    have hEndMod : (va + size + 2 ^ 32 - 1) % 2 ^ 32 = va + size - 1 := by omega
    have hCount : ((va + size - 1) / pteSz * pteSz + 2 ^ 32 - va / pteSz * pteSz) % 2 ^ 32 / pteSz =
        (va + size - 1) / pteSz - va / pteSz := by
      simp only [pteSz] at *
      omega
    rw [mappages, hEndMod, alignDn_page hEnd, alignDn_page (by omega : va < 2 ^ 32), ← hSplit, hCount]
  have hPdeIdx {a : Nat} (ha : Covered va size a) : pdeIdx a < m.dirSize d := by
    have hLe := Nat.div_le_div_right (c := 256) ha.2
    rw [pdeIdx_eq] at hIn ⊢
    exact Nat.lt_of_le_of_lt hLe hIn
  have hUnmapped : ∀ k, va / pteSz ≤ k → k ≤ va / pteSz + ((va + size - 1) / pteSz - va / pteSz) →
      ∀ w, pte m d k = some w → w &&& peTypes = 0 := by
    intro k hk hk' w hw
    have hPage : k * pteSz / pteSz = k := Nat.mul_div_cancel _ (by decide)
    have hIn' : Covered va size (k * pteSz) := by
      rw [hRange, hPage, hSplit]
      exact ⟨hk, hk'⟩
    apply hFree _ hIn'
    rw [hFound rfl (hPdeIdx hIn'), hPage, hw]
  have hJudge : judge oomJudge (mappages d va size pa ap)
      (fun r m' => r = 0 ∧ Mapped m m' d (va / pteSz) ((va + size - 1) / pteSz + 1) pa ap) (fun _ _ => False) m := by
    rw [hTurns]
    apply judge_of_wp (oomJudge_watches.mapLoop ..)
    apply wp_mapLoop oomJudge_watches.allows h (hSplit ▸ hDir) (hSplit ▸ hTop) hUnmapped hPaLt
    intro m' hMapped
    rw [← hSplit] at hMapped
    exact ⟨rfl, hMapped⟩
  have hMay : (mappages d va size pa ap).along oomJudge.may m := along_of_forall fun _ _ => trivial
  constructor
  · intro hTables
    obtain ⟨r, m', hRun, rfl, hMapped⟩ := judge_returns hJudge hMay hTables fun _ => id
    refine ⟨m', hRun, hMapped.wellFormed, ?_, ?_⟩
    · intro a ha
      obtain ⟨hLow, hHigh⟩ := hRange.mp ha
      have hPage : (pa + (a / pteSz - va / pteSz) * pteSz) % 2 ^ 32 = alignDn ((pa + (a - va)) % 2 ^ 32) pteSz := by
        rw [alignDn_page (Nat.mod_lt _ (by decide))]
        simp only [pteSz] at *
        omega
      have hMod : (pa + (a / pteSz - va / pteSz) * pteSz) % 2 ^ 32 % pteSz = 0 := by
        simp only [pteSz] at *
        omega
      have hFields := @pteWord_fields ap _ hMod (Nat.mod_lt _ (by decide))
      refine ⟨pteWord ((pa + (a / pteSz - va / pteSz) * pteSz) % 2 ^ 32) ap, ?_, hFields.1.trans hPage, hFields.2⟩
      rw [hFound hMapped.kernel (hPdeIdx ha), hMapped.inside _ hLow (by omega)]
    · intro a ha hOut
      have hIn' : a / pteSz < dirPages m d := by
        rw [lt_dirPages, ← pdeIdx_eq]
        exact ha
      have hOther : ¬(va / pteSz ≤ a / pteSz ∧ a / pteSz < (va + size - 1) / pteSz + 1) := by
        rw [Nat.lt_succ_iff, ← hRange]
        exact hOut
      rw [hFound rfl ha, hFound hMapped.kernel ha]
      exact ⟨hMapped.same _ hIn' hOther, hMapped.empty _ hIn' hOther⟩
  · intro hNot
    obtain ⟨e, hRun, rfl⟩ := (wrong_of_not_along hJudge hMay hNot).stops
    exact hRun

/-- A directory at the bottom of the page-table pages, with nothing in it. -/
def emptyDirMem : Mem where
  kernelPgtbl := kernbase + 0x4000
  heap := kernbase + 0x200000
  tab _ _ := 0
  byte _ _ := 0
  page _ := false
  table t := t = kernbase + 0x100000
  wild := false
  answers := [kernbase + 0x100400]

theorem mappages_maps_two_pages :
    ∃ m' w, (mappages (kernbase + 0x100000) 0x3000 0x1001 0x200000 apKu).run emptyDirMem = .ok (0, m') ∧
      found m' (kernbase + 0x100000) 0x4ABC = some w ∧ pteAddr w = 0x201000 ∧ pteAp w = apKu := by
  have hNone (i : Nat) : ¬emptyDirMem.Holds (kernbase + 0x100000) i := fun h => h (Nat.zero_and _)
  obtain ⟨hMaps, -⟩ := @mappages_maps emptyDirMem (kernbase + 0x100000) 0x3000 0x1001 0x200000
    ⟨Or.inl (by decide), fun i _ h => absurd h (hNone i), fun i _ _ _ h => absurd h (hNone i)⟩ (by decide) (by decide)
    (by decide) (by decide) (by decide) (fun a ha w hw => by
      have hIdx : pdeIdx a < emptyDirMem.dirSize (kernbase + 0x100000) := by
        rw [pdeIdx_eq]
        exact Nat.lt_of_le_of_lt (Nat.div_le_div_right ha.2) (by decide)
      rw [found_eq hIdx, pte, if_neg (hNone _)] at hw
      cases hw) apKu
  obtain ⟨m', hRun, -, hInside, -⟩ := hMaps (by decide +kernel)
  obtain ⟨w, hw, hAddr, hAp⟩ := hInside 0x4ABC ⟨by decide, by decide⟩
  exact ⟨m', w, hRun, hw, hAddr.trans (by decide), hAp⟩

end Xv6Rpi.Uvm
