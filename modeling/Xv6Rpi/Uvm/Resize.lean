import Xv6Rpi.Uvm.Space

/-! # Growing and shrinking an address space

`allocuvm` maps fresh pages one by one and takes them all back when it runs out of them;
`deallocuvm` scans a range of pages and frees what it finds. The scan leaves out pages that
follow a missing page table, so it empties a range only where the mapped pages come first.
-/

namespace Xv6Rpi.Uvm

open Prog

def pages (sz : Nat) : Nat := (sz + (pteSz - 1)) / pteSz

/-- The mapping without the pages from `lo` to `hi`. -/
def cleared (P : Nat → Option (Nat × Nat)) (lo hi : Nat) : Nat → Option (Nat × Nat) :=
  fun k => if lo ≤ k ∧ k < hi then none else P k

/-- Where a page table is missing the scan of `deallocuvm` from `lo` on goes to the next multiple
of 1 MB and one page further, so it leaves out the first page of the next table. -/
def Skipped (T : Nat → Option Nat) (lo k : Nat) : Prop := lo < k ∧ k % 256 = 0 ∧ T (k / 256 - 1) = none

instance (T : Nat → Option Nat) (lo k : Nat) : Decidable (Skipped T lo k) := inferInstanceAs (Decidable (_ ∧ _))

def scanned (T : Nat → Option Nat) (P : Nat → Option (Nat × Nat)) (lo hi : Nat) : Nat → Option (Nat × Nat) :=
  fun k => if lo ≤ k ∧ k < hi ∧ ¬Skipped T lo k then none else P k

def Solid (P : Nat → Option (Nat × Nat)) (lo hi : Nat) : Prop :=
  ∀ k k', lo ≤ k' → k' ≤ k → k < hi → P k' = none → P k = none

section Entries

variable {m m' m₁ : Mem} {d t k v ap : Nat} {T T' : Nat → Option Nat} {P P' : Nat → Option (Nat × Nat)}
  {e : Option (Nat × Nat)}

theorem Dir.setPte (h : Dir m d T P) (hT : T (k / 256) = some t) (hHeap : m'.heap = m.heap)
    (hKernel : m'.kernelPgtbl = m.kernelPgtbl) (hTable : m'.table = m.table)
    (hTab : m'.tab = (m.setEntry t (k % 256) (e.elim 0 fun q => pteWord (v2p q.1) q.2)).tab)
    (hNew : ∀ v ap, e = some (v, ap) → UserPage m' v ∧ ap < 4 ∧ ∀ k' ap', P k' = some (v, ap') → k' = k)
    (hPage : ∀ k' v ap, k' ≠ k → P k' = some (v, ap) → m'.page v = true) :
    Dir m' d T (Function.update P k e) := by
  have hOther : ∀ t', t' ≠ t → m'.tab t' = m.tab t' := by
    intro t' hne
    rw [hTab, Mem.setEntry_other m _ _ hne]
  have hd : d ≠ t := (h.table _ t hT).2.2.2.symm
  constructor
  · exact hHeap ▸ h.heap
  · exact h.addr
  · rw [hTable, h.used]
  · exact hKernel ▸ h.kernel
  · intro i hi
    rw [hOther d hd, h.pde i hi]
  · intro i t' hi
    rw [hTable]
    exact h.table i t' hi
  · exact h.inj
  · intro i t' hi j hj
    simp only [numPte] at hj
    by_cases hEq : 256 * i + j = k
    · have hi' : k / 256 = i := by omega
      have hj' : k % 256 = j := by omega
      rw [hi', hi] at hT
      obtain rfl := Option.some.inj hT
      rw [hEq, Function.update_self, hTab, Mem.setEntry_self, hj', Function.update_self]
    · rw [Function.update_of_ne hEq, ← h.pte i t' hi j hj]
      by_cases hEq' : t' = t
      · have hi' : i = k / 256 := h.inj i _ t' hi (hEq' ▸ hT)
        have hj' : j ≠ k % 256 := by omega
        rw [hEq', hTab, Mem.setEntry_self, Function.update_of_ne hj']
      · rw [hOther t' hEq']
  · intro k' v ap hk'
    by_cases hEq : k' = k
    · rw [hEq, Function.update_self] at hk'
      obtain ⟨hUser, hAp, -⟩ := hNew v ap hk'
      exact ⟨hUser, hAp, t, hEq ▸ hT⟩
    · rw [Function.update_of_ne hEq] at hk'
      obtain ⟨hUser, hRest⟩ := h.page k' v ap hk'
      exact ⟨⟨hUser.aligned, hHeap ▸ hUser.low, hUser.high, hPage k' v ap hEq hk'⟩, hRest⟩
  · intro k₁ k₂ v ap ap' h₁ h₂
    by_cases hEq : k₁ = k
    · by_cases hEq' : k₂ = k
      · rw [hEq, hEq']
      · rw [hEq, Function.update_self] at h₁
        rw [Function.update_of_ne hEq'] at h₂
        rw [hEq, (hNew v ap h₁).2.2 k₂ ap' h₂]
    · rw [Function.update_of_ne hEq] at h₁
      by_cases hEq' : k₂ = k
      · rw [hEq', Function.update_self] at h₂
        rw [hEq', (hNew v ap' h₂).2.2 k₁ ap h₁]
      · rw [Function.update_of_ne hEq'] at h₂
        exact h.once k₁ k₂ v ap ap' h₁ h₂

/-- Writing an entry of one of the directory's own tables touches nothing else. -/
theorem Touch.setPte (h : Dir m d T P) (hT : T (k / 256) = some t) (w : Nat) :
    Touch m (m.setEntry t (k % 256) w) d T T P P := by
  have hSame := Touch.refl h
  constructor
  · rfl
  · rfl
  · rfl
  · intro t' _ _ hOut
    have hne : t' ≠ t := by
      rintro rfl
      exact hOut ⟨_, hT⟩
    exact Mem.setEntry_other m _ _ hne
  · exact fun _ _ _ => rfl
  · exact hSame.table
  · exact hSame.page
  · exact fun _ => .inl
  · exact fun _ => .inl

structure Taken (m m₁ : Mem) (v : Nat) : Prop where
  heap : m₁.heap = m.heap
  kernel : m₁.kernelPgtbl = m.kernelPgtbl
  wild : m₁.wild = m.wild
  tab : m₁.tab = m.tab
  table : m₁.table = m.table
  byte : ∀ v', v' ≠ v → m₁.byte v' = m.byte v'
  free : m.page v = false
  page : m₁.page = Function.update m.page v true

theorem Taken.write (h : Taken m m₁ v) (l : Nat → UInt8) : Taken m { m₁ with byte := Function.update m₁.byte v l } v :=
  ⟨h.heap, h.kernel, h.wild, h.tab, h.table, fun v' hne => (Function.update_of_ne hne ..).trans (h.byte v' hne), h.free, h.page⟩

theorem Taken.ne (h : Taken m m₁ v) {v' : Nat} (hUsed : m.page v' = true) : v' ≠ v := by
  rintro rfl
  rw [h.free] at hUsed
  cases hUsed

theorem Taken.page_of (h : Taken m m₁ v) {v' : Nat} (hUsed : m.page v' = true) : m₁.page v' = true := by
  rw [h.page, Function.update_of_ne (h.ne hUsed), hUsed]

theorem Dir.taken (h : Dir m d T P) (hTaken : Taken m m₁ v) : Dir m₁ d T P := by
  refine h.congr hTaken.heap hTaken.kernel (fun t ht => ?_) fun v' hv' => hTaken.page_of (h.pageUsed hv').used
  rw [hTaken.tab, hTaken.table]
  obtain rfl | hIn := ht
  · exact ⟨rfl, h.used⟩
  · exact ⟨rfl, h.inUsed hIn⟩

theorem Touch.take (hTaken : Taken m m₁ v) (hP : P k = none) (h : Touch m₁ m' d T T' P P) :
    Touch m m' d T T' P (Function.update P k (some (v, ap))) := by
  have hIn : ∀ v', InPages (Function.update P k (some (v, ap))) v' ↔ v' = v ∨ InPages P v' := by
    intro v'
    constructor
    · rintro ⟨k', ap', hk'⟩
      by_cases hEq : k' = k
      · rw [hEq, Function.update_self] at hk'
        exact .inl (congrArg Prod.fst (Option.some.inj hk')).symm
      · rw [Function.update_of_ne hEq] at hk'
        exact .inr ⟨k', ap', hk'⟩
    · rintro (rfl | ⟨k', ap', hk'⟩)
      · exact ⟨k, ap, Function.update_self ..⟩
      · have hEq : k' ≠ k := by
          rintro rfl
          rw [hP] at hk'
          cases hk'
        exact ⟨k', ap', by rw [Function.update_of_ne hEq, hk']⟩
  constructor
  · exact h.heap.trans hTaken.heap
  · exact h.kernel.trans hTaken.kernel
  · exact h.wild.trans hTaken.wild
  · intro t
    rw [← hTaken.table, ← hTaken.tab]
    exact h.tab t
  · intro v' hUsed hOut
    rw [h.byte v' (hTaken.page_of hUsed) hOut, hTaken.byte v' (hTaken.ne hUsed)]
  · intro t
    rw [← hTaken.table]
    exact h.table t
  · intro v'
    rw [h.page v', hIn v', hTaken.page]
    by_cases hEq : v' = v
    · rw [hEq, Function.update_self]
      constructor
      · exact fun _ => .inr (.inl rfl)
      · intro _
        by_cases hOld : InPages P v
        · exact .inr hOld
        · exact .inl ⟨rfl, hOld⟩
    · rw [Function.update_of_ne hEq]
      constructor
      · rintro (hOld | hOld)
        · exact .inl hOld
        · exact .inr (.inr hOld)
      · rintro (hOld | hEq' | hOld)
        · exact .inl hOld
        · exact absurd hEq' hEq
        · exact .inr hOld
  · intro t
    rw [← hTaken.table]
    exact h.newTable t
  · intro v' hv'
    obtain rfl | hOld := (hIn v').mp hv'
    · exact .inr hTaken.free
    · exact .inl hOld

theorem Dir.unmap (h : Dir m d T P) (hT : T (k / 256) = some t) (hP : P k = some (v, ap)) :
    let m' := Mem.setEntry { m with
      wild := m.wild || !m.page v
      page := Function.update m.page v false } t (k % 256) 0
    Dir m' d T (Function.update P k none) ∧ Touch m m' d T T P (Function.update P k none) := by
  intro m'
  have hUsed := (h.page k v ap hP).1.used
  have hIn : ∀ v', InPages (Function.update P k none) v' ↔ v' ≠ v ∧ InPages P v' := by
    intro v'
    constructor
    · rintro ⟨k', ap', hk'⟩
      have hEq : k' ≠ k := by
        rintro rfl
        rw [Function.update_self] at hk'
        cases hk'
      rw [Function.update_of_ne hEq] at hk'
      refine ⟨?_, k', ap', hk'⟩
      rintro rfl
      exact hEq (h.once _ _ _ _ _ hk' hP)
    · rintro ⟨hne, k', ap', hk'⟩
      have hEq : k' ≠ k := by
        rintro rfl
        rw [hP] at hk'
        exact hne (congrArg Prod.fst (Option.some.inj hk')).symm
      exact ⟨k', ap', by rw [Function.update_of_ne hEq, hk']⟩
  constructor
  · refine h.setPte hT rfl rfl rfl rfl (fun v ap hNew => by cases hNew) fun k' v' ap' hne hk' => ?_
    have hne' : v' ≠ v := by
      rintro rfl
      exact hne (h.once _ _ _ _ _ hk' hP)
    exact (Function.update_of_ne hne' _ _).trans (h.page k' v' ap' hk').1.used
  · have hEntry := Touch.setPte h hT 0
    constructor
    · rfl
    · rfl
    · change (m.wild || !m.page v) = m.wild
      rw [hUsed, Bool.not_true, Bool.or_false]
    · exact hEntry.tab
    · exact fun _ _ _ => rfl
    · exact hEntry.table
    · intro v'
      rw [hIn v']
      by_cases hEq : v' = v
      · subst hEq
        have hGone : m'.page v' = false := Function.update_self ..
        rw [hGone]
        constructor
        · intro hFalse
          cases hFalse
        · rintro (⟨-, hOut⟩ | ⟨hne, -⟩)
          · exact absurd ⟨k, ap, hP⟩ hOut
          · exact absurd rfl hne
      · have hSame : m'.page v' = m.page v' := Function.update_of_ne hEq _ _
        rw [hSame]
        constructor
        · intro hOld
          exact ((Touch.refl h).page v').mp hOld |>.imp id fun hIn' => ⟨hEq, hIn'⟩
        · rintro (⟨hOld, -⟩ | ⟨-, hIn'⟩)
          · exact hOld
          · exact (h.pageUsed hIn').used
    · exact fun _ => .inl
    · intro v' hv'
      exact .inl ((hIn v').mp hv').2

theorem Touch.table_eq (h : Dir m d T P) (hTouch : Touch m m' d T T P P') : m'.table = m.table := by
  funext t
  rw [Bool.eq_iff_iff, hTouch.table t, ← (Touch.refl h).table t]

theorem Touch.page_eq (h : Dir m d T P) (hTouch : Touch m m' d T T' P P) : m'.page = m.page := by
  funext v
  rw [Bool.eq_iff_iff, hTouch.page v, ← (Touch.refl h).page v]

end Entries

section Pages

variable {m : Mem} {d t k : Nat} {T : Nat → Option Nat} {P : Nat → Option (Nat × Nat)}

theorem pdeIdx_page (k : Nat) : pdeIdx (k * pteSz) = k / 256 := by
  rw [pdeIdx_eq, pteSz, Nat.mul_div_cancel _ (by decide)]

theorem pteIdx_page (k : Nat) : pteIdx (k * pteSz) = k % 256 := by
  rw [pteIdx_eq, pteSz, Nat.mul_div_cancel _ (by decide)]

theorem Dir.table_of (h : Dir m d T P) (hT : T (k / 256) = none) : P k = none := by
  cases hP : P k with
  | none => rfl
  | some q =>
    obtain ⟨-, -, t, ht⟩ := h.page k q.1 q.2 hP
    rw [hT] at ht
    cases ht

theorem Dir.lt_npages (h : Dir m d T P) {k : Nat} (hk : npages ≤ k) : P k = none := by
  cases hP : P k with
  | none => rfl
  | some q =>
    obtain ⟨-, -, t, ht⟩ := h.page k q.1 q.2 hP
    have hIdx := (h.table _ t ht).1
    simp only [npages, numUpde, numPte] at *
    omega

theorem Dir.entry_none (h : Dir m d T P) (hT : T (k / 256) = some t) (hP : P k = none) : m.tab t (k % 256) = 0 := by
  have hLt : k % 256 < numPte := Nat.mod_lt k (by decide)
  rw [← Nat.div_add_mod k 256] at hP
  exact h.pte_none hT hLt hP

theorem Dir.entry_some (h : Dir m d T P) (hT : T (k / 256) = some t) {v ap : Nat} (hP : P k = some (v, ap)) :
    m.tab t (k % 256) &&& peTypes ≠ 0 ∧ pteAddr (m.tab t (k % 256)) = v2p v ∧ p2v (v2p v) = v ∧
      pteAp (m.tab t (k % 256)) = ap := by
  have hLt : k % 256 < numPte := Nat.mod_lt k (by decide)
  rw [← Nat.div_add_mod k 256] at hP
  exact h.pte_some hT hLt hP

end Pages

section Shrink

variable {R : Rely Mem Panic Label} {m m' : Mem} {d k : Nat} {T : Nat → Option Nat} {P : Nat → Option (Nat × Nat)}

theorem lt_pages {sz : Nat} : k < pages sz ↔ k * pteSz < sz := by
  simp only [pages, pteSz]
  omega

theorem pages_le {sz n : Nat} (h : sz ≤ n * pteSz) : pages sz ≤ n := by
  simp only [pages, pteSz] at *
  omega

theorem pages_mono {sz sz' : Nat} (h : sz ≤ sz') : pages sz ≤ pages sz' :=
  Nat.div_le_div_right (Nat.add_le_add_right h _)

theorem alignUp_pages {sz : Nat} (h : sz ≤ uaddrSz) : alignUp sz pteSz = pages sz * pteSz := by
  simp only [uaddrSz] at h
  rw [show pteSz = 2 ^ 12 from rfl, alignUp_eq sz 12 (by decide) (by omega)]
  rfl

theorem cleared_none {lo hi : Nat} (h : ∀ k, lo ≤ k → k < hi → P k = none) : cleared P lo hi = P := by
  funext k
  rw [cleared]
  split
  · next hk => rw [h k hk.1 hk.2]
  · rfl

theorem next_page (hk : k ≤ 2 * npages) : (k * pteSz + pteSz) % 2 ^ 32 = (k + 1) * pteSz := by
  simp only [npages, numUpde, numPte, pteSz] at *
  omega

theorem pages_le_npages {sz : Nat} (h : sz ≤ uaddrSz) : pages sz ≤ npages := pages_le (h.trans (by decide))

theorem scanned_none {lo hi : Nat} (h : ∀ k, lo ≤ k → k < hi → P k = none) : scanned T P lo hi = P := by
  funext k
  rw [scanned]
  split
  · next hk => rw [h k hk.1 hk.2.1]
  · rfl

theorem skipped_next {j : Nat} (hT : T (k / 256) ≠ none) (hj : k < j) : Skipped T (k + 1) j ↔ Skipped T k j := by
  constructor
  · rintro ⟨hLt, hRest⟩
    exact ⟨hj, hRest⟩
  · rintro ⟨-, hMod, hNone⟩
    have hNe : j ≠ k + 1 := by
      rintro rfl
      have hTable : (k + 1) / 256 - 1 = k / 256 := by omega
      rw [hTable] at hNone
      exact hT hNone
    exact ⟨by omega, hMod, hNone⟩

theorem scanned_update {hi : Nat} (hk : k < hi) (hT : T (k / 256) ≠ none) :
    scanned T (Function.update P k none) (k + 1) hi = scanned T P k hi := by
  funext j
  simp only [scanned]
  by_cases hEq : j = k
  · rw [hEq, if_neg (by omega), Function.update_self, if_pos]
    exact ⟨le_rfl, hk, fun hSkip => lt_irrefl k hSkip.1⟩
  · rw [Function.update_of_ne hEq]
    refine if_congr ?_ rfl rfl
    constructor
    · rintro ⟨hLo, hHi, hSkip⟩
      exact ⟨by omega, hHi, fun h => hSkip ((skipped_next hT (by omega)).mpr h)⟩
    · rintro ⟨hLo, hHi, hSkip⟩
      exact ⟨by omega, hHi, fun h => hSkip ((skipped_next hT (by omega)).mp h)⟩

/-- Over a missing table the scan goes on behind the first page of the next one. -/
theorem scanned_jump {hi : Nat} (hNone : ∀ j, j / 256 = k / 256 → P j = none) (hT : T (k / 256) = none) :
    scanned T P ((k + 255) / 256 * 256 + 1) hi = scanned T P k hi := by
  funext j
  simp only [scanned]
  obtain hBelow | hAbove := Nat.lt_or_ge j k
  · rw [if_neg (by omega), if_neg (by omega)]
  obtain hHere | hOut := Nat.lt_or_ge j ((k + 255) / 256 * 256 + 1)
  · rw [if_neg (by omega)]
    by_cases hTable : j / 256 = k / 256
    · rw [hNone j hTable, ite_self]
    · have hSkip : Skipped T k j := by
        refine ⟨by omega, by omega, ?_⟩
        have hBefore : j / 256 - 1 = k / 256 := by omega
        rw [hBefore, hT]
      rw [if_neg fun h => h.2.2 hSkip]
  · refine if_congr ?_ rfl rfl
    constructor
    · rintro ⟨hLo, hHi, hSkip⟩
      refine ⟨hAbove, hHi, fun h => hSkip ⟨?_, h.2⟩⟩
      have hMod := h.2.1
      omega
    · rintro ⟨hLo, hHi, hSkip⟩
      exact ⟨hOut, hHi, fun h => hSkip ⟨by omega, h.2⟩⟩

theorem wp_scan (hR : R.Calm) {oldsz : Nat} (hSz : oldsz ≤ uaddrSz) (n : Nat) {Q : Unit → Mem → Prop}
    (h : Dir m d T P) (hn : pages oldsz ≤ k + n)
    (hQ : ∀ m', Dir m' d T (scanned T P k (pages oldsz)) → Touch m m' d T T P (scanned T P k (pages oldsz)) →
      m'.byte = m.byte → Q () m') :
    wp R (deallocLoop d oldsz (n + 1) (k * pteSz)) Q m := by
  have hAll := pages_le_npages hSz
  induction n generalizing m k P with
  | zero =>
    rw [deallocLoop, if_pos (by have := @lt_pages k oldsz; omega), wp_pure]
    rw [scanned_none fun k' _ _ => by omega] at hQ
    exact hQ m h (Touch.refl h) rfl
  | succ n ih =>
    rw [deallocLoop]
    by_cases hLast : oldsz ≤ k * pteSz
    · have hPages := pages_le hLast
      rw [if_pos hLast, wp_pure]
      rw [scanned_none fun k' _ _ => by omega] at hQ
      exact hQ m h (Touch.refl h) rfl
    have hk : k < pages oldsz := lt_pages.mpr (Nat.lt_of_not_le hLast)
    rw [if_neg hLast, wp_bind]
    apply wp_find hR h (by simp only [npages, numUpde, numPte, pteSz, uaddrSz] at *; omega)
    rw [pdeIdx_page, pteIdx_page]
    cases hT : T (k / 256) with
    | none =>
      have hJump : (alignUp (k * pteSz) pdeSz + pteSz) % 2 ^ 32 = ((k + 255) / 256 * 256 + 1) * pteSz := by
        simp only [npages, numUpde, numPte, pteSz] at *
        rw [show pdeSz = 2 ^ 20 from rfl, alignUp_eq _ 20 (by decide) (by omega)]
        omega
      have hNone : ∀ j, j / 256 = k / 256 → P j = none := fun j hj => h.table_of (hj ▸ hT)
      dsimp only [Option.map_none]
      rw [hJump]
      apply ih h (by omega)
      rw [scanned_jump hNone hT]
      exact hQ
    | some t =>
      have hThere : T (k / 256) ≠ none := by
        rw [hT]
        exact Option.some_ne_none t
      dsimp only [Option.map_some]
      rw [wp_bind]
      apply wp_getM hR
      cases hP : P k with
      | none =>
        rw [h.entry_none hT hP, if_pos (Nat.zero_and _), next_page (by omega)]
        apply ih h (by omega)
        have hSame : Function.update P k none = P := by rw [← hP, Function.update_eq_self]
        have hStep := scanned_update (P := P) hk hThere
        rw [hSame] at hStep
        rw [hStep]
        exact hQ
      | some q =>
        obtain ⟨v, ap⟩ := q
        obtain ⟨hPresent, hAddr, hV, -⟩ := h.entry_some hT hP
        obtain ⟨hDir, hTouch⟩ := h.unmap hT hP
        rw [if_neg hPresent, hAddr, if_neg ((h.page k v ap hP).1.ne h.heap).2, hV, wp_bind]
        apply wp_modifyM hR
        rw [wp_bind]
        apply wp_modifyM hR
        rw [next_page (by omega)]
        apply ih hDir (by omega)
        rw [scanned_update hk hThere]
        exact fun m' hDir' hTouch' => hQ m' hDir' (hTouch.trans hTouch')

theorem Solid.scanned {hi : Nat} (hSolid : Solid P k hi) (h : Dir m d T P) :
    scanned T P k hi = cleared P k hi := by
  funext j
  simp only [Uvm.scanned, cleared]
  by_cases hRange : k ≤ j ∧ j < hi
  · rw [if_pos hRange]
    by_cases hSkip : Skipped T k j
    · -- the page before it has no table, and so no page comes behind it
      rw [if_neg fun hAll => hAll.2.2 hSkip]
      have hBefore : P (j - 1) = none := by
        apply h.table_of
        rw [← hSkip.2.2]
        congr 1
        have hMod := hSkip.2.1
        have hLo := hSkip.1
        omega
      have hLo := hSkip.1
      exact hSolid j (j - 1) (by omega) (by omega) hRange.2 hBefore
    · rw [if_pos ⟨hRange.1, hRange.2, hSkip⟩]
  · rw [if_neg hRange, if_neg fun hAll => hRange ⟨hAll.1, hAll.2.1⟩]

theorem wp_deallocuvm_scanned (hR : R.Calm) {oldsz newsz : Nat} (hLt : newsz < oldsz) (hSz : oldsz ≤ uaddrSz)
    {Q : Nat → Mem → Prop} (h : Dir m d T P)
    (hQ : ∀ m', Dir m' d T (scanned T P (pages newsz) (pages oldsz)) →
      Touch m m' d T T P (scanned T P (pages newsz) (pages oldsz)) → m'.byte = m.byte → Q newsz m') :
    wp R (deallocuvm d oldsz newsz) Q m := by
  rw [deallocuvm, if_neg (Nat.not_le.mpr hLt), wp_bind, alignUp_pages (hLt.le.trans hSz)]
  apply wp_scan hR hSz _ h
  · simp only [pages, pteSz]
    omega
  · intro m' hDir hTouch hByte
    rw [wp_pure]
    exact hQ m' hDir hTouch hByte

theorem wp_deallocuvm (hR : R.Calm) {oldsz newsz : Nat} (hSz : oldsz ≤ uaddrSz) {Q : Nat → Mem → Prop}
    (h : Dir m d T P) (hSolid : Solid P (pages newsz) (pages oldsz))
    (hQ : ∀ m', Dir m' d T (cleared P (pages newsz) (pages oldsz)) →
      Touch m m' d T T P (cleared P (pages newsz) (pages oldsz)) → m'.byte = m.byte →
      Q (min newsz oldsz) m') :
    wp R (deallocuvm d oldsz newsz) Q m := by
  rw [deallocuvm]
  by_cases hLe : oldsz ≤ newsz
  · rw [if_pos hLe, wp_pure]
    rw [cleared_none fun k h₁ h₂ => absurd (pages_mono hLe) (by omega), min_eq_right hLe] at hQ
    exact hQ m h (Touch.refl h) rfl
  · have hLt : newsz < oldsz := Nat.lt_of_not_le hLe
    have hScan := wp_deallocuvm_scanned hR hLt hSz (Q := Q) h
    rw [hSolid.scanned h, deallocuvm, if_neg hLe] at hScan
    rw [min_eq_left hLt.le] at hQ
    rw [if_neg hLe]
    exact hScan hQ

end Shrink

section Grow

variable {R : Rely Mem Panic Label} {m m' m₁ m₀ : Mem} {d k v ap lo hi : Nat} {T T' T₀ : Nat → Option Nat}
  {P P' P₀ : Nat → Option (Nat × Nat)}

/-- A page that is in use and mapped nowhere is mapped; its page table may have to be made. -/
theorem wp_mapPage (hR : Allows R) (h : Dir m d T P) (hk : k < npages) (hUser : UserPage m v) (hOut : ¬InPages P v)
    (hNone : P k = none) (hAp : ap < 4) {Q : Int → Mem → Prop}
    (hQ : ∀ m' T', Dir m' d T' (Function.update P k (some (v, ap))) → Touch m m' d T T' P P → m'.byte = m.byte →
      (∀ i t, T i = some t → T' i = some t) →
      (∀ i, T' i ≠ none → T i ≠ none ∨ i = k / 256) → Q 0 m') :
    wp R (mappages d (k * pteSz) pteSz (v2p v) ap) Q m := by
  simp only [npages, numUpde, numPte] at hk
  have hDn : ∀ x, x < pteSz → alignDn (k * pteSz + x) pteSz = k * pteSz := by
    intro x hx
    simp only [pteSz] at hx
    rw [show pteSz = 2 ^ 12 from rfl, alignDn_eq _ 12 (by omega) (by decide)]
    omega
  have hLast : (k * pteSz + pteSz + 2 ^ 32 - 1) % 2 ^ 32 = k * pteSz + (pteSz - 1) := by
    simp only [pteSz]
    omega
  have hTurns : (k * pteSz + 2 ^ 32 - k * pteSz) % 2 ^ 32 / pteSz + 1 = 1 := by
    rw [Nat.add_sub_cancel_left]
    rfl
  have hFirst := hDn 0 (by decide)
  rw [Nat.add_zero] at hFirst
  rw [mappages, hLast, hDn _ (by decide), hFirst, hTurns, mapLoop, wp_bind]
  have hEntry : ∀ m₁ T₁ t, Dir m₁ d T₁ P → T₁ (k / 256) = some t → Touch m m₁ d T T₁ P P → m₁.byte = m.byte →
      m₁.page = m.page → (∀ i t, T i = some t → T₁ i = some t) →
      (∀ i, T₁ i ≠ none → T i ≠ none ∨ i = k / 256) → wp R (do
        let m ← getM
        if m.tab t (k % 256) &&& peTypes ≠ 0 then panic .remap
        else
          modifyM fun m => m.setEntry t (k % 256) (pteWord (v2p v) ap)
          if k * pteSz = k * pteSz then return 0
          else mapLoop d (k * pteSz) ap 0 ((k * pteSz + pteSz) % 2 ^ 32) ((v2p v + pteSz) % 2 ^ 32)) Q m₁ := by
    intro m₁ T₁ t hDir hT hTouch hByte hPage hTables hAdded
    rw [wp_bind]
    apply wp_getM hR.toCalm
    rw [hDir.entry_none hT hNone, if_neg (not_not.mpr (Nat.zero_and _)), wp_bind]
    apply wp_modifyM hR.toCalm
    have hTab : (m₁.setEntry t (k % 256) (pteWord (v2p v) ap)).tab =
        (m₁.setEntry t (k % 256) ((some (v, ap)).elim 0 fun q => pteWord (v2p q.1) q.2)).tab := by
      rw [Option.elim_some]
    rw [if_pos rfl, wp_pure]
    refine hQ _ T₁ (hDir.setPte hT rfl rfl rfl hTab ?_ ?_) (hTouch.trans (Touch.setPte hDir hT _)) hByte hTables hAdded
    · intro v' ap' hEq
      obtain ⟨rfl, rfl⟩ := Prod.mk.inj (Option.some.inj hEq)
      refine ⟨⟨hUser.aligned, hTouch.heap ▸ hUser.low, hUser.high, ?_⟩, hAp, fun k' ap' hk' => ?_⟩
      · rw [← hUser.used, ← hPage]
        rfl
      · exact absurd ⟨k', ap', hk'⟩ hOut
    · exact fun k' v' ap' _ hk' => (hDir.page k' v' ap' hk').1.used
  apply wp_create hR h (by simp only [pteSz, uaddrSz]; omega)
  · intro t hT
    rw [pdeIdx_page] at hT
    rw [pteIdx_page]
    exact hEntry m T t h hT (Touch.refl h) rfl rfl (fun _ _ => id) fun _ => .inl
  · intro t m₁ hT _ hDir hTouch hByte hPage
    rw [pdeIdx_page] at hT hDir hTouch
    rw [pteIdx_page]
    refine hEntry m₁ _ t hDir (Function.update_self ..) hTouch hByte hPage (fun i t' hi => ?_) fun i hi => ?_
    · have hne : i ≠ k / 256 := by
        rintro rfl
        rw [hT] at hi
        cases hi
      rw [Function.update_of_ne hne, hi]
    · by_cases hEq : i = k / 256
      · exact .inr hEq
      · rw [Function.update_of_ne hEq] at hi
        exact .inl hi

/-- From `m` to `m'` the directory has grown by zeroed pages, from `lo` to `hi`. -/
structure Grew (m m' : Mem) (d lo hi : Nat) (T T' : Nat → Option Nat) (P P' : Nat → Option (Nat × Nat)) : Prop where
  dir : Dir m' d T' P'
  touch : Touch m m' d T T' P P'
  other : ∀ k, ¬(lo ≤ k ∧ k < hi) → P' k = P k
  fresh : ∀ k, lo ≤ k → k < hi → ∃ v, P' k = some (v, apKu) ∧ m'.byte v = fun _ => 0
  kept : ∀ v, m.page v = true → m'.byte v = m.byte v
  tables : ∀ i t, T i = some t → T' i = some t
  added : ∀ i, T' i ≠ none → T i ≠ none ∨ ∃ k, lo ≤ k ∧ k < hi ∧ i = k / 256

/-- From `m` to `m'` an attempt to grow has been taken back. -/
structure Undone (m m' : Mem) (d : Nat) (T T' : Nat → Option Nat) (P : Nat → Option (Nat × Nat)) : Prop where
  dir : Dir m' d T' P
  touch : Touch m m' d T T' P P
  kept : ∀ v, m.page v = true → m'.byte v = m.byte v
  tables : ∀ i t, T i = some t → T' i = some t

theorem Grew.refl (h : Dir m d T P) : Grew m m d lo lo T T P P where
  dir := h
  touch := .refl h
  other _ _ := rfl
  fresh _ h₁ h₂ := absurd (h₁.trans_lt h₂) (lt_irrefl lo)
  kept _ _ := rfl
  tables _ _ := id
  added _ := .inl

theorem Grew.used (h : Grew m m' d lo hi T T' P P') (hNone : ∀ k, lo ≤ k → k < hi → P k = none)
    (hv : m.page v = true) : m'.page v = true := by
  rw [h.touch.page v]
  by_cases hIn : InPages P v
  · obtain ⟨k, ap, hk⟩ := hIn
    refine .inr ⟨k, ap, ?_⟩
    rw [h.other k fun hRange => ?_, hk]
    rw [hNone k hRange.1 hRange.2] at hk
    cases hk
  · exact .inl ⟨hv, hIn⟩

theorem Grew.push (h : Grew m₀ m d lo k T₀ T P₀ P) (hLo : lo ≤ k) (hNone : ∀ j, lo ≤ j → j < k → P₀ j = none)
    (hk : P k = none) (hTaken : Taken m m₁ v) (hZero : m₁.byte v = fun _ => 0)
    (hDir : Dir m' d T' (Function.update P k (some (v, apKu)))) (hTouch : Touch m₁ m' d T T' P P)
    (hByte : m'.byte = m₁.byte) (hTables : ∀ i t, T i = some t → T' i = some t)
    (hAdded : ∀ i, T' i ≠ none → T i ≠ none ∨ i = k / 256) :
    Grew m₀ m' d lo (k + 1) T₀ T' P₀ (Function.update P k (some (v, apKu))) where
  dir := hDir
  touch := h.touch.trans (.take hTaken hk hTouch)
  other j hj := by
    rw [Function.update_of_ne (by omega), h.other j (by omega)]
  fresh j h₁ h₂ := by
    by_cases hEq : j = k
    · exact ⟨v, by rw [hEq, Function.update_self], by rw [hByte, hZero]⟩
    · obtain ⟨v', hv', hOld⟩ := h.fresh j h₁ (by omega)
      refine ⟨v', by rw [Function.update_of_ne hEq, hv'], ?_⟩
      rw [hByte, hTaken.byte v' (hTaken.ne (h.dir.pageUsed ⟨j, _, hv'⟩).used), hOld]
  kept v' hv' := by
    rw [hByte, hTaken.byte v' (hTaken.ne (h.used hNone hv')), h.kept v' hv']
  tables i t hi := hTables i t (h.tables i t hi)
  added i hi := by
    obtain hOld | hNew := hAdded i hi
    · obtain hFirst | ⟨j, h₁, h₂, hEq⟩ := h.added i hOld
      · exact .inl hFirst
      · exact .inr ⟨j, h₁, by omega, hEq⟩
    · exact .inr ⟨k, hLo, Nat.lt_succ_self k, hNew⟩

theorem Dir.idle (h : Dir m d T P) (l : List Nat) : Dir { m with answers := l } d T P :=
  h.congr rfl rfl (fun _ ht => ⟨rfl, ht.elim (fun hEq => hEq ▸ h.used) h.inUsed⟩) fun _ hv => (h.pageUsed hv).used

theorem Touch.idle (h : Dir m d T P) (l : List Nat) : Touch m { m with answers := l } d T T P P :=
  have hSame := Touch.refl h
  ⟨rfl, rfl, rfl, hSame.tab, hSame.byte, hSame.table, hSame.page, hSame.newTable, hSame.newPage⟩

theorem Grew.cleared (h : Grew m m' d lo k T T' P P') (hk : k ≤ hi) (hNone : ∀ j, lo ≤ j → j < hi → P j = none) :
    cleared P' lo hi = P ∧ Solid P' lo hi := by
  constructor
  · funext j
    rw [Uvm.cleared]
    split
    · next hj => rw [hNone j hj.1 hj.2]
    · next hj => rw [h.other j (by omega)]
  · intro j j' h₁ h₂ h₃ hj'
    have hOut : ¬j' < k := by
      intro hLt
      obtain ⟨v, hv, -⟩ := h.fresh j' h₁ hLt
      rw [hj'] at hv
      cases hv
    rw [h.other j (by omega), hNone j (by omega) h₃]

/-- The end of `allocuvm` when it has run out of pages: what it has mapped is taken back. -/
theorem wp_undo (hR : R.Calm) {oldsz newsz : Nat} (hSz : newsz < uaddrSz) {Q : Nat → Mem → Prop}
    (hNone : ∀ j, pages oldsz ≤ j → j < pages newsz → P₀ j = none) (hk : k ≤ pages newsz)
    (h : Grew m₀ m d (pages oldsz) k T₀ T P₀ P)
    (hQ : ∀ m' T', Undone m₀ m' d T₀ T' P₀ → m'.table = m.table → Q 0 m') :
    wp R (deallocuvm d newsz oldsz >>= fun _ => Pure.pure 0) Q
      { m with answers := m.answers.tail } := by
  obtain ⟨hClear, hSolid⟩ := h.cleared hk hNone
  rw [wp_bind]
  apply wp_deallocuvm hR hSz.le (h.dir.idle _) hSolid
  intro m' hDir hTouch hByte
  rw [hClear] at hDir
  rw [wp_pure]
  have hTouch₀ : Touch m₀ m' d T₀ T P₀ P₀ := by
    rw [hClear] at hTouch
    exact h.touch.trans ((Touch.idle h.dir _).trans hTouch)
  have hTable := hTouch.table_eq (h.dir.idle m.answers.tail)
  refine hQ m' T ⟨hDir, hTouch₀, fun v hv => ?_, h.tables⟩ hTable
  rw [hByte]
  exact h.kept v hv

end Grow

section Calls

variable {m : Mem} {d : Nat}

/-- A page directory whose tables and pages are in use and which maps no page twice. -/
def IsDir (m : Mem) (d : Nat) : Prop := ∃ T P, Dir m d T P

/-- The mapped pages are exactly those of the size. -/
def Maps (m : Mem) (d sz : Nat) : Prop := ∀ va, translate m d va ≠ none ↔ va < pages sz * pteSz

theorem Dir.maps_iff {T : Nat → Option Nat} {P : Nat → Option (Nat × Nat)} (h : Dir m d T P) {sz : Nat} :
    Maps m d sz ↔ ∀ k, P k ≠ none ↔ k < pages sz := by
  have hDiv : ∀ va, va < pages sz * pteSz ↔ va / pteSz < pages sz := fun va =>
    (Nat.div_lt_iff_lt_mul (by decide)).symm
  constructor
  · intro hMaps k
    have hVa := hMaps (k * pteSz)
    rwa [h.translate, hDiv, Nat.mul_div_cancel _ (by decide)] at hVa
  · intro hPages va
    rw [h.translate, hDiv, hPages]

/-- A page directory without mappings, and an allocator that has one page and one page table. -/
def bare (answers : List Nat) : Mem where
  kernelPgtbl := 0x80014000
  heap := 0x80200000
  tab _ _ := 0
  byte _ _ := 0
  page _ := false
  table t := t == 0x80018000
  wild := false
  answers := answers

theorem bare_dir (l : List Nat) : Dir (bare l) 0x80018000 (fun _ => none) fun _ => none where
  heap := (by decide : kernbase < 0x80200000)
  addr := ⟨by decide, by decide, by decide⟩
  used := beq_self_eq_true 0x80018000
  kernel := (by decide : 0x80018000 ≠ 0x80014000)
  pde _ _ := rfl
  table _ _ h := by cases h
  inj _ _ _ h := by cases h
  pte _ _ h := by cases h
  page _ _ _ h := by cases h
  once _ _ _ _ _ h := by cases h

end Calls

end Xv6Rpi.Uvm
