import Xv6Rpi.Uvm.Copy

/-! # Page tables that are missing

`deallocuvm` goes through a range page by page. At a missing page table it sets its variable to
the next multiple of 1 MB, and the loop then adds a page to it, so the first page of the table
behind the gap stays mapped.
-/

namespace Xv6Rpi.Uvm

open Prog

/-- The page address of `va` is one of those from `newsz`, rounded up, to `oldsz`. -/
def InRange (newsz oldsz va : Nat) : Prop :=
  alignUp newsz pteSz ≤ va / pteSz * pteSz ∧ va / pteSz * pteSz < oldsz

instance (newsz oldsz va : Nat) : Decidable (InRange newsz oldsz va) := inferInstanceAs (Decidable (_ ∧ _))

/-- The pages of a range have been freed, each of them once, and only their entries cleared. -/
structure Released (m m' : Mem) (d newsz oldsz : Nat) : Prop where
  translate : ∀ va, translate m' d va = if InRange newsz oldsz va then none else translate m d va
  page : ∀ v, m'.page v = true ↔
    m.page v = true ∧ ¬∃ va ap, InRange newsz oldsz va ∧ Uvm.translate m d va = some (v, ap)
  wild : m'.wild = m.wild
  byte : m'.byte = m.byte

def AllFreed (m m' : Mem) (d : Nat) : Prop :=
  ∀ va v ap, translate m d va = some (v, ap) → m'.page v = false

/-- In the range, no table whose first page is mapped comes behind a missing one. -/
def NoGap (m : Mem) (d newsz oldsz : Nat) : Prop :=
  ∀ va, va % pdeSz = 0 → alignUp newsz pteSz < va → va < oldsz → m.tab d (pdeIdx va - 1) &&& peTypes = 0 →
    translate m d va = none

section Gaps

variable {m m' : Mem} {d newsz oldsz : Nat} {T : Nat → Option Nat} {P : Nat → Option (Nat × Nat)}

theorem inRange_iff (hSz : newsz ≤ uaddrSz) {va : Nat} :
    InRange newsz oldsz va ↔ pages newsz ≤ va / pteSz ∧ va / pteSz < pages oldsz := by
  rw [InRange, alignUp_pages hSz, lt_pages]
  refine and_congr_left fun _ => ?_
  exact Nat.mul_le_mul_right_iff (by decide)

theorem Dir.missing_iff (h : Dir m d T P) {i : Nat} (hi : i < numUpde) :
    m.tab d i &&& peTypes = 0 ↔ T i = none := by
  constructor
  · intro hZero
    cases hT : T i with
    | none => rfl
    | some t => exact absurd hZero (h.pde_some hT).1
  · exact h.pde_none hi

theorem Dir.noGap_iff (h : Dir m d T P) (hLt : newsz < oldsz) (hSz : oldsz ≤ uaddrSz) :
    NoGap m d newsz oldsz ↔
      ∀ k, k < pages oldsz → Skipped T (pages newsz) k → P k = none := by
  have hAll := pages_le_npages hSz
  simp only [npages, numUpde, numPte] at hAll
  constructor
  · rintro hNoGap k hHi ⟨hLo, hMod, hMissing⟩
    have hIdx : pdeIdx (k * pteSz) - 1 = k / 256 - 1 := by rw [pdeIdx_page]
    have hTable : k / 256 - 1 < numUpde := by
      simp only [numUpde]
      omega
    have hVa := hNoGap (k * pteSz) (by simp only [pteSz, pdeSz]; omega)
      (by
        rw [alignUp_pages (hLt.le.trans hSz)]
        exact Nat.mul_lt_mul_of_pos_right hLo (by decide))
      (lt_pages.mp hHi) (by rw [hIdx]; exact (h.missing_iff hTable).mpr hMissing)
    rwa [h.translate, Nat.mul_div_cancel _ (by decide)] at hVa
  · intro hNone va hMod hLo hHi hMissing
    obtain ⟨k, rfl⟩ : ∃ k, va = k * pteSz := ⟨va / pteSz, by simp only [pdeSz, pteSz] at *; omega⟩
    have hkHi : k < pages oldsz := lt_pages.mpr hHi
    have hTable : k / 256 - 1 < numUpde := by
      simp only [numUpde]
      omega
    rw [alignUp_pages (hLt.le.trans hSz)] at hLo
    rw [pdeIdx_page, h.missing_iff hTable] at hMissing
    rw [h.translate, Nat.mul_div_cancel _ (by decide)]
    refine hNone k hkHi ⟨Nat.lt_of_mul_lt_mul_right hLo, ?_, hMissing⟩
    simp only [pteSz, pdeSz] at hMod
    omega

theorem scanned_eq_iff {lo hi : Nat} :
    scanned T P lo hi = cleared P lo hi ↔ ∀ k, k < hi → Skipped T lo k → P k = none := by
  constructor
  · intro hEq k hHi hSkip
    have hk := congrFun hEq k
    rw [scanned, cleared, if_neg fun hAll => hAll.2.2 hSkip, if_pos ⟨hSkip.1.le, hHi⟩] at hk
    exact hk
  · intro hNone
    funext k
    simp only [scanned, cleared]
    by_cases hRange : lo ≤ k ∧ k < hi
    · rw [if_pos hRange]
      by_cases hSkip : Skipped T lo k
      · rw [hNone k hRange.2 hSkip, ite_self]
      · rw [if_pos ⟨hRange.1, hRange.2, hSkip⟩]
    · rw [if_neg hRange, if_neg fun hAll => hRange ⟨hAll.1, hAll.2.1⟩]

theorem inPages_cleared (h : Dir m d T P) {lo hi v : Nat} :
    InPages (cleared P lo hi) v ↔ InPages P v ∧ ¬∃ k ap, lo ≤ k ∧ k < hi ∧ P k = some (v, ap) := by
  constructor
  · rintro ⟨k, ap, hk⟩
    rw [cleared] at hk
    split at hk
    · cases hk
    · next hOut =>
      refine ⟨⟨k, ap, hk⟩, ?_⟩
      rintro ⟨k', ap', hLo, hHi, hk'⟩
      rw [h.once _ _ _ _ _ hk' hk] at hLo hHi
      exact hOut ⟨hLo, hHi⟩
  · rintro ⟨⟨k, ap, hk⟩, hOut⟩
    refine ⟨k, ap, ?_⟩
    rw [cleared, if_neg, hk]
    rintro ⟨hLo, hHi⟩
    exact hOut ⟨k, ap, hLo, hHi, hk⟩

theorem Dir.released_iff (h : Dir m d T P) (hSz : newsz ≤ uaddrSz)
    (hDir : Dir m' d T (scanned T P (pages newsz) (pages oldsz)))
    (hTouch : Touch m m' d T T P (scanned T P (pages newsz) (pages oldsz))) (hByte : m'.byte = m.byte) :
    Released m m' d newsz oldsz ↔
      scanned T P (pages newsz) (pages oldsz) = cleared P (pages newsz) (pages oldsz) := by
  constructor
  · intro hReleased
    funext k
    have hk := hReleased.translate (k * pteSz)
    rw [hDir.translate, h.translate, Nat.mul_div_cancel _ (by decide)] at hk
    rw [hk, cleared]
    refine if_congr ?_ rfl rfl
    rw [inRange_iff hSz, Nat.mul_div_cancel _ (by decide)]
  · intro hEq
    rw [hEq] at hDir hTouch
    constructor
    · intro va
      rw [hDir.translate, h.translate, cleared]
      exact if_congr (inRange_iff hSz).symm rfl rfl
    · intro v
      have hFreed : (∃ va ap, InRange newsz oldsz va ∧ Uvm.translate m d va = some (v, ap)) ↔
          ∃ k ap, pages newsz ≤ k ∧ k < pages oldsz ∧ P k = some (v, ap) := by
        constructor
        · rintro ⟨va, ap, hRange, hVa⟩
          obtain ⟨hLo, hHi⟩ := (inRange_iff hSz).mp hRange
          rw [h.translate] at hVa
          exact ⟨va / pteSz, ap, hLo, hHi, hVa⟩
        · rintro ⟨k, ap, hLo, hHi, hk⟩
          refine ⟨k * pteSz, ap, ?_, ?_⟩
          · rw [inRange_iff hSz, Nat.mul_div_cancel _ (by decide)]
            exact ⟨hLo, hHi⟩
          · rw [h.translate, Nat.mul_div_cancel _ (by decide), hk]
      rw [hTouch.page v, inPages_cleared h, hFreed]
      constructor
      · rintro (⟨hOld, hOut⟩ | ⟨hIn, hOut⟩)
        · refine ⟨hOld, ?_⟩
          rintro ⟨k, ap, -, -, hk⟩
          exact hOut ⟨k, ap, hk⟩
        · exact ⟨(h.pageUsed hIn).used, hOut⟩
      · rintro ⟨hOld, hOut⟩
        by_cases hIn : InPages P v
        · exact .inr ⟨hIn, hOut⟩
        · exact .inl ⟨hOld, hIn⟩
    · exact hTouch.wild
    · exact hByte

theorem FreedBut.allFreed_iff (h : Dir m d T P) (hFreed : FreedBut m m' d T P (scanned T P 0 npages)) :
    AllFreed m m' d ↔ ∀ k, k < npages → Skipped T 0 k → P k = none := by
  constructor
  · intro hAll k hk hSkip
    cases hP : P k with
    | none => rfl
    | some q =>
      have hLeft : scanned T P 0 npages k = some (q.1, q.2) := by
        rw [scanned, if_neg fun hRange => hRange.2.2 hSkip, hP]
      have hUsed := (hFreed.page q.1).mpr (.inr ⟨k, q.2, hLeft⟩)
      have hGone := hAll (k * pteSz) q.1 q.2 (by rw [h.translate, Nat.mul_div_cancel _ (by decide), hP])
      rw [hUsed] at hGone
      cases hGone
  · intro hNone va v ap hVa
    rw [h.translate] at hVa
    rw [← Bool.not_eq_true, hFreed.page v, scanned_eq_iff.mpr hNone]
    rintro (⟨-, hOut⟩ | ⟨k, ap', hk⟩)
    · exact hOut ⟨_, ap, hVa⟩
    · rw [cleared] at hk
      split at hk
      · cases hk
      · next hOut =>
        have hHigh := h.lt_npages (Nat.le_of_not_lt fun hLt => hOut ⟨Nat.zero_le k, hLt⟩)
        rw [hHigh] at hk
        cases hk

theorem Dir.deallocuvm_iff (h : Dir m d T P) (hLt : newsz < oldsz) (hSz : oldsz ≤ uaddrSz) :
    ∃ m', (deallocuvm d oldsz newsz).run m = .ok (newsz, m') ∧
      (Released m m' d newsz oldsz ↔ NoGap m d newsz oldsz) := by
  obtain ⟨r, m', hRun, rfl, hIff⟩ := wp_strict (wp_deallocuvm_scanned Rely.strict_calm hLt hSz
    (Q := fun r m' => r = newsz ∧ (Released m m' d newsz oldsz ↔ NoGap m d newsz oldsz)) h (by
      intro m' hDir hTouch hByte
      refine ⟨rfl, ?_⟩
      rw [h.noGap_iff hLt hSz, h.released_iff (hLt.le.trans hSz) hDir hTouch hByte, scanned_eq_iff]))
  exact ⟨m', hRun, hIff⟩

theorem Dir.freevm_iff (h : Dir m d T P) :
    ∃ m', (freevm d).run m = .ok ((), m') ∧ (AllFreed m m' d ↔ NoGap m d 0 uaddrSz) := by
  obtain ⟨r, m', hRun, hIff⟩ := wp_strict (wp_freevm_scanned Rely.strict_calm h
    (Q := fun _ m' => AllFreed m m' d ↔ NoGap m d 0 uaddrSz) (by
      intro m' hFreed
      rw [h.noGap_iff (by decide) le_rfl, hFreed.allFreed_iff h]
      rfl))
  exact ⟨m', hRun, hIff⟩

/-- `deallocuvm` releases its range, and `freevm` all pages, if and only if no mapped first page of
a table in the range comes behind a missing table. -/
theorem deallocuvm_exact_iff (hDir : IsDir m d) (hLt : newsz < oldsz) (hSz : oldsz ≤ uaddrSz) :
    (∃ m', (deallocuvm d oldsz newsz).run m = .ok (newsz, m') ∧
        (Released m m' d newsz oldsz ↔ NoGap m d newsz oldsz)) ∧
      ∃ m', (freevm d).run m = .ok ((), m') ∧ (AllFreed m m' d ↔ NoGap m d 0 uaddrSz) := by
  obtain ⟨T, P, h⟩ := hDir
  exact ⟨h.deallocuvm_iff hLt hSz, h.freevm_iff⟩

end Gaps

/-! ## A directory with a gap -/

def gapped : Mem where
  kernelPgtbl := 0x80014000
  heap := 0x80200000
  tab t i := if t = 0x80018000 ∧ i = 1 then pdeWord 0x80019000
    else if t = 0x80019000 ∧ i = 0 then pteWord (v2p 0x80200000) apKu else 0
  byte _ _ := 0
  page v := v == 0x80200000
  table t := t == 0x80018000 || t == 0x80019000
  wild := false
  answers := []

theorem gapped_dir : Dir gapped 0x80018000 (fun i => if i = 1 then some 0x80019000 else none)
    fun k => if k = 256 then some (0x80200000, apKu) else none where
  heap := (by decide : kernbase < 0x80200000)
  addr := ⟨by decide, by decide, by decide⟩
  used := rfl
  kernel := (by decide : 0x80018000 ≠ 0x80014000)
  pde i _ := by
    by_cases hi : i = 1
    · subst hi
      rfl
    · simp [gapped, hi]
  table i t h := by
    split at h
    · next hi =>
      cases h
      subst hi
      exact ⟨by decide, ⟨by decide, by decide, by decide⟩, rfl, by decide⟩
    · cases h
  inj i j t h h' := by
    split at h
    · next hi =>
      split at h'
      · next hj => rw [hi, hj]
      · cases h'
    · cases h
  pte i t h j hj := by
    split at h
    · next hi =>
      cases h
      subst hi
      by_cases hj' : j = 0
      · subst hj'
        rfl
      · have hNe : 256 * 1 + j ≠ 256 := by omega
        rw [if_neg hNe]
        simp [gapped, hj']
    · cases h
  page k v ap h := by
    split at h
    · next hk =>
      cases h
      subst hk
      exact ⟨⟨by decide, by decide, by decide, rfl⟩, by decide, 0x80019000, rfl⟩
    · cases h
  once k k' v ap ap' h h' := by
    split at h
    · next hk =>
      split at h'
      · next hk' => rw [hk, hk']
      · cases h'
    · cases h

theorem gapped_gap : ¬NoGap gapped 0x80018000 0 0x101000 := by
  intro hNoGap
  have hVa := hNoGap 0x100000 (by decide) (by decide) (by decide) (by decide)
  rw [gapped_dir.translate] at hVa
  exact absurd hVa (by decide)

/-- The page at 1 MB stays mapped when the process shrinks to nothing, and its page stays in use when
the directory is freed. -/
theorem deallocuvm_leaves_page : IsDir gapped 0x80018000 ∧
    (∃ m', (deallocuvm 0x80018000 0x101000 0).run gapped = .ok (0, m') ∧
      ¬Released gapped m' 0x80018000 0 0x101000) ∧
    ∃ m', (freevm 0x80018000).run gapped = .ok ((), m') ∧ ¬AllFreed gapped m' 0x80018000 := by
  obtain ⟨m', hRun, hIff⟩ := gapped_dir.deallocuvm_iff (show 0 < 0x101000 by decide) (by decide)
  obtain ⟨m'', hRun', hIff'⟩ := gapped_dir.freevm_iff
  refine ⟨⟨_, _, gapped_dir⟩, ⟨m', hRun, fun h => gapped_gap (hIff.mp h)⟩, m'', hRun', fun h => ?_⟩
  have hNoGap := hIff'.mp h
  exact gapped_gap fun va hMod hLo hHi => hNoGap va hMod hLo (by simp only [uaddrSz]; omega)

theorem deallocuvm_exact_gapped :
    (∃ m', (deallocuvm 0x80018000 0x101000 0x100000).run gapped = .ok (0x100000, m') ∧
      (Released gapped m' 0x80018000 0x100000 0x101000 ↔ NoGap gapped 0x80018000 0x100000 0x101000)) ∧
    ∃ m', (freevm 0x80018000).run gapped = .ok ((), m') ∧
      (AllFreed gapped m' 0x80018000 ↔ NoGap gapped 0x80018000 0 uaddrSz) :=
  deallocuvm_exact_iff ⟨_, _, gapped_dir⟩ (by decide) (by decide)

end Xv6Rpi.Uvm
