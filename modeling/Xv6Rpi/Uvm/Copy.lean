import Xv6Rpi.Uvm.Oom

/-! # Making, copying and freeing page directories

A directory that has been begun, filled and freed leaves the memory as it was. `copyuvm`
fills one with copies of another directory's pages; its loop has copied the first pages, and
only they are mapped.
-/

namespace Xv6Rpi.Uvm

open Prog

structure Begun (m m' : Mem) (d : Nat) : Prop where
  addr : TableAddr d
  kernel : d ≠ m.kernelPgtbl
  free : m.table d = false
  heap : m'.heap = m.heap
  pgtbl : m'.kernelPgtbl = m.kernelPgtbl
  wild : m'.wild = m.wild
  byte : m'.byte = m.byte
  page : m'.page = m.page
  tab : m'.tab = Function.update m.tab d fun _ => 0
  table : m'.table = Function.update m.table d true

structure Freed (m m' : Mem) (d : Nat) (T : Nat → Option Nat) (P : Nat → Option (Nat × Nat)) : Prop where
  heap : m'.heap = m.heap
  kernel : m'.kernelPgtbl = m.kernelPgtbl
  wild : m'.wild = m.wild
  byte : m'.byte = m.byte
  tab : ∀ t, m.table t = true → t ≠ d → ¬InTables T t → m'.tab t = m.tab t
  table : ∀ t, m'.table t = true ↔ m.table t = true ∧ t ≠ d ∧ ¬InTables T t
  page : ∀ v, m'.page v = true ↔ m.page v = true ∧ ¬InPages P v

/-- A directory has been freed with its tables and its pages, but for those of `P'`. -/
structure FreedBut (m m' : Mem) (d : Nat) (T : Nat → Option Nat) (P P' : Nat → Option (Nat × Nat)) : Prop where
  heap : m'.heap = m.heap
  kernel : m'.kernelPgtbl = m.kernelPgtbl
  wild : m'.wild = m.wild
  byte : m'.byte = m.byte
  tab : ∀ t, m.table t = true → t ≠ d → ¬InTables T t → m'.tab t = m.tab t
  table : ∀ t, m'.table t = true ↔ m.table t = true ∧ t ≠ d ∧ ¬InTables T t
  page : ∀ v, m'.page v = true ↔ m.page v = true ∧ ¬InPages P v ∨ InPages P' v

structure Restored (m m' : Mem) : Prop where
  heap : m'.heap = m.heap
  kernel : m'.kernelPgtbl = m.kernelPgtbl
  wild : m'.wild = m.wild
  table : m'.table = m.table
  page : m'.page = m.page
  tab : ∀ t, m.table t = true → m'.tab t = m.tab t
  byte : ∀ v, m.page v = true → m'.byte v = m.byte v

section Directories

variable {R : Rely Mem Panic Label} {m m' m₁ m₂ : Mem} {d d₀ : Nat} {T T' : Nat → Option Nat}
  {P P' : Nat → Option (Nat × Nat)}

theorem not_inTables_none (t : Nat) : ¬InTables (fun _ => none) t := by
  rintro ⟨_, h⟩
  cases h

theorem not_inPages_none (v : Nat) : ¬InPages (fun _ => none) v := by
  rintro ⟨_, _, h⟩
  cases h

theorem Restored.refl (m : Mem) : Restored m m := ⟨rfl, rfl, rfl, rfl, rfl, fun _ _ => rfl, fun _ _ => rfl⟩

theorem Restored.trans (h : Restored m m₁) (h' : Restored m₁ m') : Restored m m' where
  heap := h'.heap.trans h.heap
  kernel := h'.kernel.trans h.kernel
  wild := h'.wild.trans h.wild
  table := h'.table.trans h.table
  page := h'.page.trans h.page
  tab t ht := (h'.tab t (h.table ▸ ht)).trans (h.tab t ht)
  byte v hv := (h'.byte v (h.page ▸ hv)).trans (h.byte v hv)

theorem Restored.dir (h : Restored m m') (hDir : Dir m d T P) : Dir m' d T P := by
  refine hDir.congr h.heap h.kernel (fun t ht => ?_) fun v hv => ?_
  · have hUsed : m.table t = true := ht.elim (fun hEq => hEq ▸ hDir.used) hDir.inUsed
    exact ⟨h.tab t hUsed, by rw [h.table, hUsed]⟩
  · rw [h.page, (hDir.pageUsed hv).used]

theorem Begun.ne (h : Begun m m' d) {t : Nat} (ht : m.table t = true) : t ≠ d := by
  rintro rfl
  rw [h.free] at ht
  cases ht

theorem Begun.table_of (h : Begun m m' d) {t : Nat} (ht : m.table t = true) : m'.table t = true := by
  rw [h.table, Function.update_of_ne (h.ne ht), ht]

theorem Begun.dir (h : Begun m m' d) (hHeap : kernbase < m.heap) : Dir m' d (fun _ => none) fun _ => none where
  heap := h.heap ▸ hHeap
  addr := h.addr
  used := by rw [h.table, Function.update_self]
  kernel := h.pgtbl ▸ h.kernel
  pde i _ := by rw [h.tab, Function.update_self, Option.elim_none]
  table _ _ hi := by cases hi
  inj _ _ _ hi := by cases hi
  pte _ _ hi := by cases hi
  page _ _ _ hk := by cases hk
  once _ _ _ _ _ hk := by cases hk

theorem Begun.other (h : Begun m m' d) (hDir : Dir m d₀ T P) :
    Dir m' d₀ T P ∧ Apart d₀ d T (fun _ => none) P fun _ => none := by
  constructor
  · refine hDir.congr h.heap h.pgtbl (fun t ht => ?_) fun v hv => ?_
    · have hUsed : m.table t = true := ht.elim (fun hEq => hEq ▸ hDir.used) hDir.inUsed
      exact ⟨by rw [h.tab, Function.update_of_ne (h.ne hUsed)], h.table_of hUsed⟩
    · rw [h.page, (hDir.pageUsed hv).used]
  · constructor
    · exact h.ne hDir.used
    · exact not_inTables_none d₀
    · exact fun hIn => h.ne (hDir.inUsed hIn) rfl
    · exact fun t _ => not_inTables_none t
    · exact fun v _ => not_inPages_none v

theorem Freed.other (h : Freed m m' d₀ T' P') (hDir : Dir m d T P) (hApart : Apart d d₀ T T' P P') : Dir m' d T P := by
  refine hDir.congr h.heap h.kernel (fun t ht => ?_) fun v hv => ?_
  · have hOut : m.table t = true ∧ t ≠ d₀ ∧ ¬InTables T' t := by
      obtain rfl | hIn := ht
      · exact ⟨hDir.used, hApart.ne, hApart.left⟩
      · refine ⟨hDir.inUsed hIn, ?_, hApart.tables t hIn⟩
        rintro rfl
        exact hApart.right hIn
    exact ⟨h.tab t hOut.1 hOut.2.1 hOut.2.2, (h.table t).mpr hOut⟩
  · exact (h.page v).mpr ⟨(hDir.pageUsed hv).used, hApart.pages v hv⟩

theorem Apart.symm (h : Apart d d₀ T T' P P') : Apart d₀ d T' T P' P where
  ne := h.ne.symm
  left := h.right
  right := h.left
  tables t ht ht' := h.tables t ht' ht
  pages v hv hv' := h.pages v hv' hv

/-- A new directory that is freed again leaves nothing behind. -/
theorem Begun.restored (h : Begun m m₁ d) (hTouch : Touch m₁ m₂ d (fun _ => none) T (fun _ => none) P)
    (hFreed : Freed m₂ m' d T P) : Restored m m' := by
  have hOld : ∀ t, m.table t = true → m₂.table t = true ∧ t ≠ d ∧ ¬InTables T t := by
    intro t ht
    have ht₁ := h.table_of ht
    refine ⟨(hTouch.table t).mpr (.inl ⟨ht₁, not_inTables_none t⟩), h.ne ht, fun hIn => ?_⟩
    obtain hNone | hFree := hTouch.newTable t hIn
    · exact not_inTables_none t hNone
    · rw [ht₁] at hFree
      cases hFree
  have hPage : ∀ v, m.page v = true → m₂.page v = true ∧ ¬InPages P v := by
    intro v hv
    rw [← h.page] at hv
    refine ⟨(hTouch.page v).mpr (.inl ⟨hv, not_inPages_none v⟩), fun hIn => ?_⟩
    obtain hNone | hFree := hTouch.newPage v hIn
    · exact not_inPages_none v hNone
    · rw [hv] at hFree
      cases hFree
  constructor
  · rw [hFreed.heap, hTouch.heap, h.heap]
  · rw [hFreed.kernel, hTouch.kernel, h.pgtbl]
  · rw [hFreed.wild, hTouch.wild, h.wild]
  · funext t
    rw [Bool.eq_iff_iff, hFreed.table t]
    constructor
    · rintro ⟨ht, hne, hOut⟩
      obtain ⟨ht₁, -⟩ | hIn := (hTouch.table t).mp ht
      · rwa [h.table, Function.update_of_ne hne] at ht₁
      · exact absurd hIn hOut
    · exact hOld t
  · funext v
    rw [Bool.eq_iff_iff, hFreed.page v]
    constructor
    · rintro ⟨hv, hOut⟩
      obtain ⟨hv₁, -⟩ | hIn := (hTouch.page v).mp hv
      · rwa [h.page] at hv₁
      · exact absurd hIn hOut
    · exact hPage v
  · intro t ht
    obtain ⟨ht₂, hne, hOut⟩ := hOld t ht
    rw [hFreed.tab t ht₂ hne hOut, hTouch.tab t (h.table_of ht) hne (not_inTables_none t), h.tab,
      Function.update_of_ne hne]
  · intro v hv
    rw [hFreed.byte, hTouch.byte v (by rw [h.page, hv]) (not_inPages_none v), h.byte]

theorem wp_begin (hR : Allows R) {Q : Nat → Mem → Prop} (hQ : ∀ d m', Begun m m' d → Q d m') : wp R kptAlloc Q m := by
  apply wp_kptAlloc hR
  rintro d ⟨hAligned, hLow, hHigh, hKernel, hFree, -⟩
  exact hQ d _ ⟨⟨hAligned, hLow, hHigh⟩, hKernel, hFree, rfl, rfl, rfl, rfl, rfl, rfl, rfl⟩

end Directories

section Free

variable {R : Rely Mem Panic Label} {m m₀ m' : Mem} {d i : Nat} {T : Nat → Option Nat} {P : Nat → Option (Nat × Nat)}

/-- `freevm` has freed the page tables before entry `i` of the directory. -/
structure Swept (m m' : Mem) (T : Nat → Option Nat) (i : Nat) : Prop where
  heap : m'.heap = m.heap
  kernel : m'.kernelPgtbl = m.kernelPgtbl
  wild : m'.wild = m.wild
  byte : m'.byte = m.byte
  page : m'.page = m.page
  tab : m'.tab = m.tab
  table : ∀ t, m'.table t = true ↔ m.table t = true ∧ ¬∃ j < i, T j = some t

theorem Swept.start (m : Mem) (T : Nat → Option Nat) : Swept m m T 0 where
  heap := rfl
  kernel := rfl
  wild := rfl
  byte := rfl
  page := rfl
  tab := rfl
  table t := by
    constructor
    · intro ht
      refine ⟨ht, ?_⟩
      rintro ⟨j, hj, -⟩
      exact Nat.not_lt_zero j hj
    · exact And.left

theorem Swept.skip (h : Swept m₀ m T i) (hT : T i = none) : Swept m₀ m T (i + 1) where
  __ := h
  table t := by
    rw [h.table t]
    refine and_congr_right fun _ => not_congr ?_
    constructor
    · rintro ⟨j, hj, ht⟩
      exact ⟨j, Nat.lt_succ_of_lt hj, ht⟩
    · rintro ⟨j, hj, ht⟩
      obtain hLt | rfl := Nat.lt_succ_iff_lt_or_eq.mp hj
      · exact ⟨j, hLt, ht⟩
      · rw [hT] at ht
        cases ht

theorem Swept.free (h : Swept m₀ m T i) (hDir : Dir m₀ d T P) {t : Nat} (hT : T i = some t) :
    Swept m₀ { m with
      wild := m.wild || !m.table t
      table := Function.update m.table t false } T (i + 1) where
  __ := h
  wild := by
    have hUsed : m.table t = true := by
      rw [h.table t]
      refine ⟨hDir.inUsed ⟨i, hT⟩, ?_⟩
      rintro ⟨j, hj, ht⟩
      exact absurd (hDir.inj _ _ _ ht hT) hj.ne
    rw [← h.wild, hUsed, Bool.not_true, Bool.or_false]
  table t' := by
    dsimp only
    by_cases hEq : t' = t
    · rw [hEq]
      constructor
      · intro hTrue
        rw [Function.update_self] at hTrue
        cases hTrue
      · rintro ⟨-, hNot⟩
        exact absurd ⟨i, Nat.lt_succ_self i, hT⟩ hNot
    · rw [Function.update_of_ne hEq, h.table t']
      refine and_congr_right fun _ => not_congr ?_
      constructor
      · rintro ⟨j, hj, ht⟩
        exact ⟨j, Nat.lt_succ_of_lt hj, ht⟩
      · rintro ⟨j, hj, ht⟩
        obtain hLt | rfl := Nat.lt_succ_iff_lt_or_eq.mp hj
        · exact ⟨j, hLt, ht⟩
        · rw [hT] at ht
          exact absurd (Option.some.inj ht).symm hEq

theorem wp_freeTables (hR : R.Calm) (n : Nat) (hn : n ≤ numUpde) (hDir : Dir m₀ d T P)
    (h : Swept m₀ m T (numUpde - n)) {Q : Unit → Mem → Prop} (hQ : ∀ m', Swept m₀ m' T numUpde → Q () m') :
    wp R (freeTables d n) Q m := by
  induction n generalizing m with
  | zero => exact hQ m h
  | succ n ih =>
    have hNext : numUpde - (n + 1) + 1 = numUpde - n := by omega
    have hi : numUpde - (n + 1) < numUpde := by omega
    rw [freeTables, wp_bind]
    apply wp_getM hR
    rw [h.tab]
    dsimp only
    cases hT : T (numUpde - (n + 1)) with
    | none =>
      have hSkip := h.skip hT
      rw [hNext] at hSkip
      rw [if_neg (not_not.mpr (hDir.pde_none hi hT))]
      exact ih (by omega) hSkip
    | some t =>
      obtain ⟨hPresent, hAddr⟩ := hDir.pde_some hT
      have hFree := h.free hDir hT
      rw [hNext] at hFree
      rw [if_pos hPresent, hAddr, wp_bind]
      apply wp_modifyM hR
      exact ih (by omega) hFree

theorem wp_freevm_scanned (hR : R.Calm) (h : Dir m d T P) {Q : Unit → Mem → Prop}
    (hQ : ∀ m', FreedBut m m' d T P (scanned T P 0 npages) → Q () m') : wp R (freevm d) Q m := by
  have hZero : d ≠ 0 := by
    rintro rfl
    exact absurd h.addr.2.1 (by decide)
  rw [freevm, if_neg hZero, wp_bind]
  apply wp_deallocuvm_scanned hR (show 0 < uaddrSz by decide) le_rfl h
  intro m₁ hDir hTouch hByte
  have hRange : scanned T P (pages 0) (pages uaddrSz) = scanned T P 0 npages := rfl
  rw [hRange] at hDir hTouch
  rw [wp_bind]
  apply wp_freeTables hR _ le_rfl hDir (.start m₁ T)
  intro m₂ hSwept
  have hIn : ∀ t, (∃ j < numUpde, T j = some t) ↔ InTables T t := by
    intro t
    constructor
    · rintro ⟨j, -, hj⟩
      exact ⟨j, hj⟩
    · rintro ⟨j, hj⟩
      exact ⟨j, (h.table j t hj).1, hj⟩
  have hTable : ∀ t, m₂.table t = true ↔ m.table t = true ∧ ¬InTables T t := by
    intro t
    rw [hSwept.table t, hIn t, hTouch.table t]
    constructor
    · rintro ⟨hOld | hIn', hOut⟩
      · exact hOld
      · exact absurd hIn' hOut
    · rintro ⟨ht, hOut⟩
      exact ⟨.inl ⟨ht, hOut⟩, hOut⟩
  have hUsed : m₂.table d = true := (hTable d).mpr ⟨h.used, h.not_inTables⟩
  apply wp_modifyM hR
  apply hQ
  constructor
  · exact hSwept.heap.trans hTouch.heap
  · exact hSwept.kernel.trans hTouch.kernel
  · rw [hUsed, Bool.not_true, Bool.or_false, hSwept.wild, hTouch.wild]
  · exact hSwept.byte.trans hByte
  · intro t ht hne hOut
    rw [← hTouch.tab t ht hne hOut, ← hSwept.tab]
  · intro t
    dsimp only
    by_cases hEq : t = d
    · rw [hEq]
      constructor
      · intro hTrue
        rw [Function.update_self] at hTrue
        cases hTrue
      · rintro ⟨-, hne, -⟩
        exact absurd rfl hne
    · rw [Function.update_of_ne hEq, hTable t]
      exact and_congr_right fun _ => (and_iff_right hEq).symm
  · intro v
    rw [hSwept.page, hTouch.page v]

theorem wp_freevm (hR : R.Calm) (h : Dir m d T P) (hSolid : Solid P 0 npages) {Q : Unit → Mem → Prop}
    (hQ : ∀ m', Freed m m' d T P → Q () m') : wp R (freevm d) Q m := by
  have hEmpty : scanned T P 0 npages = fun _ => none := by
    rw [hSolid.scanned h]
    funext k
    rw [cleared]
    split
    · rfl
    · next hk => exact h.lt_npages (Nat.le_of_not_lt fun hLt => hk ⟨Nat.zero_le k, hLt⟩)
  apply wp_freevm_scanned hR h
  rw [hEmpty]
  intro m' hFreed
  refine hQ m' ⟨hFreed.heap, hFreed.kernel, hFreed.wild, hFreed.byte, hFreed.tab, hFreed.table, ?_⟩
  intro v
  rw [hFreed.page v]
  constructor
  · rintro (hOld | hIn)
    · exact hOld
    · exact absurd hIn (not_inPages_none v)
  · exact .inl

end Free

section Copy

variable {J : Judge Mem Panic Label} {m m' m₀ m₁ : Mem} {d d₀ k v v' ap : Nat} {T T' T₀ : Nat → Option Nat}
  {P P' P₀ : Nat → Option (Nat × Nat)} {Q B : Nat → Mem → Prop}

/-- The pages before `k` of the mapping `P₀` have been copied to the new directory `d`. -/
structure Copied (m m' : Mem) (d k : Nat) (T' : Nat → Option Nat) (P₀ P' : Nat → Option (Nat × Nat)) : Prop where
  dir : Dir m' d T' P'
  touch : Touch m m' d (fun _ => none) T' (fun _ => none) P'
  copy : ∀ j < k, ∃ v ap v', P₀ j = some (v, ap) ∧ P' j = some (v', ap) ∧ m'.byte v' = m.byte v
  rest : ∀ j, k ≤ j → P' j = none

theorem Copied.start (h : Dir m d (fun _ => none) fun _ => none) :
    Copied m m d 0 (fun _ => none) P₀ fun _ => none where
  dir := h
  touch := .refl h
  copy j hj := absurd hj (Nat.not_lt_zero j)
  rest _ _ := rfl

theorem Copied.kept (h : Copied m m' d k T' P₀ P') {v : Nat} (hv : m.page v = true) :
    m'.page v = true ∧ m'.byte v = m.byte v :=
  ⟨(h.touch.page v).mpr (.inl ⟨hv, not_inPages_none v⟩), h.touch.byte v hv (not_inPages_none v)⟩

theorem Copied.solid (h : Copied m m' d k T' P₀ P') (hi : Nat) : Solid P' 0 hi := by
  intro j j' _ hLe _ hNone
  obtain hLt | hGe := Nat.lt_or_ge j' k
  · obtain ⟨v, ap, v', -, hv', -⟩ := h.copy j' hLt
    rw [hNone] at hv'
    cases hv'
  · exact h.rest j (hGe.trans hLe)

theorem Copied.push (h : Copied m₀ m d k T P₀ P) (hTaken : Taken m m₁ v') (hP : P₀ k = some (v, ap))
    (hv : m₀.page v = true) (hCopy : m₁.byte v' = m.byte v)
    (hDir : Dir m' d T' (Function.update P k (some (v', ap)))) (hTouch : Touch m₁ m' d T T' P P)
    (hByte : m'.byte = m₁.byte) :
    Copied m₀ m' d (k + 1) T' P₀ (Function.update P k (some (v', ap))) where
  dir := hDir
  touch := h.touch.trans (.take hTaken (h.rest k le_rfl) hTouch)
  copy j hj := by
    obtain hLt | rfl := Nat.lt_succ_iff_lt_or_eq.mp hj
    · obtain ⟨w, ap', w', h₁, h₂, h₃⟩ := h.copy j hLt
      refine ⟨w, ap', w', h₁, by rw [Function.update_of_ne hLt.ne, h₂], ?_⟩
      rw [hByte, hTaken.byte w' (hTaken.ne (h.dir.pageUsed ⟨j, _, h₂⟩).used), h₃]
    · exact ⟨v, ap, v', hP, Function.update_self .., by rw [hByte, hCopy, (h.kept hv).2]⟩
  rest j hj := by
    rw [Function.update_of_ne (by omega), h.rest j (by omega)]

/-- The loop of `copyuvm`, from page `k` on; the parent's directory is not touched. -/
theorem judge_copyLoop (hJ : Watches J) (n : Nat) (hDir : Dir m₀ d₀ T₀ P₀)
    (hApart : Apart d₀ d T₀ (fun _ => none) P₀ fun _ => none) (hAll : ∀ j < k + n, P₀ j ≠ none)
    (h : Copied m₀ m d k T P₀ P) (hDone : ∀ m' T' P', Copied m₀ m' d (k + n) T' P₀ P' → Q d m')
    (hFail : ∀ m₁ m₂ m' T' P', J.good .allocPage m₁ → ¬m₁.Free m₁.next →
      Touch m₀ m₂ d (fun _ => none) T' (fun _ => none) P' → Freed m₂ m' d T' P' → Q 0 m')
    (hWrong : ∀ m₁ m₂ m' T' P', J.may .allocPage m₁ → ¬J.good .allocPage m₁ →
      Touch m₀ m₂ d (fun _ => none) T' (fun _ => none) P' → Freed m₂ m' d T' P' → B 0 m') :
    judge J (copyLoop d d₀ n (k * pteSz)) Q B m := by
  have hR := hJ.allows.toCalm
  induction n generalizing m T P k with
  | zero => exact judge_pure (hDone m T P h)
  | succ n ih =>
    obtain ⟨hParent, -⟩ := h.touch.other hDir hApart
    obtain ⟨⟨v, ap⟩, hP⟩ := Option.ne_none_iff_exists'.mp (hAll k (by omega))
    obtain ⟨hUser, hAp, t, hT⟩ := hParent.page k v ap hP
    have hk : k < npages := by
      refine Nat.lt_of_not_le fun hGe => ?_
      rw [hDir.lt_npages hGe] at hP
      cases hP
    have hVa : k * pteSz < uaddrSz := by
      simp only [npages, numUpde, numPte, pteSz, uaddrSz] at *
      omega
    have hBack := h.touch.trans (.idle h.dir m.answers.tail)
    rw [copyLoop]
    apply judge_bind
    apply judge_of_wp (hJ.walkpgdir ..)
    apply wp_find hR hParent hVa
    rw [pdeIdx_page, pteIdx_page, hT]
    obtain ⟨hPresent, hAddr, hV, hPerm⟩ := hParent.entry_some hT hP
    dsimp only [Option.map_some]
    apply judge_bind
    apply judge_of_wp (hJ.act _)
    apply wp_getM hR
    rw [if_neg hPresent, hAddr, hV, hPerm]
    apply judge_bind
    apply judge_allocPage hJ
    · intro v' m₁ hFound hPage
      have hTaken : Taken m (m₁.copyPage v' v) v' := hFound.write _
      have hNew : UserPage (m₁.copyPage v' v) v' := hPage.write _
      have hOut : ¬InPages P v' := fun hIn => hTaken.ne (h.dir.pageUsed hIn).used rfl
      rw [if_neg (hNew.ne (h.dir.taken hTaken).heap).1]
      apply judge_bind
      apply judge_of_wp (hJ.act _)
      apply wp_modifyM hR
      apply judge_bind
      apply judge_of_wp (hJ.mapLoop ..)
      apply wp_mapPage hJ.allows (h.dir.taken hTaken) hk hNew hOut (h.rest k le_rfl) hAp
      intro m' T' hDir' hTouch hByte _ _
      have hNext : k * pteSz + pteSz = (k + 1) * pteSz := (Nat.succ_mul k pteSz).symm
      have hCount : k + 1 + n = k + (n + 1) := by omega
      rw [if_neg (by decide), hNext]
      have hCopy : (m₁.copyPage v' v).byte v' = m.byte v := (Function.update_self ..).trans (hFound.byte v (hFound.ne hUser.used))
      have hPush := h.push hTaken hP (hDir.page k v ap hP).1.used hCopy hDir' hTouch hByte
      refine ih (by rwa [hCount]) hPush ?_
      rw [hCount]
      exact hDone
    · intro hGood hFree
      rw [if_pos rfl]
      apply judge_bind
      apply judge_of_wp (hJ.freevm d)
      apply wp_freevm hR (h.dir.idle _) (h.solid npages)
      exact fun m' hFreed => judge_pure (hFail m _ m' T P hGood hFree hBack hFreed)
    · intro hMay hBad
      rw [if_pos rfl]
      apply wrong_of_wp
      rw [wp_bind]
      apply wp_freevm (Judge.worse_calm _) (h.dir.idle _) (h.solid npages)
      exact fun m' hFreed => hWrong m _ m' T P hMay hBad hBack hFreed

/-- `copyuvm` of a directory that maps the pages of its size. Either there is a complete copy,
or nothing has changed. -/
theorem judge_copyuvm (hJ : Watches J) {sz : Nat} (hDir : Dir m d₀ T₀ P₀) (hAll : ∀ j < pages sz, P₀ j ≠ none)
    (hDone : ∀ d m₁ m' T' P', Begun m m₁ d → Copied m₁ m' d (pages sz) T' P₀ P' → Q d m')
    (hFail : ∀ m₁ m', J.good .allocPage m₁ → ¬m₁.Free m₁.next → Restored m m' → Q 0 m')
    (hWrong : ∀ m₁ m', J.may .allocPage m₁ → ¬J.good .allocPage m₁ → Restored m m' → B 0 m') :
    judge J (copyuvm d₀ sz) Q B m := by
  rw [copyuvm]
  apply judge_bind
  apply judge_of_wp hJ.checkedKptAlloc
  apply wp_begin hJ.allows
  intro d m₁ hBegun
  obtain ⟨hParent, hApart⟩ := hBegun.other hDir
  have hTurns : (sz + pteSz - 1) / pteSz = pages sz := rfl
  rw [hTurns, ← Nat.zero_mul pteSz]
  apply judge_copyLoop hJ (pages sz) hParent hApart
  · rwa [Nat.zero_add]
  · exact .start (hBegun.dir hDir.heap)
  · rw [Nat.zero_add]
    exact fun m' T' P' hCopied => hDone d m₁ m' T' P' hBegun hCopied
  · exact fun m₂ m₃ m' T' P' hGood hNot hTouch hFreed => hFail m₂ m' hGood hNot (hBegun.restored hTouch hFreed)
  · exact fun m₂ m₃ m' T' P' hMay hNot hTouch hFreed => hWrong m₂ m' hMay hNot (hBegun.restored hTouch hFreed)

end Copy

end Xv6Rpi.Uvm
