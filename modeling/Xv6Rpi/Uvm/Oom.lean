import Xv6Rpi.Lib.Judge
import Xv6Rpi.Uvm.Resize

/-! # Where the memory runs out

A `kmalloc` that returns NULL stops a function of vm.c only in `kpt_alloc`, and there it does.
-/

namespace Xv6Rpi.Uvm

open Prog

/-- `kpt_alloc` has to find a page-table page. -/
def oomJudge : Judge Mem Panic Label where
  may _ _ := True
  must _ _ := True
  good := Tables
  fine _ := False
  bad := (· = .oomKptAlloc)

/-- Every `alloc_page` finds a page, and a pipe its chunk. -/
def PagesFound : Label → Mem → Prop
  | .allocPage, m => m.Free m.next
  | .allocChunk, m => m.FreeChunk m.next
  | _, _ => True

instance : (l : Label) → (m : Mem) → Decidable (PagesFound l m)
  | .allocPage, m => inferInstanceAs (Decidable (m.Free m.next))
  | .allocChunk, m => inferInstanceAs (Decidable (m.FreeChunk m.next))
  | .step, _ | .kptAlloc, _ => .isTrue trivial

/-- Only where a page or a page table is not to be had an action may not be good, and a `kpt_alloc`
that is not good panics with a bad value. -/
structure Watches (J : Judge Mem Panic Label) : Prop where
  allows : Allows J.rely
  step : ∀ m, J.good .step m
  allocPage : ∀ m, m.Free m.next → J.good .allocPage m
  kptAlloc : ∀ m, ¬J.good .kptAlloc m → ¬m.FreeTable m.next ∧ J.bad .oomKptAlloc

theorem oomJudge_watches : Watches oomJudge where
  allows := ⟨⟨fun _ _ => trivial⟩, fun _ hMay hNot => absurd hMay.2 hNot⟩
  step _ := trivial
  allocPage _ _ := trivial
  kptAlloc _ hNot := ⟨hNot, rfl⟩

theorem Allows.watches {R : Rely Mem Panic Label} (h : Allows R) : Watches R.judge where
  allows := ⟨⟨h.must⟩, fun m hMay => h.oom m hMay.1⟩
  step _ := trivial
  allocPage _ _ := trivial
  kptAlloc _ hNot := absurd trivial hNot

variable {J : Judge Mem Panic Label} {α : Type}

theorem Watches.act (hJ : Watches J) (f : Mem → Except Panic (α × Mem)) : (act f).Checked J := checked_of_good hJ.step

theorem Watches.checkedKptAlloc (hJ : Watches J) : Uvm.kptAlloc.Checked J :=
  checked_single fun m hNot => ⟨_, (hJ.kptAlloc m hNot).2, if_neg (hJ.kptAlloc m hNot).1⟩

theorem Watches.walkpgdir (hJ : Watches J) (pgdir va : Nat) (alloc : Bool) : (walkpgdir pgdir va alloc).Checked J := by
  refine checked_bind (hJ.act _) fun m => ?_
  split
  · exact hJ.act _
  · split
    · exact checked_pure _
    · split
      · exact checked_pure _
      · refine checked_bind hJ.checkedKptAlloc fun t => ?_
        exact checked_bind (hJ.act _) fun _ => checked_pure _

theorem Watches.mapLoop (hJ : Watches J) (pgdir last ap n a pa : Nat) : (mapLoop pgdir last ap n a pa).Checked J := by
  induction n generalizing a pa with
  | zero => exact hJ.act _
  | succ n ih =>
    refine checked_bind (hJ.walkpgdir _ _ _) fun r => ?_
    cases r with
    | none => exact checked_pure _
    | some q =>
      refine checked_bind (hJ.act _) fun m => ?_
      split
      · exact hJ.act _
      · refine checked_bind (hJ.act _) fun _ => ?_
        split
        · exact checked_pure _
        · exact ih _ _

theorem Watches.deallocLoop (hJ : Watches J) (pgdir oldsz n a : Nat) : (deallocLoop pgdir oldsz n a).Checked J := by
  induction n generalizing a with
  | zero => exact hJ.act _
  | succ n ih =>
    rw [Uvm.deallocLoop]
    split
    · exact checked_pure _
    · refine checked_bind (hJ.walkpgdir _ _ _) fun r => ?_
      cases r with
      | none => exact ih _
      | some q =>
        refine checked_bind (hJ.act _) fun m => ?_
        split
        · exact ih _
        · split
          · exact hJ.act _
          · exact checked_bind (hJ.act _) fun _ => checked_bind (hJ.act _) fun _ => ih _

theorem Watches.deallocuvm (hJ : Watches J) (pgdir oldsz newsz : Nat) : (deallocuvm pgdir oldsz newsz).Checked J := by
  rw [Uvm.deallocuvm]
  split
  · exact checked_pure _
  · exact checked_bind (hJ.deallocLoop _ _ _ _) fun _ => checked_pure _

theorem Watches.freeTables (hJ : Watches J) (pgdir n : Nat) : (freeTables pgdir n).Checked J := by
  induction n with
  | zero => exact checked_pure _
  | succ n ih =>
    refine checked_bind (hJ.act _) fun m => ?_
    dsimp only
    split
    · exact checked_bind (hJ.act _) fun _ => ih
    · exact ih

theorem Watches.freevm (hJ : Watches J) (pgdir : Nat) : (freevm pgdir).Checked J := by
  rw [Uvm.freevm]
  split
  · exact hJ.act _
  · exact checked_bind (hJ.deallocuvm _ _ _) fun _ => checked_bind (hJ.freeTables _ _) fun _ => hJ.act _

theorem Watches.clearpteu (hJ : Watches J) (pgdir uva : Nat) : (clearpteu pgdir uva).Checked J := by
  refine checked_bind (hJ.walkpgdir _ _ _) fun r => ?_
  cases r with
  | none => exact hJ.act _
  | some q => exact hJ.act _

theorem Watches.uva2ka (hJ : Watches J) (pgdir uva : Nat) : (uva2ka pgdir uva).Checked J := by
  refine checked_bind (hJ.walkpgdir _ _ _) fun r => ?_
  cases r with
  | none => exact hJ.act _
  | some q =>
    refine checked_bind (hJ.act _) fun m => ?_
    split
    · exact checked_pure _
    · split
      · exact checked_pure _
      · exact checked_pure _

theorem Watches.copyout (hJ : Watches J) (pgdir va : Nat) (buf : List UInt8) : (copyout pgdir va buf).Checked J := by
  rw [Uvm.copyout]
  generalize buf.length = n
  induction n generalizing va buf with
  | zero => exact checked_pure _
  | succ n ih =>
    rw [copyoutLoop]
    split
    · exact checked_pure _
    · refine checked_bind (hJ.uva2ka _ _) fun pa0 => ?_
      split
      · exact checked_pure _
      · exact checked_bind (hJ.act _) fun _ => ih _ _

section Growing

variable {R : Rely Mem Panic Label} {m₀ m : Mem} {d k : Nat} {T₀ T : Nat → Option Nat} {P₀ P : Nat → Option (Nat × Nat)}
  {Q B : Nat → Mem → Prop}

theorem judge_allocPage (hJ : Watches J)
    (hSome : ∀ v m₁, Taken m m₁ v → UserPage m₁ v → Q v m₁)
    (hNone : J.good .allocPage m → ¬m.Free m.next → Q 0 { m with answers := m.answers.tail })
    (hWrong : J.may .allocPage m → ¬J.good .allocPage m → B 0 { m with answers := m.answers.tail }) :
    judge J allocPage Q B m := by
  rw [allocPage]
  apply judge_single
  · intro _ hGood
    refine ⟨hJ.allows.must _ _, ?_⟩
    by_cases hFree : m.Free m.next
    · rw [if_pos hFree]
      obtain ⟨hAligned, hLow, hHigh, hUnused, -⟩ := hFree
      exact hSome _ _ ⟨rfl, rfl, rfl, rfl, rfl, fun _ _ => rfl, hUnused, rfl⟩ ⟨hAligned, hLow, hHigh, Function.update_self ..⟩
    · rw [if_neg hFree]
      exact hNone hGood hFree
  · intro hMay hBad
    rw [Wrong, single, run, if_neg (mt (hJ.allocPage m) hBad)]
    exact hWrong hMay hBad

/-- The loop of `allocuvm`, from page `k` on: whether a failing `alloc_page` is good or not, what has been
mapped is taken back. -/
theorem judge_allocLoop (hJ : Watches J) {oldsz newsz : Nat} (hSz : newsz < uaddrSz) (n : Nat)
    (hNone : ∀ j, pages oldsz ≤ j → j < pages newsz → P₀ j = none) (hLo : pages oldsz ≤ k) (hk : k ≤ pages newsz)
    (h : Grew m₀ m d (pages oldsz) k T₀ T P₀ P) (hn : pages newsz ≤ k + n)
    (hDone : ∀ m' T' P', Grew m₀ m' d (pages oldsz) (pages newsz) T₀ T' P₀ P' → Q newsz m')
    (hFail : ∀ m₁ m' T', J.good .allocPage m₁ → ¬m₁.Free m₁.next → m'.table = m₁.table → Undone m₀ m' d T₀ T' P₀ → Q 0 m')
    (hWrong : ∀ m₁ m' T', J.may .allocPage m₁ → ¬J.good .allocPage m₁ → m'.table = m₁.table → Undone m₀ m' d T₀ T' P₀ →
      B 0 m') : judge J (allocLoop d oldsz newsz (n + 1) (k * pteSz)) Q B m := by
  have hAll := pages_le_npages hSz.le
  induction n generalizing m T P k with
  | zero =>
    obtain rfl : k = pages newsz := by omega
    rw [allocLoop, if_pos (Nat.le_of_not_lt fun hLt => absurd (lt_pages.mpr hLt) (lt_irrefl _))]
    exact judge_pure (hDone m T P h)
  | succ n ih =>
    rw [allocLoop]
    by_cases hLast : newsz ≤ k * pteSz
    · obtain rfl : k = pages newsz := le_antisymm hk (pages_le hLast)
      rw [if_pos hLast]
      exact judge_pure (hDone m T P h)
    have hLt : k < pages newsz := lt_pages.mpr (Nat.lt_of_not_le hLast)
    rw [if_neg hLast]
    apply judge_bind
    apply judge_allocPage hJ
    · intro v m₁ hFound hPage
      have hTaken : Taken m (m₁.clear v) v := hFound.write _
      have hUser : UserPage (m₁.clear v) v := hPage.write _
      have hOut : ¬InPages P v := fun hIn => hTaken.ne (h.dir.pageUsed hIn).used rfl
      have hNext : P k = none := by rw [h.other k (by omega), hNone k hLo hLt]
      rw [if_neg (hUser.ne (h.dir.taken hTaken).heap).1]
      apply judge_bind
      apply judge_of_wp (hJ.act _)
      apply wp_modifyM hJ.allows.toCalm
      apply judge_bind
      apply judge_of_wp (hJ.mapLoop ..)
      apply wp_mapPage hJ.allows (h.dir.taken hTaken) (by omega) hUser hOut hNext (by decide)
      intro m' T' hDir hTouch hByte hTables hAdded
      rw [next_page (by omega)]
      exact ih (by omega) (by omega)
        (h.push hLo (fun j h₁ h₂ => hNone j h₁ (by omega)) hNext hTaken (Function.update_self ..) hDir hTouch hByte
          hTables hAdded) (by omega)
    · intro hGood hFree
      rw [if_pos rfl]
      apply judge_of_wp (checked_bind (hJ.deallocuvm ..) fun _ => checked_pure _)
      apply wp_undo hJ.allows.toCalm hSz hNone hk h
      exact fun m' T' hUndone hSame => hFail m m' T' hGood hFree hSame hUndone
    · intro hMay hBad
      rw [if_pos rfl]
      apply wrong_of_wp
      apply wp_undo (Judge.worse_calm _) hSz hNone hk h
      exact fun m' T' hUndone hSame => hWrong m m' T' hMay hBad hSame hUndone

theorem judge_allocuvm (hJ : Watches J) {oldsz newsz : Nat} (hLe : oldsz ≤ newsz) (hSz : newsz < uaddrSz)
    (h : Dir m d T P) (hNone : ∀ k, pages oldsz ≤ k → k < pages newsz → P k = none)
    (hDone : ∀ m' T' P', Grew m m' d (pages oldsz) (pages newsz) T T' P P' → Q newsz m')
    (hFail : ∀ m₁ m' T', J.good .allocPage m₁ → ¬m₁.Free m₁.next → m'.table = m₁.table → Undone m m' d T T' P → Q 0 m')
    (hWrong : ∀ m₁ m' T', J.may .allocPage m₁ → ¬J.good .allocPage m₁ → m'.table = m₁.table → Undone m m' d T T' P →
      B 0 m') : judge J (allocuvm d oldsz newsz) Q B m := by
  rw [allocuvm, if_neg (Nat.not_le.mpr hSz), if_neg (Nat.not_lt.mpr hLe), alignUp_pages (hLe.trans hSz.le)]
  refine judge_allocLoop hJ hSz _ hNone le_rfl (pages_mono hLe) (.refl h) ?_ hDone hFail hWrong
  simp only [pages, pteSz]
  omega

theorem wp_allocuvm (hR : Allows R) {oldsz newsz : Nat} (hLe : oldsz ≤ newsz) (hSz : newsz < uaddrSz) (h : Dir m d T P)
    (hNone : ∀ k, pages oldsz ≤ k → k < pages newsz → P k = none)
    (hDone : ∀ m' T' P', Grew m m' d (pages oldsz) (pages newsz) T T' P P' → Q newsz m')
    (hFail : ∀ m' T', Undone m m' d T T' P → Q 0 m') : wp R (allocuvm d oldsz newsz) Q m := by
  apply wp_of_judge (B := fun _ _ => False)
  refine judge_allocuvm hR.watches hLe hSz h hNone hDone ?_ ?_
  · exact fun _ m' T' _ _ _ => hFail m' T'
  · exact fun _ _ _ _ hNot => absurd trivial hNot

end Growing

section Undone

variable {m : Mem} {d oldsz newsz : Nat}

/-- Page tables are found, so that nothing stops, and pages have to be. -/
def pageJudge : Judge Mem Panic Label where
  may := Tables
  must _ _ := True
  good := PagesFound
  fine _ := False
  bad _ := False

theorem pageJudge_watches : Watches pageJudge where
  allows := ⟨⟨fun _ _ => trivial⟩, fun _ hMay hNot => absurd hMay.1 hNot⟩
  step _ := trivial
  allocPage _ := id
  kptAlloc _ hNot := absurd trivial hNot

/-- The addresses up to `newsz` are mapped to pages of their own that hold zeros, the others as before. -/
structure Granted (m m' : Mem) (d oldsz newsz : Nat) : Prop where
  fresh : ∀ va, alignUp oldsz pteSz ≤ va → va < newsz →
    ∃ v, translate m' d va = some (v, apKu) ∧ m'.page v = true ∧ ∀ i, m'.byte v i = 0
  other : ∀ va, ¬(alignUp oldsz pteSz ≤ va ∧ va < alignUp newsz pteSz) → translate m' d va = translate m d va
  kept : ∀ v, m.page v = true → m'.page v = true ∧ m'.byte v = m.byte v

structure TakenBack (m m' : Mem) (d : Nat) : Prop where
  maps : ∀ va, translate m' d va = translate m d va
  page : m'.page = m.page
  wild : m'.wild = m.wild

/-- `allocuvm` maps zeroed pages exactly if every `alloc_page` finds one. When one returns 0, then
`allocuvm` returns 0 and has taken back all it did. -/
theorem allocuvm_undone (hDir : IsDir m d) (hLe : oldsz ≤ newsz) (hSz : newsz < uaddrSz)
    (hNone : ∀ va, alignUp oldsz pteSz ≤ va → va < newsz → translate m d va = none)
    (hTables : (allocuvm d oldsz newsz).along Tables m) :
    ∃ r m', (allocuvm d oldsz newsz).run m = .ok (r, m') ∧
      ((allocuvm d oldsz newsz).along PagesFound m → r = newsz ∧ Granted m m' d oldsz newsz) ∧
      (¬(allocuvm d oldsz newsz).along PagesFound m → r = 0 ∧ TakenBack m m' d) := by
  obtain ⟨T, P, hDir⟩ := hDir
  have hOld := alignUp_pages (hLe.trans hSz.le)
  have hNew := alignUp_pages hSz.le
  have hEmpty : ∀ k, pages oldsz ≤ k → k < pages newsz → P k = none := by
    intro k h₁ h₂
    have hLow : alignUp oldsz pteSz ≤ k * pteSz := by
      rw [hOld]
      exact Nat.mul_le_mul_right _ h₁
    have hVa := hNone (k * pteSz) hLow (lt_pages.mp h₂)
    rwa [hDir.translate, Nat.mul_div_cancel _ (by decide)] at hVa
  have hJudge : judge pageJudge (allocuvm d oldsz newsz) (fun r m' => r = newsz ∧ Granted m m' d oldsz newsz)
      (fun r m' => r = 0 ∧ TakenBack m m' d) m := by
    refine judge_allocuvm pageJudge_watches hLe hSz hDir hEmpty ?_ ?_ ?_
    · intro m' T' P' hGrew
      refine ⟨rfl, ?_, ?_, ?_⟩
      · intro va hLow hHigh
        obtain ⟨v, hv, hZero⟩ := hGrew.fresh (va / pteSz)
          ((Nat.le_div_iff_mul_le (by decide)).mpr (hOld ▸ hLow)) (lt_pages.mpr ((Nat.div_mul_le_self ..).trans_lt hHigh))
        exact ⟨v, (hGrew.dir.translate va).trans hv, (hGrew.dir.pageUsed ⟨_, _, hv⟩).used, congrFun hZero⟩
      · intro va hOut
        rw [hGrew.dir.translate, hDir.translate]
        apply hGrew.other
        rwa [hOld, hNew, ← Nat.le_div_iff_mul_le (by decide), ← Nat.div_lt_iff_lt_mul (by decide)] at hOut
      · exact fun v hv => ⟨hGrew.used hEmpty hv, hGrew.kept v hv⟩
    · exact fun _ _ _ hGood hNot => absurd hGood hNot
    · intro _ m' T' _ _ _ hUndone
      refine ⟨rfl, fun va => ?_, hUndone.touch.page_eq hDir, hUndone.touch.wild⟩
      rw [hUndone.dir.translate, hDir.translate]
  by_cases hPages : (allocuvm d oldsz newsz).along PagesFound m
  · obtain ⟨r, m', hRun, hEnd⟩ := judge_returns hJudge hTables hPages fun _ => id
    exact ⟨r, m', hRun, fun _ => hEnd, absurd hPages⟩
  · obtain ⟨r, m', hRun, hEnd⟩ := (wrong_of_not_along hJudge hTables hPages).returns fun _ => id
    exact ⟨r, m', hRun, (absurd · hPages), fun _ => hEnd⟩

/-- There is one page and its page table, but no second page. -/
theorem allocuvm_undone_second_page : ∃ m',
    (allocuvm 0x80018000 100 9000).run (bare [0x80200000, 0x80019000, 0]) = .ok (0, m') ∧
      TakenBack (bare [0x80200000, 0x80019000, 0]) m' 0x80018000 ∧ m'.table 0x80019000 = true := by
  have hResult : ((allocuvm 0x80018000 100 9000).run (bare [0x80200000, 0x80019000, 0])).toOption.map
      (fun r => r.2.table 0x80019000) = some true := by decide +kernel
  obtain ⟨⟨r, m'⟩, hRun, hTable⟩ := Option.map_eq_some_iff.mp hResult
  obtain ⟨r', m₁, hRun', -, hFail⟩ := allocuvm_undone (m := bare [0x80200000, 0x80019000, 0])
    ⟨_, _, bare_dir _⟩ (by decide : 100 ≤ 9000) (by decide) (fun va _ _ => (bare_dir _).translate va) (by decide +kernel)
  rw [toOption_eq_some, hRun'] at hRun
  obtain ⟨rfl, rfl⟩ := Prod.mk.inj (Except.ok.inj hRun)
  obtain ⟨rfl, hBack⟩ := hFail (by decide +kernel)
  exact ⟨m₁, hRun', hBack, hTable⟩

end Undone

end Xv6Rpi.Uvm
