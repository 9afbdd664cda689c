import Xv6Rpi.Process.Grow

/-! # fork

The child gets a copy of every page of its parent, on pages of its own.
-/

namespace Xv6Rpi.Process

open Prog Sched Uvm

/-- `fork` returns the new pid, or `none` for -1. -/
def fork (p : Slot) : KernM (Option Pid) := do
  let s ← getK id
  match s.tbl.allocproc with
  | none => return none
  | some (np, t) =>
    modifyK fun s => s.setTbl t
    let kstack ← onMem allocPage
    modifyK fun s => s.setTbl (s.tbl.allocKstack np kstack).2
    if kstack = 0 then return none
    else
      let pgdir ← onMem (copyuvm (s.pgdir p) (s.sz p))
      if pgdir = 0 then
        onMem (freePage kstack)
        modifyK fun s => s.setTbl (s.tbl.forkCopy np pgdir).2
        return none
      else
        modifyK fun s => s.setTbl ((s.tbl.forkCopy np pgdir).2.setParent np p)
        -- `r0` is cleared so that fork returns 0 in the child
        modifyK fun s => s.setUser np { s.user np with
          sz := s.sz p
          tf := { (s.user p).tf with r := Function.update (s.user p).tf.r 0 0 } }
        let _ ← onFs (Fs.fork p (some np))
        modifyK fun s => (s.setTbl (s.tbl.setState np .runnable)).setUser np { s.user np with name := (s.user p).name }
        getK fun s => some (s.tbl.proc np).pid

section Forking

variable {J : Judge Kernel Stop Label} {s s' : Kernel} {p np : Slot}

/-- The process in slot `np` is a copy of the one in slot `p`, and nothing of `p` has changed. -/
structure Forked (s s' : Kernel) (p np : Slot) : Prop where
  copy : ∀ va < pages (s.sz p) * pteSz, ∃ v ap v', translate s.mem (s.pgdir p) va = some (v, ap) ∧
    translate s'.mem (s'.pgdir np) va = some (v', ap) ∧ s'.mem.byte v' = s.mem.byte v
  apart : ∀ va va' v v' ap ap', translate s'.mem (s'.pgdir p) va = some (v, ap) →
    translate s'.mem (s'.pgdir np) va' = some (v', ap') → v ≠ v'
  above : ∀ va, pages (s.sz p) * pteSz ≤ va → translate s'.mem (s'.pgdir np) va = none
  size : s'.sz np = s.sz p
  tf : (s'.user np).tf = { (s.user p).tf with r := Function.update (s.user p).tf.r 0 0 }
  user : s'.user p = s.user p
  maps : ∀ va, translate s'.mem (s'.pgdir p) va = translate s.mem (s.pgdir p) va
  byte : ∀ va v ap, translate s.mem (s.pgdir p) va = some (v, ap) → s'.mem.byte v = s.mem.byte v

variable {m₁ m₂ m₃ : Mem} {T T' : Nat → Option Nat} {P P' : Nat → Option (Nat × Nat)} {v d : Nat}

theorem restored_of_taken (hTaken : Taken s.mem m₁ v) (h : Restored m₁ m₂) :
    Restored s.mem { m₂ with
      wild := m₂.wild || !m₂.page v
      page := Function.update m₂.page v false } where
  heap := h.heap.trans hTaken.heap
  kernel := h.kernel.trans hTaken.kernel
  wild := by
    rw [h.page, hTaken.page, Function.update_self, Bool.not_true, Bool.or_false, h.wild, hTaken.wild]
  table := h.table.trans hTaken.table
  page := by
    funext v'
    dsimp only
    by_cases hEq : v' = v
    · rw [hEq, Function.update_self, hTaken.free]
    · rw [Function.update_of_ne hEq, h.page, hTaken.page, Function.update_of_ne hEq]
  tab t ht := by
    rw [h.tab t (by rw [hTaken.table, ht]), hTaken.tab]
  byte v' hv' := by
    rw [h.byte v' (hTaken.page_of hv'), hTaken.byte v' (hTaken.ne hv')]

/-- A stack, a new directory and the copies in it make a child. -/
theorem forked_of (hDir : Dir s.mem (s.pgdir p) T P)
    (hTaken : Taken s.mem m₁ v) (hBegun : Begun m₁ m₂ d) (hCopied : Copied m₂ m₃ d (pages (s.sz p)) T' P P')
    (hMem : s'.mem = m₃) (hParent : s'.pgdir p = s.pgdir p) (hChild : s'.pgdir np = d) (hSize : s'.sz np = s.sz p)
    (hTf : (s'.user np).tf = { (s.user p).tf with r := Function.update (s.user p).tf.r 0 0 })
    (hUser : s'.user p = s.user p) : Forked s s' p np := by
  obtain ⟨hDir₂, hApart₂⟩ := hBegun.other (hDir.taken hTaken)
  obtain ⟨hDir₃, hApart⟩ := hCopied.touch.other hDir₂ hApart₂
  have hByte : ∀ v', s.mem.page v' = true → m₂.byte v' = s.mem.byte v' ∧ m₂.page v' = true := by
    intro v' hv'
    exact ⟨by rw [hBegun.byte, hTaken.byte v' (hTaken.ne hv')], by rw [hBegun.page, hTaken.page_of hv']⟩
  have hIdx : ∀ va, va < pages (s.sz p) * pteSz ↔ va / pteSz < pages (s.sz p) := fun va =>
    (Nat.div_lt_iff_lt_mul (by decide)).symm
  constructor
  · intro va hVa
    obtain ⟨w, ap, w', h₁, h₂, h₃⟩ := hCopied.copy _ ((hIdx va).mp hVa)
    refine ⟨w, ap, w', (hDir.translate va).trans h₁, ?_, ?_⟩
    · rw [hMem, hChild]
      exact (hCopied.dir.translate va).trans h₂
    · rw [hMem, h₃, (hByte w (hDir.pageUsed ⟨_, _, h₁⟩).used).1]
  · intro va va' w w' ap ap' h₁ h₂ hEq
    rw [hMem, hParent, hDir₃.translate] at h₁
    rw [hMem, hChild, hCopied.dir.translate, ← hEq] at h₂
    exact hApart.pages w ⟨_, _, h₁⟩ ⟨_, _, h₂⟩
  · intro va hVa
    rw [hMem, hChild]
    exact (hCopied.dir.translate va).trans (hCopied.rest _ (Nat.le_of_not_lt fun hLt => by
      rw [← hIdx] at hLt
      omega))
  · exact hSize
  · exact hTf
  · exact hUser
  · intro va
    rw [hMem, hParent]
    exact (hDir₃.translate va).trans (hDir.translate va).symm
  · intro va w ap hw
    rw [hDir.translate] at hw
    obtain ⟨hSame, hUsed⟩ := hByte w (hDir.pageUsed ⟨_, _, hw⟩).used
    rw [hMem, (hCopied.kept hUsed).2, hSame]

theorem allocKstack_proc {t : Ptable} {page : Nat} (h : p ≠ np) : (t.allocKstack np page).2.proc p = t.proc p := by
  rw [Ptable.allocKstack]
  split <;> exact Function.update_of_ne h ..

theorem forkCopy_proc {t : Ptable} {pgdir : Nat} (h : p ≠ np) : (t.forkCopy np pgdir).2.proc p = t.proc p := by
  rw [Ptable.forkCopy]
  split <;> exact Function.update_of_ne h ..

theorem forkCopy_pgdir {t : Ptable} {pgdir : Nat} : ((t.forkCopy np pgdir).2.proc np).pgdir = pgdir := by
  rw [Ptable.forkCopy]
  split <;> rw [Ptable.set_proc]

/-- `fork` makes a child, or it returns -1 with nothing left in use. -/
theorem judge_fork (hJ : Guards J) (hDir : Dir s.mem (s.pgdir p) T P) (hMaps : ∀ k, P k ≠ none ↔ k < pages (s.sz p))
    (hState : (s.tbl.proc p).state ≠ .unused) {Q B : Option Pid → Kernel → Prop}
    (hDone : ∀ s' np, Forked s s' p np → Q (some (s'.tbl.proc np).pid) s')
    (hNone : ∀ s', Restored s.mem s'.mem → s'.pgdir p = s.pgdir p → s'.user = s.user → Q none s')
    (hWrong : ∀ s₁ s', ¬J.good (.mem .allocPage) s₁ → Restored s.mem s'.mem → s'.pgdir p = s.pgdir p → s'.user = s.user →
      B none s') : judge J (fork p) Q B s := by
  rw [fork]
  apply judge_bind
  apply hJ.judge_getK
  simp only [id]
  cases hAlloc : s.tbl.allocproc with
  | none => exact judge_pure (hNone s (.refl _) rfl rfl)
  | some q =>
    obtain ⟨np, t⟩ := q
    obtain ⟨hUnused, hTbl⟩ := Ptable.allocproc_eq_some hAlloc
    have hNe : p ≠ np := by
      rintro rfl
      exact hState hUnused
    have hProc : t.proc p = s.tbl.proc p := by
      rw [hTbl]
      exact Function.update_of_ne hNe ..
    have hStackless : Restored s.mem { s.mem with answers := s.mem.answers.tail } :=
      ⟨rfl, rfl, rfl, rfl, rfl, fun _ _ => rfl, fun _ _ => rfl⟩
    have hOwn : ∀ page, (t.allocKstack np page).2.proc p = s.tbl.proc p := fun page => (allocKstack_proc hNe).trans hProc
    dsimp only
    apply judge_bind
    apply hJ.judge_modifyK
    apply judge_bind
    apply judge_lift mem_isPart
    apply judge_allocPage (hJ.mem _)
    · intro v m₁ hTaken hPage
      have hStack : v ≠ 0 := (hPage.ne (hDir.taken hTaken).heap).1
      apply judge_bind
      apply hJ.judge_modifyK
      rw [if_neg hStack]
      apply judge_bind
      apply judge_lift mem_isPart
      apply judge_copyuvm (hJ.mem _) (hDir.taken hTaken) fun k hk => (hMaps k).mpr hk
      · intro d _ m' T' P' hBegun hCopied
        have hd : d ≠ 0 := ne_zero_of_dir (hBegun.dir (hDir.taken hTaken).heap)
        rw [if_neg hd]
        apply judge_bind
        apply hJ.judge_modifyK
        apply judge_bind
        apply hJ.judge_modifyK
        apply judge_bind
        -- what happens to the files does not matter here
        apply hJ.judge_onFs
        intro _ k
        apply judge_bind
        apply hJ.judge_modifyK
        apply hJ.judge_getK
        refine hDone _ np (forked_of hDir hTaken hBegun hCopied rfl ?_ ?_ ?_ ?_ ?_)
        · refine congrArg Proc.pgdir (.trans (Function.update_of_ne hNe ..) (.trans (Function.update_of_ne hNe ..) ?_))
          exact (forkCopy_proc hNe).trans (hOwn v)
        · simp only [Kernel.pgdir, Kernel.setTbl, Kernel.setUser, Kernel.setFs, Kernel.setMem, Ptable.setState,
            Ptable.setParent, Ptable.set_proc, forkCopy_pgdir]
        · simp only [Kernel.sz, Kernel.setTbl, Kernel.setUser, Kernel.setFs, Kernel.setMem, Function.update_self]
        · simp only [Kernel.setTbl, Kernel.setUser, Kernel.setFs, Kernel.setMem, Function.update_self]
        · exact (Function.update_of_ne hNe ..).trans (Function.update_of_ne hNe ..)
      · intro _ m' _ _ hRestored
        rw [if_pos rfl]
        apply judge_bind
        apply judge_onMem ((hJ.mem _).act _)
        apply Uvm.wp_modifyM (hJ.mem _).allows.toCalm
        apply judge_bind
        apply hJ.judge_modifyK
        refine judge_pure (hNone _ (restored_of_taken hTaken hRestored) (congrArg Proc.pgdir ?_) rfl)
        exact (forkCopy_proc hNe).trans (hOwn v)
      · intro m₁ m' _ hNot hRestored
        rw [if_pos rfl]
        apply wrong_of_wp
        rw [wp_bind]
        apply wp_onMem
        apply Uvm.wp_modifyM (J.worse_calm.part ..)
        rw [wp_bind]
        apply wp_modifyK J.worse_calm
        refine hWrong _ _ hNot (restored_of_taken hTaken hRestored) (congrArg Proc.pgdir ?_) rfl
        exact (forkCopy_proc hNe).trans (hOwn v)
    · intro _ _
      apply judge_bind
      apply hJ.judge_modifyK
      rw [if_pos rfl]
      exact judge_pure (hNone _ hStackless (congrArg Proc.pgdir (hOwn 0)) rfl)
    · intro _ hNot
      apply wrong_of_wp
      rw [wp_bind]
      apply wp_modifyK J.worse_calm
      rw [if_pos rfl]
      exact hWrong _ _ hNot hStackless (congrArg Proc.pgdir (hOwn 0)) rfl

/-- Every `alloc_page` of the call finds a page, and a pipe its chunk. -/
def PagesFound : Label → Kernel → Prop
  | .mem l, s => Uvm.PagesFound l s.mem
  | _, _ => True

instance : (l : Label) → (s : Kernel) → Decidable (PagesFound l s)
  | .mem l, s => inferInstanceAs (Decidable (Uvm.PagesFound l s.mem))
  | .step, _ | .fs _, _ | .segment .., _ | .fill .., _ | .args .., _ | .ustack, _ => .isTrue trivial

/-- A page has to be found; whatever stops the call before that is fine. -/
def foundJudge (may : Label → Kernel → Prop) : Judge Kernel Stop Label where
  may := may
  must _ _ := True
  good := PagesFound
  fine _ := True
  bad _ := False

theorem foundJudge_guards (may : Label → Kernel → Prop) : Guards (foundJudge may) where
  mem _ := ⟨⟨⟨fun _ _ => trivial⟩, fun _ _ _ => trivial⟩, fun _ => trivial, fun _ => id, fun _ hNot => absurd trivial hNot⟩
  step _ := ⟨trivial, trivial⟩
  fs _ _ := ⟨trivial, trivial⟩
  stop _ := trivial

/-- A successful `fork` gives the child a copy of the address space on pages of its own and
leaves the parent as it is. When an `alloc_page` returns 0, then `fork` returns -1 and has given
everything back. -/
theorem fork_copies (hDir : IsDir s.mem (s.pgdir p)) (hMaps : Maps s.mem (s.pgdir p) (s.sz p))
    (hState : (s.tbl.proc p).state ≠ .unused) :
    (∀ r s', (fork p).run s = .ok (r, s') →
      (∀ pid, r = some pid → ∃ np, Forked s s' p np ∧ (s'.tbl.proc np).pid = pid) ∧ (r = none → Restored s.mem s'.mem)) ∧
    (¬(fork p).along PagesFound s → ∃ s', (fork p).run s = .ok (none, s') ∧ Restored s.mem s'.mem) := by
  obtain ⟨T, P, hDir⟩ := hDir
  rw [hDir.maps_iff] at hMaps
  have hJudge : judge (foundJudge fun _ _ => True) (fork p) (fun r s' => (∀ pid, r = some pid → ∃ np, Forked s s' p np ∧
      (s'.tbl.proc np).pid = pid) ∧ (r = none → Restored s.mem s'.mem)) (fun r s' => r = none ∧ Restored s.mem s'.mem) s := by
    refine judge_fork (foundJudge_guards _) hDir hMaps hState ?_ ?_ ?_
    · exact fun s' np hForked => ⟨fun pid hPid => ⟨np, hForked, Option.some.inj hPid⟩, fun hNone => by cases hNone⟩
    · exact fun s' hRestored _ _ => ⟨fun pid hPid => (Option.some_ne_none pid hPid.symm).elim, fun _ => hRestored⟩
    · exact fun _ s' _ hRestored _ _ => ⟨rfl, hRestored⟩
  have hMay : (fork p).along (foundJudge fun _ _ => True).may s := along_of_forall fun _ _ => trivial
  constructor
  · intro r s' hRun
    obtain hEnd | ⟨rfl, hRestored⟩ := judge_run hJudge hMay hRun
    · exact hEnd
    · exact ⟨fun pid hPid => (Option.some_ne_none pid hPid.symm).elim, fun _ => hRestored⟩
  · intro hNot
    obtain ⟨r, s', hRun, rfl, hRestored⟩ := (wrong_of_not_along hJudge hMay hNot).returns fun _ => id
    exact ⟨s', hRun, hRestored⟩

def childPages : List Nat := [0x80202000, 0x8001A000, 0x80203000, 0x8001B000]

/-- With these pages there is a child, and without the page for the copy there is none. -/
theorem fork_copies_one_page :
    (∃ s' np, (fork 0).run (oneProcess childPages) = .ok (some 2, s') ∧ Forked (oneProcess childPages) s' 0 np) ∧
    ∃ s', (fork 0).run (oneProcess [0x80202000, 0x8001A000]) = .ok (none, s') ∧
      Restored (oneProcess [0x80202000, 0x8001A000]).mem s'.mem := by
  constructor
  · have hResult : ((fork 0).run (oneProcess childPages)).toOption.map Prod.fst = some (some 2) := by decide +kernel
    obtain ⟨⟨r, s'⟩, hRun, hFst⟩ := Option.map_eq_some_iff.mp hResult
    rw [toOption_eq_some] at hRun
    obtain rfl : r = some 2 := hFst
    obtain ⟨hCopies, -⟩ := fork_copies (oneProcess_dir childPages) (oneProcess_maps _) (by decide)
    obtain ⟨np, hForked, -⟩ := (hCopies _ _ hRun).1 2 rfl
    exact ⟨s', np, hRun, hForked⟩
  · obtain ⟨-, hFails⟩ := fork_copies (oneProcess_dir [0x80202000, 0x8001A000]) (oneProcess_maps _) (by decide)
    exact hFails (by decide +kernel)

end Forking

end Xv6Rpi.Process
