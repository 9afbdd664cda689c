import Xv6Rpi.Process.Fork
import Xv6Rpi.Process.Outcome

/-! # Running out of memory

When `kmalloc` returns NULL in a call, the call should return -1 and leave the memory of its
caller and all that is allocated as they were. It does so exactly if no `kpt_alloc` is out of
memory, which panics; and where a process only grows, if no page table has been made by then,
which would stay.
-/

namespace Xv6Rpi.Process

open Prog Sched Uvm

structure Unharmed (s s' : Kernel) (p : Slot) : Prop extends SameSpace s s' p where
  memory : ∀ va, userByte s'.mem (s'.pgdir p) va = userByte s.mem (s.pgdir p) va
  page : s'.mem.page = s.mem.page
  table : s'.mem.table = s.mem.table

/-- Where a `kmalloc` of the call returns NULL, the call returns, and it ends as `Failed`; nothing stops
it but what is put aside. -/
def OomSafe {S α : Type} (found : Label → S → Prop) (aside : Stop → Prop) (x : Prog S Stop Label α)
    (Failed : α → S → Prop) (s : S) : Prop :=
  ¬x.along found s → (∃ r s', x.run s = .ok (r, s') ∧ Failed r s') ∨ ∃ e, x.run s = .error e ∧ aside e

section Judged

variable {S α : Type} {found : Label → S → Prop} {aside : Stop → Prop} {x : Prog S Stop Label α} {Failed : α → S → Prop}
  {s : S}

theorem OomSafe.returns (h : OomSafe found aside x Failed s) (hNot : ¬x.along found s) (hAside : ∀ e, ¬aside e) :
    ∃ r s', x.run s = .ok (r, s') ∧ Failed r s' :=
  (h hNot).resolve_right fun ⟨e, _, he⟩ => hAside e he

/-- One judge says that a call is not safe when an action is not good, the other one that nothing but such an
action makes it unsafe. -/
theorem oomSafe_iff (J J' : Judge S Stop Label) (hFound : ∀ l s, found l s → J.good l s)
    (hAll : ∀ l s, J.good l s → J'.good l s → found l s) (hMay : ∀ l s, J.may l s) (hMay' : ∀ l s, J.good l s → J'.may l s)
    (hBad : ∀ e, J.bad e → ¬aside e) (hAside : ∀ e, J'.bad e → aside e)
    (h : judge J x (fun _ _ => True) (fun r s' => ¬Failed r s') s)
    (h' : judge J' x (fun _ _ => True) Failed s) :
    OomSafe found aside x Failed s ↔ x.along J.good s := by
  constructor
  · intro hSafe
    by_contra hNot
    have hWrong := wrong_of_not_along h (along_of_forall hMay) hNot
    rw [Wrong] at hWrong
    obtain ⟨r, s', hRun, hFailed⟩ | ⟨e, hRun, he⟩ := hSafe (mt (along_mono hFound) hNot)
    · rw [hRun] at hWrong
      exact hWrong hFailed
    · rw [hRun] at hWrong
      exact hBad e hWrong he
  · intro hGood hNot
    have hOther : ¬x.along J'.good s := fun hGood' =>
      hNot (along_mono (fun l s hl => hAll l s hl.1 hl.2) (along_and hGood hGood'))
    have hWrong := wrong_of_not_along h' (along_mono hMay' hGood) hOther
    rw [Wrong] at hWrong
    cases hRun : x.run s with
    | error e =>
      rw [hRun] at hWrong
      exact .inr ⟨e, rfl, hAside e hWrong⟩
    | ok r =>
      rw [hRun] at hWrong
      exact .inl ⟨r.1, r.2, rfl, hWrong⟩

end Judged

section Calls

variable {s s' : Kernel} {p : Slot} {T T' : Nat → Option Nat} {P : Nat → Option (Nat × Nat)}

/-- Where everything has been given back, the process has lost nothing. -/
theorem unharmed_of_restored (hDir : Dir s.mem (s.pgdir p) T P) (hPgdir : s'.pgdir p = s.pgdir p)
    (hSize : s'.sz p = s.sz p) (hMem : Restored s.mem s'.mem) : Unharmed s s' p where
  size := hSize
  maps va := (userByte_restored hDir hPgdir hMem va).1
  memory va := (userByte_restored hDir hPgdir hMem va).2
  page := hMem.page
  table := hMem.table

/-- Every `kpt_alloc` of the call finds a page-table page. -/
def TablesFound : Label → Kernel → Prop
  | .mem l, s => Tables l s.mem
  | _, _ => True

instance : (l : Label) → (s : Kernel) → Decidable (TablesFound l s)
  | .mem l, s => inferInstanceAs (Decidable (Tables l s.mem))
  | .step, _ | .fs _, _ | .segment .., _ | .fill .., _ | .args .., _ | .ustack, _ => .isTrue trivial

/-- No `kmalloc` of the call returns NULL. -/
def MemoryFound (l : Label) (s : Kernel) : Prop := TablesFound l s ∧ PagesFound l s

instance (l : Label) (s : Kernel) : Decidable (MemoryFound l s) := inferInstanceAs (Decidable (_ ∧ _))

/-- And when `alloc_page` finds no page, no page table has been made since `s₀`. -/
def TablesSame (s₀ : Kernel) : Label → Kernel → Prop
  | .mem .allocPage, s => s.mem.Free s.mem.next ∨ s.mem.table = s₀.mem.table
  | l, s => TablesFound l s

/-- The panic of `kpt_alloc` is bad, and these places are good. -/
def callJudge (good : Label → Kernel → Prop) : Judge Kernel Stop Label where
  may _ _ := True
  must _ _ := True
  good := good
  fine _ := True
  bad e := e = .panic .oomKptAlloc

theorem tablesFound_guards : Guards (callJudge TablesFound) where
  mem _ := ⟨⟨⟨fun _ _ => trivial⟩, fun _ _ _ => trivial⟩, fun _ => trivial, fun _ _ => trivial, fun _ hNot => ⟨hNot, rfl⟩⟩
  step _ := ⟨trivial, trivial⟩
  fs _ _ := ⟨trivial, trivial⟩
  stop _ := trivial

theorem tablesSame_guards (s₀ : Kernel) : Guards (callJudge (TablesSame s₀)) where
  mem _ := ⟨⟨⟨fun _ _ => trivial⟩, fun _ _ _ => trivial⟩, fun _ => trivial, fun _ => .inl, fun _ hNot => ⟨hNot, rfl⟩⟩
  step _ := ⟨trivial, trivial⟩
  fs _ _ := ⟨trivial, trivial⟩
  stop _ := trivial

theorem oomSafe_fork (hDir : Dir s.mem (s.pgdir p) T P) (hMaps : ∀ k, P k ≠ none ↔ k < pages (s.sz p))
    (hState : (s.tbl.proc p).state ≠ .unused) :
    OomSafe MemoryFound (fun _ => False) (fork p) (fun r s' => r = none ∧ Unharmed s s' p) s ↔
      (fork p).along TablesFound s := by
  refine oomSafe_iff (callJudge TablesFound) (foundJudge fun _ _ => True) (fun _ _ => And.left) (fun _ _ => And.intro)
    (fun _ _ => trivial) (fun _ _ _ => trivial) (fun _ _ => id) (fun _ => id) ?_ ?_
  · refine judge_fork tablesFound_guards hDir hMaps hState (fun _ _ _ => trivial) (fun _ _ _ _ => trivial) ?_
    exact fun _ _ hNot => absurd trivial hNot
  · refine judge_fork (foundJudge_guards _) hDir hMaps hState (fun _ _ _ => trivial) (fun _ _ _ _ => trivial) ?_
    exact fun _ s' _ hRestored hPgdir hUser =>
      ⟨rfl, unharmed_of_restored hDir hPgdir (by rw [Kernel.sz, hUser, Kernel.sz]) hRestored⟩

theorem oomSafe_sysExec {header : List UInt8} (hDir : Dir s.mem (s.pgdir p) T P)
    (hMaps : ∀ k, P k ≠ none ↔ k < pages (s.sz p)) :
    OomSafe MemoryFound (fun e => ∃ f, e = .fs f) (sysExec p header) (fun r s' => r = -1 ∧ Unharmed s s' p) s ↔
      (sysExec p header).along TablesFound s := by
  have hGood : ∀ l s, (Watch.judge ⟨False, True, False, True⟩).good l s ↔ TablesFound l s := by
    intro l s
    cases l with
    | mem l => exact ⟨fun h => h.1 trivial, fun h => ⟨fun _ => h, False.elim⟩⟩
    | _ => exact iff_of_true False.elim trivial
  have hPages : ∀ l s, (Watch.judge ⟨False, False, True, True⟩).good l s → PagesFound l s := by
    intro l s h
    cases l with
    | mem l => exact h.2 trivial
    | _ => trivial
  rw [← along_congr hGood]
  refine oomSafe_iff (Watch.judge ⟨False, True, False, True⟩) (Watch.judge ⟨False, False, True, True⟩)
    (fun l s h => (hGood l s).mpr h.1) (fun l s h h' => ⟨(hGood l s).mp h, hPages l s h'⟩)
    (fun l s => by cases l <;> trivial) (fun l s _ => by cases l <;> trivial) ?_ ?_ ?_ ?_
  · rintro _ hBad ⟨f, rfl⟩
    exact hBad.elim id id
  · intro e hBad
    cases e with
    | fs f => exact ⟨f, rfl⟩
    | panic e => cases e <;> exact hBad.elim
  · exact judge_sysExec id hDir hMaps (fun _ _ _ _ _ _ _ => trivial) (fun _ _ _ => trivial) False.elim
  · refine judge_sysExec id hDir hMaps (fun _ _ _ _ _ _ _ => trivial) (fun _ _ _ => trivial) fun _ s' hKept _ => ?_
    have hUnseen := hKept.unseen ⟨T, P, hDir⟩
    exact ⟨rfl, unharmed_of_restored hDir hUnseen.pgdir hUnseen.size hKept.mem⟩

section Growing

variable {n : BitVec 32} {m' : Mem} {J : Judge Kernel Stop Label}

/-- An attempt to grow that has been taken back has lost nothing but page tables. -/
theorem unharmed_of_undone (hDir : Dir s.mem (s.pgdir p) T P) (h : Undone s.mem m' (s.pgdir p) T T' P)
    (hTable : m'.table = s.mem.table) : Unharmed s (s.setMem m') p := by
  have hMaps : ∀ va, translate m' (s.pgdir p) va = translate s.mem (s.pgdir p) va := fun va =>
    (h.dir.translate va).trans (hDir.translate va).symm
  constructor
  · exact ⟨rfl, hMaps⟩
  · intro va
    change (translate m' (s.pgdir p) va).map _ = _
    rw [hMaps va, userByte]
    cases hVa : translate s.mem (s.pgdir p) va with
    | none => rfl
    | some q =>
      obtain ⟨v, ap⟩ := q
      rw [hDir.translate] at hVa
      rw [Option.map_some, Option.map_some]
      exact congrArg (fun b => some (b (va % pteSz))) (h.kept v (hDir.pageUsed ⟨_, _, hVa⟩).used)
  · exact h.touch.page_eq hDir
  · exact hTable

theorem judge_growTo (hJ : Guards J) (hPgdir : s.pgdir p ≠ 0) {sz : Nat} {Q B : Int → Kernel → Prop}
    (hQ : ∀ r s', Q r s') : judge J (growTo p sz) Q B s := by
  rw [growTo]
  apply judge_bind
  apply hJ.judge_modifyK
  apply judge_bind
  apply hJ.judge_act
  rw [if_neg (show (s.setSz p sz).pgdir p ≠ 0 from hPgdir)]
  exact judge_pure (hQ ..)

theorem judge_growproc (hJ : Guards J) (hDir : Dir s.mem (s.pgdir p) T P) (hMaps : ∀ k, P k ≠ none ↔ k < pages (s.sz p))
    {Q B : Int → Kernel → Prop} (hQ : ∀ r s', Q r s')
    (hWrong : ∀ s₁ s', J.may (.mem .allocPage) s₁ → ¬J.good (.mem .allocPage) s₁ → s'.mem.table = s₁.mem.table →
      (s'.mem.table = s.mem.table → Unharmed s s' p) → B (-1) s') : judge J (growproc p n) Q B s := by
  have hSz := maps_le hDir hMaps
  have hNe := ne_zero_of_dir hDir
  rw [growproc]
  apply judge_bind
  apply hJ.judge_getK
  dsimp only [id]
  by_cases hPos : 0 < n.toInt
  · have hNat := toNat_of_pos hPos
    have hSum : (s.sz p + n.toNat) % 2 ^ 32 = s.sz p + n.toNat := by
      have hTop := BitVec.toInt_lt (x := n)
      simp only [uaddrSz] at hSz
      omega
    rw [if_pos hPos, hSum]
    by_cases hBig : uaddrSz ≤ s.sz p + n.toNat
    · rw [allocuvm, if_pos hBig]
      exact judge_pure (hQ ..)
    · have hNone : ∀ k, pages (s.sz p) ≤ k → k < pages (s.sz p + n.toNat) → P k = none := fun k hk _ =>
        not_not.mp fun hNe => absurd ((hMaps k).mp hNe) (Nat.not_lt.mpr hk)
      apply judge_bind
      apply judge_lift mem_isPart
      refine judge_allocuvm (hJ.mem s) (Nat.le_add_right _ _) (Nat.lt_of_not_le hBig) hDir hNone ?_ ?_ ?_
      · intro m' T' P' _
        rw [if_neg (by omega)]
        refine judge_growTo hJ ?_ hQ
        exact hNe
      · intro _ m' T' _ _ _ _
        rw [if_pos rfl]
        exact judge_pure (hQ ..)
      · intro m₁ m' T' hMay hNot hTable hUndone
        rw [if_pos rfl]
        exact wrong_of_wp (hWrong (s.setMem m₁) (s.setMem m') hMay hNot hTable (unharmed_of_undone hDir hUndone))
  · rw [if_neg hPos]
    by_cases hNeg : n.toInt < 0
    · rw [if_pos hNeg]
      apply judge_bind
      apply judge_onMem ((hJ.mem s).deallocuvm ..)
      apply wp_deallocuvm (hJ.mem s).allows.toCalm hSz hDir (solid_of_maps hMaps)
      intro m' _ _ _
      split_ifs with hZero
      · exact judge_pure (hQ ..)
      · refine judge_growTo hJ ?_ hQ
        exact hNe
    · rw [if_neg hNeg]
      exact judge_growTo hJ hNe hQ

theorem judge_sysSbrk (hJ : Guards J) (hDir : Dir s.mem (s.pgdir p) T P) (hMaps : ∀ k, P k ≠ none ↔ k < pages (s.sz p))
    {B : Int → Kernel → Prop}
    (hWrong : ∀ s₁ s', J.may (.mem .allocPage) s₁ → ¬J.good (.mem .allocPage) s₁ → s'.mem.table = s₁.mem.table →
      (s'.mem.table = s.mem.table → Unharmed s s' p) → B (-1) s') : judge J (sysSbrk p) (fun _ _ => True) B s := by
  rw [sysSbrk]
  apply judge_bind
  apply hJ.judge_getK
  apply judge_bind
  apply judge_growproc hJ hDir hMaps
  · intro r s'
    split_ifs
    · exact judge_pure trivial
    · exact judge_pure trivial
  · intro s₁ s' hMay hNot hTable hUnharmed
    rw [if_pos (by decide)]
    exact wrong_of_wp (hWrong s₁ s' hMay hNot hTable hUnharmed)

theorem oomSafe_sysSbrk (hDir : Dir s.mem (s.pgdir p) T P) (hMaps : ∀ k, P k ≠ none ↔ k < pages (s.sz p)) :
    OomSafe MemoryFound (fun _ => False) (sysSbrk p) (fun r s' => r = -1 ∧ Unharmed s s' p) s ↔
      (sysSbrk p).along (TablesSame s) s := by
  have hSame : ∀ l s', MemoryFound l s' → TablesSame s l s' := by
    rintro l s' ⟨hTables, hPages⟩
    cases l with
    | mem l =>
      cases l with
      | allocPage => exact .inl hPages
      | _ => exact hTables
    | _ => trivial
  have hTables : ∀ l s', TablesSame s l s' → TablesFound l s' := by
    intro l s' h
    cases l with
    | mem l =>
      cases l with
      | allocPage => trivial
      | _ => exact h
    | _ => trivial
  refine oomSafe_iff (callJudge (TablesSame s)) (foundJudge (TablesSame s)) hSame
    (fun l s' h h' => ⟨hTables l s' h, h'⟩) (fun _ _ => trivial) (fun _ _ => id) (fun _ _ => id) (fun _ => id) ?_ ?_
  · refine judge_sysSbrk (tablesSame_guards s) hDir hMaps fun s₁ s' _ hNot hTable _ hFailed => ?_
    exact hNot (.inr (hTable.symm.trans hFailed.2.table))
  · refine judge_sysSbrk (foundJudge_guards _) hDir hMaps fun s₁ s' hMay hNot hTable hUnharmed => ⟨rfl, hUnharmed ?_⟩
    exact hTable.trans (hMay.resolve_left hNot)

end Growing

end Calls

end Xv6Rpi.Process
