import Xv6Rpi.Process.Image

/-! # What exec leaves behind

An `exec` that fails leaves the process as it was, one that succeeds leaves it with the argument
stack, and it panics exactly if a segment or an argument does not fit, or a page table is not found.
-/

namespace Xv6Rpi.Process

open Prog Sched Uvm

section Fetch

variable {w : Watch} {s : Kernel} {p : Slot}

theorem userStr_length {m : Mem} {d va left : Nat} {str : List UInt8} (h : userStr m d va left = some (some str)) :
    str.length < left := by
  induction left generalizing va str with
  | zero => cases h
  | succ left ih =>
    rw [userStr] at h
    obtain ⟨c, -, h⟩ := Option.bind_eq_some_iff.mp h
    split_ifs at h with hZero
    · obtain rfl := Option.some.inj (Option.some.inj h)
      exact Nat.succ_pos left
    · obtain ⟨rest, hRest, h⟩ := Option.bind_eq_some_iff.mp h
      obtain ⟨str', rfl, rfl⟩ := Option.map_eq_some_iff.mp (Option.some.inj h)
      have hLt := ih hRest
      rw [List.length_cons]
      omega

theorem judge_fetchstr (hFits : ¬w.fits) {addr : Nat} {Q B : Option (List UInt8) → Kernel → Prop}
    (hQ : ∀ r, (∀ str, r = some str → str.length < s.sz p) → Q r s) : judge w.judge (fetchstr p addr) Q B s := by
  apply w.guards.judge_act
  by_cases hAddr : s.sz p ≤ addr
  · rw [if_pos hAddr]
    exact hQ none fun str hNone => by cases hNone
  · rw [if_neg hAddr]
    cases hStr : userStr s.mem (s.pgdir p) addr (s.sz p - addr) with
    | none => exact hFits
    | some r =>
      refine hQ r fun str hSome => ?_
      rw [hSome] at hStr
      exact (userStr_length hStr).trans_le (Nat.sub_le _ _)

theorem judge_fetchint (hFits : ¬w.fits) {addr : Nat} {Q B : Option Nat → Kernel → Prop} (hQ : ∀ r, Q r s) :
    judge w.judge (fetchint p addr) Q B s := by
  apply w.guards.judge_act
  by_cases hAddr : s.sz p ≤ addr ∨ s.sz p < (addr + 4) % 2 ^ 32
  · rw [if_pos hAddr]
    exact hQ none
  · rw [if_neg hAddr]
    cases userBytes s.mem (s.pgdir p) addr 4 with
    | none => exact hFits
    | some b => exact hQ _

theorem judge_fetchArgv (hFits : ¬w.fits) (left : Nat) {uargv : Nat} {Q B : Option (List (List UInt8)) → Kernel → Prop}
    (hQ : ∀ r, (∀ argv, r = some argv → ∀ str ∈ argv, str.length < s.sz p) → Q r s) :
    judge w.judge (fetchArgv p left uargv) Q B s := by
  induction left generalizing uargv Q B with
  | zero => exact judge_pure (hQ none fun argv hNone => by cases hNone)
  | succ left ih =>
    rw [fetchArgv]
    apply judge_bind
    apply judge_fetchint hFits
    intro r
    cases r with
    | none => exact judge_pure (hQ none fun argv hNone => by cases hNone)
    | some uarg =>
      dsimp only
      split_ifs with hZero
      · refine judge_pure (hQ _ fun argv hSome => ?_)
        obtain rfl := Option.some.inj hSome
        exact fun str hMem => absurd hMem List.not_mem_nil
      · apply judge_bind
        apply judge_fetchstr hFits
        intro r hStr
        cases r with
        | none => exact judge_pure (hQ none fun argv hNone => by cases hNone)
        | some str =>
          apply judge_bind
          apply ih
          intro rest hRest
          refine judge_pure (hQ _ fun argv hSome => ?_)
          obtain ⟨argv', hArgv, rfl⟩ := Option.map_eq_some_iff.mp hSome
          intro x hx
          obtain rfl | hx := List.mem_cons.mp hx
          · exact hStr x rfl
          · exact hRest argv' hArgv x hx

variable {T₀ : Nat → Option Nat} {P₀ : Nat → Option (Nat × Nat)}

theorem judge_sysExec (hFits : ¬w.fits) {header : List UInt8} (hOld : Dir s.mem (s.pgdir p) T₀ P₀)
    (hMaps : ∀ k, P₀ k ≠ none ↔ k < pages (s.sz p)) {Q B : Int → Kernel → Prop}
    (hDone : ∀ s' argv K v off l, Started s s' p argv K v off l → Q 0 s')
    (hFail : ∀ s', Kept s s' p → w.array ∨ s'.user = s.user → Q (-1) s')
    (hWrong : w.pages → ∀ s', Kept s s' p → s'.user = s.user → B (-1) s') :
    judge w.judge (sysExec p header) Q B s := by
  have hSize := maps_le hOld hMaps
  have hFirst : Q (-1) s := hFail s (.of_same (.refl s) (.refl _)) (.inr rfl)
  rw [sysExec]
  apply judge_bind
  apply w.guards.judge_getK
  apply judge_bind
  apply judge_fetchstr hFits
  intro r _
  cases r with
  | none => exact judge_pure hFirst
  | some path =>
    apply judge_bind
    apply judge_fetchArgv hFits
    intro r hArgv
    cases r with
    | none => exact judge_pure hFirst
    | some argv =>
      refine judge_exec hOld (solid_of_pages hMaps npages) (fun str hStr => ?_) (fun s' => hDone s' argv) hFail hWrong
      exact (hArgv argv rfl str hStr).trans_le hSize

end Fetch

section Failure

variable {s s' : Kernel} {p : Slot} {header : List UInt8}

/-- The caller has its page directory, size, name and memory, its open files and its current
directory as before, and all registers but `r0` and `r1`. -/
structure Unseen (s s' : Kernel) (p : Slot) : Prop where
  pgdir : s'.pgdir p = s.pgdir p
  size : s'.sz p = s.sz p
  name : (s'.user p).name = (s.user p).name
  maps : ∀ va, translate s'.mem (s'.pgdir p) va = translate s.mem (s.pgdir p) va
  memory : ∀ va, userByte s'.mem (s'.pgdir p) va = userByte s.mem (s.pgdir p) va
  file : s'.fs.file = s.fs.file
  proc : s'.fs.proc = s.fs.proc
  tf : ∃ r, (s'.user p).tf = { (s.user p).tf with r := r } ∧ ∀ i, i ≠ 0 → i ≠ 1 → r i = (s.user p).tf.r i

/-- Where everything has been given back, the process finds at its addresses what was there. -/
theorem userByte_restored {T : Nat → Option Nat} {P : Nat → Option (Nat × Nat)} (hDir : Dir s.mem (s.pgdir p) T P)
    (hPgdir : s'.pgdir p = s.pgdir p) (hMem : Restored s.mem s'.mem) (va : Nat) :
    translate s'.mem (s'.pgdir p) va = translate s.mem (s.pgdir p) va ∧
      userByte s'.mem (s'.pgdir p) va = userByte s.mem (s.pgdir p) va := by
  have hMaps : translate s'.mem (s'.pgdir p) va = translate s.mem (s.pgdir p) va := by
    rw [hPgdir, (hMem.dir hDir).translate, hDir.translate]
  refine ⟨hMaps, ?_⟩
  rw [userByte, hMaps, userByte]
  cases hVa : translate s.mem (s.pgdir p) va with
  | none => rfl
  | some q =>
    obtain ⟨v, ap⟩ := q
    rw [hDir.translate] at hVa
    rw [Option.map_some, Option.map_some, hMem.byte v (hDir.pageUsed ⟨_, _, hVa⟩).used]

theorem Kept.unseen (h : Kept s s' p) (hDir : IsDir s.mem (s.pgdir p)) : Unseen s s' p := by
  obtain ⟨T, P, hDir⟩ := hDir
  obtain ⟨r, hUser, hRest⟩ := h.user
  have hPgdir : s'.pgdir p = s.pgdir p := by rw [Kernel.pgdir, h.tbl, Kernel.pgdir]
  have hOwn : s'.user p = { s.user p with tf := { (s.user p).tf with r := r } } := by
    rw [hUser, Function.update_self]
  constructor
  · exact hPgdir
  · rw [Kernel.sz, hOwn, Kernel.sz]
  · rw [hOwn]
  · exact fun va => (userByte_restored hDir hPgdir h.mem va).1
  · exact fun va => (userByte_restored hDir hPgdir h.mem va).2
  · exact congrArg Prod.fst h.files
  · exact congrArg (fun q => q.2.1) h.files
  · exact ⟨r, by rw [hOwn], hRest⟩

/-- An `exec` that fails before it copies the argument array leaves all registers of its caller
as they were, `r0` with the number of the call too; and wherever it fails, the caller has
everything else as before. -/
theorem exec_failure_unseen (others : Nat → KernM Int) (hDir : IsDir s.mem (s.pgdir p))
    (hMaps : Maps s.mem (s.pgdir p) (s.sz p)) (hNum : (s.user p).tf.r 0 = sysExecNum)
    (hRun : (sysExec p header).run s = .ok (-1, s')) :
    (syscall others p header).run s = .ok ((), s') ∧ Unseen s s' p ∧
      ((sysExec p header).along (fun l _ => l ≠ .ustack) s → (s'.user p).tf = (s.user p).tf) := by
  obtain ⟨T, P, hOld⟩ := hDir
  have hPages := hOld.maps_iff.mp hMaps
  refine ⟨?_, ?_, ?_⟩
  · have hCall : (syscall others p header).run s = (sysExec p header >>= fun _ => Pure.pure ()).run s := by
      rw [syscall, run_bind]
      change (ite ((s.user p).tf.r 0 = sysExecNum) _ _ : KernM Unit).run s = _
      rw [if_pos hNum]
    rw [hCall, run_bind, hRun]
    rfl
  · have hJudge : judge (Watch.judge ⟨False, False, False, True⟩) (sysExec p header)
        (fun r s' => r = -1 → Kept s s' p) (fun _ _ => False) s :=
      judge_sysExec id hOld hPages (fun s' argv K v off l _ hFalse => absurd hFalse (by decide)) (fun s' hKept _ _ => hKept)
        False.elim
    have hMay : (sysExec p header).along (Watch.judge ⟨False, False, False, True⟩).may s :=
      along_of_forall fun l s => by cases l <;> trivial
    exact ((judge_run hJudge hMay hRun).resolve_right id rfl).unseen ⟨T, P, hOld⟩
  · intro hAlong
    have hJudge : judge (Watch.judge ⟨False, False, False, False⟩) (sysExec p header)
        (fun r s' => r = -1 → s'.user = s.user) (fun _ _ => False) s :=
      judge_sysExec id hOld hPages (fun s' argv K v off l _ hFalse => absurd hFalse (by decide))
        (fun s' _ hUser _ => hUser.resolve_left id) False.elim
    have hMay : (sysExec p header).along (Watch.judge ⟨False, False, False, False⟩).may s := by
      refine along_mono (fun l s hNe => ?_) hAlong
      cases l with
      | ustack => exact hNe rfl
      | _ => trivial
    rw [(judge_run hJudge hMay hRun).resolve_right id rfl]

/-- A file system whose root directory, the current directory, has one entry, the file `a`. -/
def fileFs (file : List UInt8) : Fs.Kern where
  disk b j := if b = 10 then (Fs.encodeDirent 2 [97]).getD j 0 else if b = 11 then file.getD j 0 else 0
  held _ := false
  log := ⟨0, 0, false, 0, fun _ => 0⟩
  inode i :=
    if i = 0 then ⟨1, 1, false, true, ⟨Fs.tDir, 0, 0, 1, 16, fun _ => 10⟩⟩
    else if i = 1 then ⟨2, 1, false, true, ⟨Fs.tFile, 0, 0, 1, file.length, fun _ => 11⟩⟩
    else ⟨0, 0, false, false, Fs.Dinode.zero⟩
  file _ := ⟨.none, 0, false, false, 0, 0⟩
  proc _ := ⟨fun _ => none, some 0⟩
  devsw _ := none

def elfHeader (phnum : UInt8) : List UInt8 :=
  wordBytes [Fs.elfMagic] ++ List.replicate 24 0 ++ wordBytes [52] ++ List.replicate 12 0 ++ [phnum] ++ List.replicate 7 0

/-- The process of `oneProcess`, which calls `exec`, with a file; its memory is all zeros, so
that its arguments are the empty path and no strings. -/
def withFile (file : List UInt8) (l : List Nat) : Kernel where
  __ := oneProcess l
  fs := fileFs file
  user _ := ⟨pteSz, ⟨0, 0, 0, 0, fun i => if i = 0 then sysExecNum else 0, 0⟩, []⟩

theorem withFile_dir (file : List UInt8) (l : List Nat) : IsDir (withFile file l).mem ((withFile file l).pgdir 0) :=
  oneProcess_dir l

theorem withFile_maps (file : List UInt8) (l : List Nat) :
    Maps (withFile file l).mem ((withFile file l).pgdir 0) ((withFile file l).sz 0) := oneProcess_maps l

theorem sysExec_dir_run : ∃ s', (sysExec 0 []).run (withFile [] []) = .ok (-1, s') ∧ (s'.user 0).tf.r 0 = sysExecNum := by
  have hResult : ((sysExec 0 []).run (withFile [] [])).toOption.map (fun r => (r.1, (r.2.user 0).tf.r 0)) =
      some (-1, sysExecNum) := by decide +kernel
  obtain ⟨⟨r, s'⟩, hRun, hEq⟩ := Option.map_eq_some_iff.mp hResult
  obtain ⟨rfl, hNum⟩ := Prod.mk.inj hEq
  exact ⟨s', toOption_eq_some.mp hRun, hNum⟩

def twoPages : List UInt8 := elfHeader 1 ++ wordBytes [elfProgLoad, 84, 0, 0, 4, 5000, 0, 0] ++ [1, 2, 3, 4]

def imagePages : List Nat := [0x8001A000, 0x80202000, 0x8001B000, 0x80203000, 0x80204000, 0x80205000]

/-- The process that calls `exec` with the path `a`, which lies at 100, and without arguments. -/
def execProcess (l : List Nat) : Kernel where
  __ := withFile twoPages l
  mem := (onePage l).store 0x80200000 100 [97]
  user _ := ⟨pteSz, ⟨0, 0, 0, 0, ![sysExecNum, 100, 200, 0, 0, 0, 0, 0, 0, 0, 0, 0, 0], 0⟩, []⟩

theorem execProcess_dir (l : List Nat) : Dir (execProcess l).mem ((execProcess l).pgdir 0) onePageTables onePagePages :=
  ((onePage_dir l).store ⟨0, apKu, Function.update_self ..⟩ 100 [97]).1

/-- The segment has been loaded when there are no pages for the stack. -/
theorem exec_failure_unseen_no_stack : ∃ s',
    (syscall (fun _ => Pure.pure 0) 0 []).run (execProcess (imagePages.take 4)) = .ok ((), s') ∧
      Unseen (execProcess (imagePages.take 4)) s' 0 ∧ (s'.user 0).tf = ((execProcess (imagePages.take 4)).user 0).tf := by
  have hResult : ((sysExec 0 []).run (execProcess (imagePages.take 4))).toOption.map Prod.fst = some (-1) := by
    decide +kernel
  obtain ⟨⟨r, s'⟩, hRun, rfl⟩ := Option.map_eq_some_iff.mp hResult
  rw [toOption_eq_some] at hRun
  obtain ⟨hCall, hUnseen, hRegs⟩ := exec_failure_unseen (fun _ => Pure.pure 0) ⟨_, _, execProcess_dir _⟩
    ((execProcess_dir _).maps_iff.mpr onePage_maps) rfl hRun
  exact ⟨s', hCall, hUnseen, hRegs (by decide +kernel)⟩

/-- The process does not see -1 in `r0`. -/
theorem exec_failure_seen : IsDir (withFile [] []).mem ((withFile [] []).pgdir 0) ∧
    Maps (withFile [] []).mem ((withFile [] []).pgdir 0) ((withFile [] []).sz 0) ∧
    ∃ s', (sysExec 0 []).run (withFile [] []) = .ok (-1, s') ∧
      (syscall (fun _ => Pure.pure 0) 0 []).run (withFile [] []) = .ok ((), s') ∧
        (s'.user 0).tf.r 0 ≠ (BitVec.ofInt 32 (-1)).toNat := by
  obtain ⟨s', hRun, hNum⟩ := sysExec_dir_run
  refine ⟨withFile_dir _ _, withFile_maps _ _, s', hRun, ?_, ?_⟩
  · have hCall : (syscall (fun _ => Pure.pure 0) 0 []).run (withFile [] []) =
        (sysExec 0 [] >>= fun _ => Pure.pure ()).run (withFile [] []) := rfl
    rw [hCall, run_bind, hRun]
    rfl
  · rw [hNum]
    decide

end Failure

section Survival

variable {s s' : Kernel} {p : Slot} {path header : List UInt8} {argv : List (List UInt8)}

/-- No panic, no access outside of a page directory, and every segment is read to pages that
have been allocated for the image. What the file system stops with is left aside. -/
structure Survives (x : KernM Int) (s : Kernel) : Prop where
  panics : ∀ e, x.run s ≠ .error (.panic e)
  loads : x.along Inside s

def unaligned : List UInt8 := elfHeader 1 ++ wordBytes [elfProgLoad, 0, 1, 0, 0, 16, 0, 0]

end Survival

end Xv6Rpi.Process
