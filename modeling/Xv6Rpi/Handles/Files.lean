import Xv6Rpi.Handles.Rules

/-! # Open files

The rules for the functions of file.c that change the file table. Closing a file gives its process what the file
stood for, a reference to an inode or the end of a pipe, and that is dropped next.
-/

namespace Xv6Rpi.Handles

open Fs (Kern FsM File ProcFiles nfile nofile ninode)
open Pipes (Pipe Side)
open Prog Sharing
open Sched (Ptable Slot ProcState)

def putFile (w : World) (f : Nat) (ff : File) (pi : Option Nat) : World :=
  { w with fs := Fs.setFile w.fs f ff, pipeOf := Function.update w.pipeOf f pi }

section PutFile

variable {w : World} {g : Slot → Share} {p q : Slot} {f : Nat} {ff : File} {pi : Option Nat} {y y' z : Share}

theorem setFs_setFile (w : World) (f : Nat) (ff : File) : setFs (Fs.setFile w.fs f ff) w = putFile w f ff (w.pipeOf f) := by
  rw [putFile, Function.update_eq_self]
  rfl

theorem putFile_file : (putFile w f ff pi).fs.file f = ff := Function.update_self ..

theorem putFile_pipe : (putFile w f ff pi).pipeOf f = pi := Function.update_self ..

theorem putFile_set (w : World) (f : Nat) (ff : File) (pi : Option Nat) : SetFile w (putFile w f ff pi) f :=
  ⟨fun _ hNe => Function.update_of_ne hNe .., fun _ hNe => Function.update_of_ne hNe ..⟩

theorem KnowsInv.putFile (h : KnowsInv w z) (hMade : f ∉ z.made) (hPipe : f ∈ z.files → pi = w.pipeOf f) :
    KnowsInv (putFile w f ff pi) z := by
  refine h.congr (fun f' hf' => ?_) fun f' hf' => ?_
  · have hNe : f' ≠ f := fun hEq => hMade (hEq ▸ hf')
    rw [(putFile_set w f ff pi).file f' hNe]
    exact ⟨rfl, rfl⟩
  · by_cases hEq : f' = f
    · rw [hEq] at hf' ⊢
      rw [putFile_pipe, hPipe hf']
    · exact (putFile_set w f ff pi).pipe f' hEq

theorem Owned.putFile (h : Owned w g) (hg : g p = y) (hf : f < nfile) (hCalling : y.calling = true) (hCalling' : y'.calling = true)
    (hSlots : y'.slots = y.slots) (hChild : y'.child = y.child) (hFrees : y'.frees = y.frees)
    (hFiles : ∀ f', f' ≠ f → y'.files.count f' = y.files.count f')
    (hRef : ff.ref + y.files.count f = (w.fs.file f).ref + y'.files.count f)
    (hUnused : ff.ref = 0 → ff.type = .none ∧ pi = none) (hPipe : pi ≠ none → ff.type = .none)
    (hInodes : inodeOf ff + y'.inodes = inodeOf (w.fs.file f) + y.inodes)
    (hEnds : endOf ff pi + y'.ends = endOf (w.fs.file f) (w.pipeOf f) + y.ends)
    (hMine : KnowsInv (putFile w f ff pi) y') (hTheirs : ∀ q, q ≠ p → KnowsInv (Handles.putFile w f ff pi) (g q)) :
    Owned (Handles.putFile w f ff pi) (Function.update g p y') := by
  have hSet := putFile_set w f ff pi
  have hAllFiles := all_update Share.files g p y'
  rw [hg] at hAllFiles
  have hCount : ∀ f', (all Share.files (Function.update g p y')).count f' + y.files.count f' =
      (all Share.files g).count f' + y'.files.count f' := fun f' => by
    rw [← Multiset.count_add, hAllFiles, Multiset.count_add]
  have hSame : fileInodes (Handles.putFile w f ff pi) + all Share.inodes (Function.update g p y') =
      fileInodes w + all Share.inodes g := by
    have hFs := hSet.inodes hf
    have hAll := all_update Share.inodes g p y'
    rw [hg] at hAll
    rw [putFile_file] at hFs
    refine add_right_cancel (b := inodeOf (w.fs.file f) + y.inodes) ?_
    calc fileInodes (Handles.putFile w f ff pi) + all Share.inodes (Function.update g p y') + (inodeOf (w.fs.file f) + y.inodes)
        = (fileInodes (Handles.putFile w f ff pi) + inodeOf (w.fs.file f)) +
          (all Share.inodes (Function.update g p y') + y.inodes) := by abel
      _ = fileInodes w + all Share.inodes g + (inodeOf ff + y'.inodes) := by rw [hFs, hAll]; abel
      _ = fileInodes w + all Share.inodes g + (inodeOf (w.fs.file f) + y.inodes) := by rw [hInodes]
  have hSameEnds : fileEnds (Handles.putFile w f ff pi) + all Share.ends (Function.update g p y') =
      fileEnds w + all Share.ends g := by
    have hFs := hSet.ends hf
    have hAll := all_update Share.ends g p y'
    rw [hg] at hAll
    rw [putFile_file, putFile_pipe] at hFs
    refine add_right_cancel (b := endOf (w.fs.file f) (w.pipeOf f) + y.ends) ?_
    calc fileEnds (Handles.putFile w f ff pi) + all Share.ends (Function.update g p y') + (endOf (w.fs.file f) (w.pipeOf f) + y.ends)
        = (fileEnds (Handles.putFile w f ff pi) + endOf (w.fs.file f) (w.pipeOf f)) +
          (all Share.ends (Function.update g p y') + y.ends) := by abel
      _ = fileEnds w + all Share.ends g + (endOf ff pi + y'.ends) := by rw [hFs, hAll]; abel
      _ = fileEnds w + all Share.ends g + (endOf (w.fs.file f) (w.pipeOf f) + y.ends) := by rw [hEnds]
  refine ⟨?_, ?_, ?_, ?_, ?_⟩
  · refine hSet.filesInv h.files hf (fun f' hf' => ?_) ?_ ?_ ?_
    · have hThis := hCount f'
      rw [hFiles f' hf'] at hThis
      omega
    · have hThis := hCount f
      have hWas := h.files.ref f
      rw [putFile_file]
      omega
    · rw [putFile_file, putFile_pipe]
      exact hUnused
    · rw [putFile_file, putFile_pipe]
      exact hPipe
  · rw [hSame]
    exact h.inodes.congr rfl
  · rw [hSameEnds, all_same (show y'.frees = (g p).frees by rw [hg, hFrees])]
    exact h.pipes.congr rfl
  · have hProcs : ProcsInv (Handles.putFile w f ff pi) g := h.procs.congr rfl rfl
    exact hProcs.update (by rw [hg]; exact hCalling) hCalling' (by rw [hg, hSlots]) (by rw [hg, hChild])
  · exact knows_update hTheirs hMine

end PutFile

section Rules

variable {P : Share → Prop} {p : Slot} {y : Share} {f : Nat} {m : Multiset Nat}

theorem KnowsInv.more {w : World} (h : KnowsInv w y) (f : Nat) : KnowsInv w { y with files := f ::ₘ y.files } where
  made f' hf' := ⟨Multiset.mem_cons_of_mem (h.made f' hf').1, (h.made f' hf').2⟩
  uses f' pi hf' := ⟨Multiset.mem_cons_of_mem (h.uses f' pi hf').1, (h.uses f' pi hf').2⟩

theorem Owned.notMem_of_unused {w : World} {g : Slot → Share} (h : Owned w g) (hRef : (w.fs.file f).ref = 0) (q : Slot) :
    f ∉ (g q).files := by
  intro hq
  have hPos := Multiset.count_pos.mpr (mem_all hq)
  rw [← h.files.ref f, hRef] at hPos
  exact absurd hPos (lt_irrefl 0)

theorem Owned.notMem_made {w : World} {g : Slot → Share} (h : Owned w g) (hp : f ∈ (g p).files) {q : Slot} (hNe : q ≠ p) :
    f ∉ (g q).made := by
  intro hq
  obtain ⟨hIn, hRef, -⟩ := (h.knows q).made f hq
  exact h.only hRef hIn hNe.symm hp

theorem does_filealloc (hP : P y) (hCalling : y.calling = true) {Q : Option Nat → Share → Prop} (hNone : Q none y)
    (hSome : ∀ f, f ∉ y.files → Q (some f) { y with files := f ::ₘ y.files, made := insert f y.made }) :
    Does P p (onFs Fs.filealloc) y Q := by
  refine does_fsAct hP hCalling fun w g a s h hg hEq => ?_
  cases hFind : (List.range nfile).find? fun f => (w.fs.file f).ref == 0 with
  | none =>
    rw [hFind] at hEq
    cases hEq
    exact ⟨g, h, .refl p g, by rw [hg]; exact hNone⟩
  | some f =>
    rw [hFind] at hEq
    cases hEq
    have hf : f < nfile := List.mem_range.mp (List.mem_of_find?_eq_some hFind)
    have hRef := List.find?_some hFind
    rw [beq_iff_eq] at hRef
    obtain ⟨hType, hPipe⟩ := h.files.unused f hRef
    have hNot : ∀ q, f ∉ (g q).files := h.notMem_of_unused hRef
    let ff : File := { w.fs.file f with ref := 1 }
    have hKeep : ∀ q, KnowsInv (putFile w f ff (w.pipeOf f)) (g q) := fun q =>
      (h.knows q).putFile (fun hq => hNot q ((h.knows q).made f hq).1) fun _ => rfl
    let y' : Share := { y with files := f ::ₘ y.files, made := insert f y.made }
    have hMine : KnowsInv (putFile w f ff (w.pipeOf f)) y' := by
      have hOld := (hKeep p).more f
      rw [hg] at hOld
      refine ⟨fun f' hf' => ?_, hOld.uses⟩
      rcases Set.mem_insert_iff.mp hf' with hEq | hIn
      · rw [hEq, putFile_file, putFile_pipe]
        exact ⟨Multiset.mem_cons_self f y.files, rfl, hType, hPipe⟩
      · exact hOld.made f' hIn
    have hCount : ff.ref + y.files.count f = (w.fs.file f).ref + y'.files.count f := by
      have hCons : y'.files.count f = y.files.count f + 1 := Multiset.count_cons_self f y.files
      have hOne : ff.ref = 1 := rfl
      rw [hRef, hCons, hOne]
      omega
    have hOwned : Owned (putFile w f ff (w.pipeOf f)) (Function.update g p y') := h.putFile hg hf hCalling hCalling rfl rfl rfl
      (fun f' hf' => Multiset.count_cons_of_ne hf' y.files) hCount (fun hZero => absurd hZero one_ne_zero)
      (fun hNe => absurd hPipe hNe) rfl rfl hMine fun q _ => hKeep q
    rw [setFs_setFile]
    refine ⟨_, hOwned, others_update p g _, ?_⟩
    rw [Function.update_self]
    exact hSome f (hg ▸ hNot p)

theorem does_filedup (hP : P y) (hCalling : y.calling = true) (hf : f ∈ y.files) (hMade : f ∉ y.made) {Q : Nat → Share → Prop}
    (hQ : Q f { y with files := f ::ₘ y.files }) : Does P p (onFs (Fs.filedup f)) y Q := by
  refine does_fsAct hP hCalling fun w g a s h hg hEq => ?_
  by_cases hRef : (w.fs.file f).ref < 1
  · rw [if_pos hRef] at hEq
    cases hEq
  · rw [if_neg hRef] at hEq
    cases hEq
    have hIn : f ∈ (g p).files := by rwa [hg]
    let ff : File := { w.fs.file f with ref := (w.fs.file f).ref + 1 }
    have hOld : KnowsInv (putFile w f ff (w.pipeOf f)) (g p) :=
      (h.knows p).putFile (by rwa [hg]) fun _ => rfl
    let y' : Share := { y with files := f ::ₘ y.files }
    have hMine := hOld.more f
    rw [hg] at hMine
    have hCount : ff.ref + y.files.count f = (w.fs.file f).ref + y'.files.count f := by
      have hCons : y'.files.count f = y.files.count f + 1 := Multiset.count_cons_self f y.files
      have hMore : ff.ref = (w.fs.file f).ref + 1 := rfl
      rw [hMore, hCons]
      omega
    have hOwned : Owned (putFile w f ff (w.pipeOf f)) (Function.update g p y') := h.putFile hg (h.files.lt f (mem_all hIn)) hCalling
      hCalling rfl rfl rfl (fun f' hf' => Multiset.count_cons_of_ne hf' y.files) hCount
      (fun hZero => absurd hZero (Nat.succ_ne_zero _)) (h.files.pipe f) rfl rfl hMine
      fun q hq => (h.knows q).putFile (h.notMem_made hIn hq) fun _ => rfl
    rw [setFs_setFile]
    refine ⟨_, hOwned, others_update p g _, ?_⟩
    rw [Function.update_self]
    exact hQ

/-- What remains to a process after it has given up the file `f`. -/
theorem KnowsInv.less {w : World} (h : KnowsInv w y) (hf : y.files = f ::ₘ m) (hUses : y.uses = none) (made : Set Nat)
    (hMade : ∀ f' ∈ made, f' ∈ y.made ∧ f' ≠ f) : KnowsInv w { y with files := m, made := made } := by
  refine ⟨fun f' hf' => ?_, fun f' pi hf' => ?_⟩
  · obtain ⟨hIn, hNe⟩ := hMade f' hf'
    obtain ⟨hMem, hKnows⟩ := h.made f' hIn
    rw [hf] at hMem
    exact ⟨(Multiset.mem_cons.mp hMem).resolve_left hNe, hKnows⟩
  · have hNone : y.uses = some (f', pi) := hf'
    rw [hUses] at hNone
    cases hNone

/-- A reference to a file is given up; for the last one the process gets what the file stood for. -/
theorem does_closing (hP : P y) (hCalling : y.calling = true) (hf : y.files = f ::ₘ m) (hUses : y.uses = none)
    {Q : Option (File × Option Nat) → Share → Prop} (hMore : f ∉ y.made → Q none { y with files := m })
    (hPipe : ∀ ff pi, Q (some (ff, some pi)) { y with files := m, made := y.made \ {f}, ends := (pi, sideOf ff) ::ₘ y.ends })
    (hNone : ∀ ff : File, ff.type = .none → Q (some (ff, none)) { y with files := m, made := y.made \ {f} })
    (hInode : ∀ ff : File, ff.type = .inode → Q (some (ff, none)) { y with files := m, made := y.made \ {f}, inodes := ff.ip ::ₘ y.inodes }) :
    Does P p (act fun w =>
      if (w.fs.file f).ref < 1 then .error (.stop (.panic .fileclose))
      else if 0 < (w.fs.file f).ref - 1 then
        .ok (none, setFs (Fs.setFile w.fs f { w.fs.file f with ref := (w.fs.file f).ref - 1 }) w)
      else .ok (some (w.fs.file f, w.pipeOf f), { w with
        fs := Fs.setFile w.fs f { w.fs.file f with ref := 0, type := .none }
        pipeOf := Function.update w.pipeOf f none })) y Q := by
  refine does_act hP hCalling fun w g h hg => ?_
  have hIn : f ∈ (g p).files := by
    rw [hg, hf]
    exact Multiset.mem_cons_self f m
  have hLt : f < nfile := h.files.lt f (mem_all hIn)
  have hPos := Multiset.count_pos.mpr (mem_all hIn)
  have hRef := h.files.ref f
  have hCons : y.files.count f = m.count f + 1 := by rw [hf, Multiset.count_cons_self]
  have hOthers : ∀ f', f' ≠ f → m.count f' = y.files.count f' := fun f' hf' => by rw [hf, Multiset.count_cons_of_ne hf']
  have hKnows := h.knows p
  rw [hg] at hKnows
  rw [if_neg (by omega)]
  by_cases hLast : 0 < (w.fs.file f).ref - 1
  · rw [if_pos hLast]
    have hNot : f ∉ y.made := fun hMade => by
      have hOne := (hKnows.made f hMade).2.1
      omega
    let ff : File := { w.fs.file f with ref := (w.fs.file f).ref - 1 }
    let y' : Share := { y with files := m }
    have hOwned : Owned (putFile w f ff (w.pipeOf f)) (Function.update g p y') := by
      refine h.putFile hg hLt hCalling hCalling rfl rfl rfl hOthers ?_ (fun hZero => absurd hZero hLast.ne') (h.files.pipe f) rfl rfl
        ?_ fun q hq => (h.knows q).putFile (h.notMem_made hIn hq) fun _ => rfl
      · have hLess : ff.ref = (w.fs.file f).ref - 1 := rfl
        have hm : y'.files = m := rfl
        rw [hLess, hm, hCons]
        omega
      · exact (hKnows.putFile hNot fun _ => rfl).less hf hUses y.made fun f' hf' => ⟨hf', fun hEq => hNot (hEq ▸ hf')⟩
    dsimp only
    rw [setFs_setFile]
    refine ⟨_, hOwned, others_update p g _, ?_⟩
    rw [Function.update_self]
    exact hMore hNot
  · rw [if_neg hLast]
    have hOne : (w.fs.file f).ref = 1 := by omega
    let ff : File := { w.fs.file f with ref := 0, type := .none }
    let y' : Share := { y with
      files := m, made := y.made \ {f}, inodes := inodeOf (w.fs.file f) + y.inodes, ends := endOf (w.fs.file f) (w.pipeOf f) + y.ends }
    have hOnly : ∀ q, q ≠ p → f ∉ (g q).files := fun q hq => h.only hOne hIn hq
    have hOwned : Owned (putFile w f ff none) (Function.update g p y') := by
      refine h.putFile hg hLt hCalling hCalling rfl rfl rfl hOthers ?_ (fun _ => ⟨rfl, rfl⟩) (fun hNe => absurd rfl hNe)
        (zero_add _) (zero_add _) ?_ fun q hq => (h.knows q).putFile (fun hMade => hOnly q hq ((h.knows q).made f hMade).1)
          fun hMem => absurd hMem (hOnly q hq)
      · have hZero : ff.ref = 0 := rfl
        have hm : y'.files = m := rfl
        rw [hZero, hm, hCons]
        omega
      · have hNot : f ∉ m := fun hm => by
          have hTwo := Multiset.count_pos.mpr hm
          have hLe := count_le_all Share.files g p f
          rw [hg] at hLe
          omega
        have hLess := hKnows.less hf hUses (y.made \ {f}) fun f' hf' => ⟨hf'.1, hf'.2⟩
        have hPut : KnowsInv (putFile w f ff none) { y with files := m, made := y.made \ {f} } :=
          hLess.putFile (fun hMem => hMem.2 rfl) fun hMem => absurd hMem hNot
        exact ⟨hPut.made, hPut.uses⟩
    refine ⟨_, hOwned, others_update p g _, ?_⟩
    rw [Function.update_self]
    cases hPi : w.pipeOf f with
    | some pi =>
      have hType : (w.fs.file f).type = .none := h.files.pipe f (by rw [hPi]; exact Option.some_ne_none pi)
      have hEq : y' = { y with files := m, made := y.made \ {f}, ends := (pi, sideOf (w.fs.file f)) ::ₘ y.ends } := by
        simp only [y', hPi, inodeOf, hType, reduceCtorEq, if_false, zero_add, endOf, Option.elim_some, Multiset.singleton_add]
      rw [hEq]
      exact hPipe _ pi
    | none =>
      cases hType : (w.fs.file f).type with
      | none =>
        have hEq : y' = { y with files := m, made := y.made \ {f} } := by
          simp only [y', hPi, inodeOf, hType, reduceCtorEq, if_false, zero_add, endOf, Option.elim_none]
        rw [hEq]
        exact hNone _ hType
      | inode =>
        have hEq : y' = { y with files := m, made := y.made \ {f}, inodes := (w.fs.file f).ip ::ₘ y.inodes } := by
          simp only [y', hPi, inodeOf, hType, if_true, zero_add, endOf, Option.elim_none, Multiset.singleton_add]
        rw [hEq]
        exact hInode _ hType

end Rules

end Xv6Rpi.Handles
