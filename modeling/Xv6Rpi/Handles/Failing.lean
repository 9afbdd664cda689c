import Xv6Rpi.Fs.Failing
import Xv6Rpi.Handles.Dirs

/-! # What a failed call leaves behind

A call that returns -1 has given back the files, descriptors, pipes, inodes and slots that it took. `write` may have written some
of its bytes, and `open` may have made the file that it cannot open.
-/

namespace Xv6Rpi.Handles

open Fs (Kern FsM File LowBits Geom Fit Spares Failed rootino nfile nofile)
open Pipes (Pipe Side)
open Prog
open Sched (Ptable Slot ProcState)

/-- What was in use before the call is as it was, and nothing else has come into use. -/
structure Undone (sb : Fs.Superblock) (w w' : World) : Prop where
  ref : ∀ f, (w'.fs.file f).ref = (w.fs.file f).ref
  file : ∀ f, (w.fs.file f).ref ≠ 0 → w'.fs.file f = w.fs.file f ∧ w'.pipeOf f = w.pipeOf f
  proc : w'.fs.proc = w.fs.proc
  pipe : w'.pipe = w.pipe
  state : ∀ q, (w'.tbl.proc q).state = (w.tbl.proc q).state
  slot : ∀ q, (w.tbl.proc q).state ≠ .unused → w'.tbl.proc q = w.tbl.proc q
  inum : ∀ j ∈ worldRefs w, (w'.fs.inode j).inum = (w.fs.inode j).inum
  files : ∀ k < sb.ninodes, Fs.Needed (worldRefs w) w.fs k → Fs.files w'.fs k = Fs.files w.fs k

/-- The calls that are undone when they fail. The result of `fork` and of `wait` is a pid, which must not be -1 itself. -/
def Undoes (w : World) : Call → Prop
  | .write _ _ => False
  | .open _ omode => Fs.oCreate omode = false
  | .fork _ _ => w.tbl.nextpid.toInt ≠ -1
  | .wait => ∀ q, (w.tbl.proc q).pid.toInt ≠ -1
  | _ => True

abbrev Fails (sb : Fs.Superblock) (w : World) (r : Int) (w' : World) : Prop := r = -1 → Undone sb w w'

section Undone

variable {sb : Fs.Superblock} {M : LowBits sb} {w w' : World} {p np : Slot} {f ip fd : Nat} {α : Type}

theorem Undone.refl (sb : Fs.Superblock) (w : World) : Undone sb w w where
  ref _ := rfl
  file _ _ := ⟨rfl, rfl⟩
  proc := rfl
  pipe := rfl
  state _ := rfl
  slot _ _ := rfl
  inum _ _ := rfl
  files _ _ _ := rfl

theorem Undone.of_spares {s' : Kern} (h : Spares sb (worldRefs w) w.fs s') : Undone sb w (setFs s' w) where
  ref f := congrArg File.ref (congrFun h.file f)
  file f _ := ⟨congrFun h.file f, rfl⟩
  proc := h.proc
  pipe := rfl
  state _ := rfl
  slot _ _ := rfl
  inum := h.inum
  files := h.files

theorem Undone.of_slot {t : Ptable} (hUnused : (w.tbl.proc np).state = .unused) (hNow : (t.proc np).state = .unused)
    (hNe : ∀ q, q ≠ np → t.proc q = w.tbl.proc q) : Undone sb w { w with tbl := t } where
  ref _ := rfl
  file _ _ := ⟨rfl, rfl⟩
  proc := rfl
  pipe := rfl
  state q := by
    by_cases hq : q = np
    · rw [hq, hUnused]
      exact hNow
    · exact congrArg Sched.Proc.state (hNe q hq)
  slot q hq := hNe q fun hEq => hq (hEq ▸ hUnused)
  inum _ _ := rfl
  files _ _ _ := rfl

theorem onWorld_loose : onWorld .loose = .loose := by
  have hStop : (onWorld .loose).stop = fun _ => True := funext fun e => by
    cases e with
    | stop e => rfl
    | freed => rfl
  rw [onWorld, Rely.loose, Rely.mk.injEq]
  exact ⟨hStop, rfl, rfl⟩

theorem fails_of_yields {x : WM Int} (hx : Yields x (· ≠ -1)) {w₁ : World} : wp (onWorld .loose) x (Fails sb w) w₁ := by
  rw [onWorld_loose]
  exact hx.wp fun r w' hr hFail => absurd hFail hr

theorem wp_anyFs {x : FsM α} {Q : α → World → Prop} (hQ : ∀ a s', Q a (setFs s' w)) : wp (onWorld .loose) (onFs x) Q w :=
  wp_onFs (wp_trivial Rely.loose_calm (fun _ => trivial) hQ)

theorem Stands.fails_onFs (h : Stands M 0 w) {x : FsM Int}
    (hx : Fit M (worldRefs w) w.fs → wp .loose x (Failed sb (worldRefs w) w.fs) w.fs) : wp (onWorld .loose) (onFs x) (Fails sb w) w := by
  have hFit := h.fit
  rw [zero_add] at hFit
  exact Handles.wp_onFs (wp_mono (hx hFit) fun r s' hFailed hr => Undone.of_spares (hFailed hr))

end Undone

section Files

variable {sb : Fs.Superblock} {M : LowBits sb} {w w' : World} {p : Slot} {f f0 f1 pi ip fd : Nat} {Q : Unit → World → Prop}

def taken (f : Nat) (w : World) : World := setFs (Fs.setFile w.fs f { w.fs.file f with ref := 1 }) w

theorem taken_file (f : Nat) (w : World) : (taken f w).fs.file f = { w.fs.file f with ref := 1 } := Function.update_self ..

theorem taken_file_of_ne (h : f0 ≠ f1) (w : World) : (taken f1 w).fs.file f0 = w.fs.file f0 := Function.update_of_ne h ..

theorem taken_comm (h : f0 ≠ f1) (w : World) : taken f1 (taken f0 w) = taken f0 (taken f1 w) := by
  simp only [taken, setFs, Fs.setFile, Function.update_of_ne h, Function.update_of_ne h.symm]
  rw [Function.update_comm h]

structure FreeFile (w : World) (f : Nat) : Prop where
  ref : (w.fs.file f).ref = 0
  type : (w.fs.file f).type = .none
  pipe : w.pipeOf f = none

theorem Slots.freeFile (h : Slots w) (hRef : (w.fs.file f).ref = 0) : FreeFile w f := by
  obtain ⟨hType, hPipe⟩ := h.unused f hRef
  exact ⟨hRef, hType, hPipe⟩

theorem FreeFile.of_taken (hRef : ((taken f0 w).fs.file f).ref = 0) (h : ∀ f, (w.fs.file f).ref = 0 → FreeFile w f) :
    f ≠ f0 ∧ FreeFile w f ∧ FreeFile (taken f0 w) f := by
  have hNe : f ≠ f0 := by
    rintro rfl
    rw [taken_file] at hRef
    cases hRef
  have hFile := taken_file_of_ne hNe w
  have hFree := h f (by rwa [hFile] at hRef)
  refine ⟨hNe, hFree, hRef, ?_, hFree.pipe⟩
  rw [hFile]
  exact hFree.type

theorem wp_filealloc_loose (h : ∀ f, (w.fs.file f).ref = 0 → FreeFile w f) {Q : Option Nat → World → Prop} (hNone : Q none w)
    (hSome : ∀ f, FreeFile w f → Q (some f) (taken f w)) : wp (onWorld .loose) (onFs Fs.filealloc) Q w := by
  refine wp_onFs (Fs.wp_act Fs.loose_allows ?_)
  cases hFind : (List.range nfile).find? fun f => (w.fs.file f).ref == 0 with
  | none => exact hNone
  | some f =>
    have hZero : (w.fs.file f).ref = 0 := beq_iff_eq.mp (List.find?_some (p := fun f => (w.fs.file f).ref == 0) hFind)
    exact hSome f (h f hZero)

theorem wp_fileclose_none (hRef : (w.fs.file f).ref = 1) (hType : (w.fs.file f).type = .none) (hPipe : w.pipeOf f = none)
    (hQ : Q () (putFile w f { w.fs.file f with ref := 0, type := .none } none)) : wp (onWorld .loose) (fileclose f) Q w := by
  rw [fileclose, wp_bind]
  refine wp_actW Fs.loose_allows ?_
  rw [if_neg (by omega), if_neg (by omega)]
  dsimp only
  rw [hPipe]
  dsimp only
  rw [hType]
  exact hQ

theorem FreeFile.wp_fileclose (h : FreeFile w f) (hQ : Q () w) : wp (onWorld .loose) (fileclose f) Q (taken f w) := by
  have hFile := taken_file f w
  refine wp_fileclose_none ?_ ?_ h.pipe ?_
  · rw [hFile]
  · rw [hFile]
    exact h.type
  · have hSame : { (taken f w).fs.file f with ref := 0, type := .none } = w.fs.file f := by
      rw [hFile, ← h.ref, ← h.type]
    rw [hSame, ← h.pipe]
    have hBack : putFile (taken f w) f (w.fs.file f) (w.pipeOf f) = w := by
      simp only [putFile, taken, setFs, Fs.setFile, Function.update_idem, Function.update_eq_self]
    rwa [hBack]

theorem wp_fdalloc_loose {Q : Option Nat → World → Prop} (hNone : Q none w)
    (hSome : ∀ fd, (w.fs.proc p).ofile fd = none → Q (some fd) (setFs (Fs.setOfile w.fs p fd (some f)) w)) :
    wp (onWorld .loose) (onFs (Fs.fdalloc p f)) Q w := by
  refine wp_onFs (Fs.wp_act Fs.loose_allows ?_)
  cases hFind : (List.range nofile).find? fun fd => (w.fs.proc p).ofile fd == none with
  | none => exact hNone
  | some fd =>
    have hFree := List.find?_some (p := fun fd => (w.fs.proc p).ofile fd == none) hFind
    exact hSome fd (beq_iff_eq.mp hFree)

theorem setOfile_undone (hFree : (w.fs.proc p).ofile fd = none) :
    setFs (Fs.setOfile (Fs.setOfile w.fs p fd (some f)) p fd none) w = w := by
  simp only [Fs.setOfile, setFs, Function.update_self, Function.update_idem]
  rw [← hFree]
  simp only [Function.update_eq_self]

end Files

section Pipes

variable {sb : Fs.Superblock} {M : LowBits sb} {w w' : World} {p : Slot} {f f0 f1 pi fd : Nat} {mem : Option (Nat × (Nat → UInt8))}

structure PipeMade (w : World) (f0 f1 pi : Nat) (w' : World) : Prop where
  ne : f0 ≠ f1
  free0 : FreeFile w f0
  free1 : FreeFile w f1
  fresh : w.pipe pi = none
  read : (w'.fs.file f0).ref = 1 ∧ sideOf (w'.fs.file f0) = .read ∧ w'.pipeOf f0 = some pi
  write : (w'.fs.file f1).ref = 1 ∧ sideOf (w'.fs.file f1) = .write ∧ w'.pipeOf f1 = some pi
  file : ∀ f, f ≠ f0 → f ≠ f1 → w'.fs.file f = w.fs.file f ∧ w'.pipeOf f = w.pipeOf f
  fs : w'.fs = { w.fs with file := w'.fs.file }
  tbl : w'.tbl = w.tbl
  pipe : ∃ q : Pipe, q.readopen = true ∧ q.writeopen = true ∧ w'.pipe = Function.update w.pipe pi (some q)

def ended (f pi : Nat) (side : Side) (w : World) : World :=
  putFile w f { w.fs.file f with readable := side == .read, writable := side == .write } (some pi)

theorem ended_file (f pi : Nat) (side : Side) (w : World) :
    ((ended f pi side w).fs.file f).ref = (w.fs.file f).ref ∧ sideOf ((ended f pi side w).fs.file f) = side ∧
    (ended f pi side w).pipeOf f = some pi := by
  rw [ended, putFile_file, putFile_pipe]
  cases side with
  | read => exact ⟨rfl, rfl, rfl⟩
  | write => exact ⟨rfl, rfl, rfl⟩

theorem ended_file_of_ne (side : Side) (h : f ≠ f0) :
    (ended f0 pi side w).fs.file f = w.fs.file f ∧ (ended f0 pi side w).pipeOf f = w.pipeOf f :=
  ⟨(putFile_set w f0 _ _).file f h, (putFile_set w f0 _ _).pipe f h⟩

theorem pipeMade (hNe : f0 ≠ f1) (h0 : FreeFile w f0) (h1 : FreeFile w f1) (hFresh : w.pipe pi = none) (data : Nat → UInt8) :
    PipeMade w f0 f1 pi
      (ended f1 pi .write (ended f0 pi .read (setPipe (taken f1 (taken f0 w)) pi (some ⟨data, 0, 0, true, true⟩)))) where
  ne := hNe
  free0 := h0
  free1 := h1
  fresh := hFresh
  read := by
    rw [(ended_file_of_ne .write hNe).1, (ended_file_of_ne .write hNe).2]
    obtain ⟨hRef, hSide, hPipe⟩ := ended_file f0 pi .read (setPipe (taken f1 (taken f0 w)) pi (some ⟨data, 0, 0, true, true⟩))
    refine ⟨hRef.trans ?_, hSide, hPipe⟩
    change ((taken f1 (taken f0 w)).fs.file f0).ref = 1
    rw [taken_file_of_ne hNe, taken_file]
  write := by
    obtain ⟨hRef, hSide, hPipe⟩ := ended_file f1 pi .write
      (ended f0 pi .read (setPipe (taken f1 (taken f0 w)) pi (some ⟨data, 0, 0, true, true⟩)))
    refine ⟨hRef.trans ?_, hSide, hPipe⟩
    rw [(ended_file_of_ne .read hNe.symm).1]
    change ((taken f1 (taken f0 w)).fs.file f1).ref = 1
    rw [taken_file]
  file f hf0 hf1 := by
    rw [(ended_file_of_ne .write hf1).1, (ended_file_of_ne .write hf1).2, (ended_file_of_ne .read hf0).1, (ended_file_of_ne .read hf0).2]
    refine ⟨?_, rfl⟩
    change (taken f1 (taken f0 w)).fs.file f = w.fs.file f
    rw [taken_file_of_ne hf1, taken_file_of_ne hf0]
  fs := rfl
  tbl := rfl
  pipe := ⟨⟨data, 0, 0, true, true⟩, rfl, rfl, rfl⟩

theorem wp_pipealloc_loose (h : Slots w) {Q : Option (Nat × Nat) → World → Prop} (hNone : Q none w)
    (hSome : ∀ f0 f1 pi w', PipeMade w f0 f1 pi w' → Q (some (f0, f1)) w') : wp (onWorld .loose) (pipealloc mem) Q w := by
  have hFree : ∀ f, (w.fs.file f).ref = 0 → FreeFile w f := fun f => h.freeFile
  rw [pipealloc, wp_bind]
  refine wp_filealloc_loose hFree hNone fun f0 h0 => ?_
  dsimp only
  rw [wp_bind]
  refine wp_filealloc_loose (fun f hRef => (FreeFile.of_taken hRef hFree).2.2) ?_ fun f1 h1 => ?_
  · dsimp only
    rw [wp_bind]
    exact h0.wp_fileclose hNone
  obtain ⟨hNe, h1, -⟩ := FreeFile.of_taken h1.ref hFree
  dsimp only
  rw [wp_bind]
  refine wp_actW Fs.loose_allows ?_
  cases mem with
  | none =>
    dsimp only
    rw [wp_bind, taken_comm hNe.symm]
    refine FreeFile.wp_fileclose ?_ ?_
    · have hRef : ((taken f1 w).fs.file f0).ref = 0 := by
        rw [taken_file_of_ne hNe.symm]
        exact h0.ref
      exact (FreeFile.of_taken hRef hFree).2.2
    · rw [wp_bind]
      exact h1.wp_fileclose hNone
  | some r =>
    obtain ⟨pi, data⟩ := r
    dsimp only
    cases hPipe : (taken f1 (taken f0 w)).pipe pi with
    | some q => exact trivial
    | none =>
      dsimp only
      rw [wp_bind]
      refine wp_modifyW Fs.loose_allows ?_
      rw [wp_bind]
      refine wp_modifyW Fs.loose_allows ?_
      exact hSome f0 f1 pi _ (pipeMade hNe.symm h0 h1 hPipe data)

structure EndClosed (f pi : Nat) (o : Option Pipe) (w w' : World) : Prop where
  ref : (w'.fs.file f).ref = 0
  file : ∀ f', f' ≠ f → w'.fs.file f' = w.fs.file f' ∧ w'.pipeOf f' = w.pipeOf f'
  fs : w'.fs = { w.fs with file := w'.fs.file }
  tbl : w'.tbl = w.tbl
  pipe : w'.pipe = Function.update w.pipe pi o

theorem wp_pipeclose {q : Pipe} (hq : w.pipe pi = some q) {side : Side} {Q : Unit → World → Prop}
    (hQ : Q () (setPipe w pi (if bothClosed (q.close side) = true then none else some (q.close side)))) :
    wp (onWorld .loose) (pipeclose pi side) Q w := by
  rw [pipeclose, wp_bind]
  refine wp_actW Fs.loose_allows ?_
  rw [hq]
  dsimp only
  by_cases hBoth : bothClosed (q.close side) = true
  · rw [if_pos hBoth] at hQ ⊢
    refine wp_actW Fs.loose_allows ?_
    have hNow : (setPipe w pi (some (q.close side))).pipe pi = some (q.close side) := Function.update_self ..
    have hFreed : setPipe (setPipe w pi (some (q.close side))) pi none = setPipe w pi none := by
      simp only [setPipe, Function.update_idem]
    rw [hNow, hFreed]
    exact hQ
  · rw [if_neg hBoth] at hQ ⊢
    exact hQ

theorem wp_fileclose_end (hRef : (w.fs.file f).ref = 1) (hPipe : w.pipeOf f = some pi) {q : Pipe} (hq : w.pipe pi = some q)
    {Q : Unit → World → Prop} (hQ : ∀ w', EndClosed f pi (if bothClosed (q.close (sideOf (w.fs.file f))) = true then none
      else some (q.close (sideOf (w.fs.file f)))) w w' → Q () w') : wp (onWorld .loose) (fileclose f) Q w := by
  rw [fileclose, wp_bind]
  refine wp_actW Fs.loose_allows ?_
  rw [if_neg (by omega), if_neg (by omega)]
  dsimp only
  rw [hPipe]
  have hStill : (putFile w f { w.fs.file f with ref := 0, type := .none } none).pipe pi = some q := hq
  refine wp_pipeclose hStill (hQ _ ⟨?_, fun f' hf' => ?_, rfl, rfl, rfl⟩)
  · exact congrArg File.ref (Function.update_self f _ w.fs.file)
  · exact ⟨Function.update_of_ne hf' .., Function.update_of_ne hf' ..⟩

theorem PipeMade.undone (h : PipeMade w f0 f1 pi w') {w₁ w₂ : World} {o : Option Pipe} (h₁ : EndClosed f0 pi o w' w₁)
    (h₂ : EndClosed f1 pi none w₁ w₂) : Undone sb w w₂ := by
  have hFs : w₂.fs = { w.fs with file := w₂.fs.file } := by
    rw [h₂.fs, h₁.fs, h.fs]
  have hTbl : w₂.tbl = w.tbl := h₂.tbl.trans (h₁.tbl.trans h.tbl)
  have hFile : ∀ f, f ≠ f0 → f ≠ f1 → w₂.fs.file f = w.fs.file f ∧ w₂.pipeOf f = w.pipeOf f := fun f hf0 hf1 => by
    obtain ⟨hSame₂, hPipe₂⟩ := h₂.file f hf1
    obtain ⟨hSame₁, hPipe₁⟩ := h₁.file f hf0
    obtain ⟨hSame, hPipe⟩ := h.file f hf0 hf1
    exact ⟨hSame₂.trans (hSame₁.trans hSame), hPipe₂.trans (hPipe₁.trans hPipe)⟩
  constructor
  case ref =>
    intro f
    by_cases hf1 : f = f1
    · rw [hf1, h.free1.ref]
      exact h₂.ref
    by_cases hf0 : f = f0
    · rw [hf0, h.free0.ref, (h₂.file f0 h.ne).1]
      exact h₁.ref
    rw [(hFile f hf0 hf1).1]
  case file => exact fun f hf => hFile f (fun hEq => hf (hEq ▸ h.free0.ref)) fun hEq => hf (hEq ▸ h.free1.ref)
  case proc => rw [hFs]
  case pipe =>
    obtain ⟨q, -, -, hPipe⟩ := h.pipe
    rw [h₂.pipe, h₁.pipe, hPipe, Function.update_idem, Function.update_idem, ← h.fresh, Function.update_eq_self]
  case state => exact fun q => by rw [hTbl]
  case slot => exact fun q _ => by rw [hTbl]
  case inum => exact fun j _ => by rw [hFs]
  case files =>
    intro k _ _
    rw [hFs]
    rfl

theorem PipeMade.wp_close (h : PipeMade w f0 f1 pi w') : wp (onWorld .loose) (do
    fileclose f0
    fileclose f1
    return -1 : WM Int) (Fails sb w) w' := by
  obtain ⟨hRef0, hSide0, hPipe0⟩ := h.read
  obtain ⟨hRef1, hSide1, hPipe1⟩ := h.write
  obtain ⟨q, hRead, hWrite, hPipe⟩ := h.pipe
  have hNow : w'.pipe pi = some q := by
    rw [hPipe, Function.update_self]
  rw [wp_bind]
  refine wp_fileclose_end hRef0 hPipe0 hNow fun w₁ h₁ => ?_
  have hOne : bothClosed (q.close (sideOf (w'.fs.file f0))) = false := by
    rw [hSide0, bothClosed, Pipe.close, hWrite, Bool.not_true, Bool.and_false]
  rw [hOne, if_neg Bool.false_ne_true] at h₁
  obtain ⟨hFile1, hSame1⟩ := h₁.file f1 h.ne.symm
  have hNow₁ : w₁.pipe pi = some (q.close (sideOf (w'.fs.file f0))) := by
    rw [h₁.pipe, Function.update_self]
  rw [wp_bind]
  refine wp_fileclose_end (by rw [hFile1, hRef1]) (hSame1.trans hPipe1) hNow₁ fun w₂ h₂ _ => ?_
  rw [hFile1, hSide0, hSide1, if_pos (by rfl)] at h₂
  exact h.undone h₁ h₂

theorem Slots.fails_sysPipe (h : Slots w) {arg : Bool} : wp (onWorld .loose) (sysPipe p arg mem) (Fails sb w) w := by
  rw [sysPipe]
  split
  · exact fun _ => .refl sb w
  rw [wp_bind]
  refine wp_pipealloc_loose h (fun _ => .refl sb w) fun f0 f1 pi w₁ hMade => ?_
  dsimp only
  rw [wp_bind]
  refine wp_fdalloc_loose hMade.wp_close fun fd hFree => ?_
  dsimp only
  rw [wp_bind]
  refine wp_fdalloc_loose ?_ fun fd' _ hFail => absurd hFail (by decide)
  dsimp only
  rw [setOfile, wp_bind]
  refine wp_onFs (Fs.wp_modifyK Fs.loose_allows ?_)
  have hBack : setFs (Fs.setOfile (setFs (Fs.setOfile w₁.fs p fd (some f0)) w₁).fs p fd none) (setFs (Fs.setOfile w₁.fs p fd (some f0)) w₁) =
      w₁ := setOfile_undone hFree
  rw [hBack]
  exact hMade.wp_close

end Pipes

section Calls

variable {sb : Fs.Superblock} {M : LowBits sb} {w w' : World} {p np : Slot} {f ip fd : Nat} {path : Option (List UInt8)}

theorem fails_fileread (h : Stands M 0 w) (hG : Geom sb) {n : Nat} :
    wp (onWorld .loose) (fileread p f n) (fun r w' => r = none → Undone sb w w') w := by
  have hFit := h.fit
  rw [zero_add] at hFit
  rw [fileread, wp_bind]
  refine wp_getW Fs.loose_allows ?_
  split
  · exact fun _ => .refl sb w
  rw [wp_bind]
  refine wp_getW Fs.loose_allows ?_
  cases w.pipeOf f with
  | some pi =>
    refine wp_actW Fs.loose_allows ?_
    cases w.pipe pi with
    | none => exact trivial
    | some q =>
      dsimp only
      by_cases hWait : q.nread = q.nwrite ∧ q.writeopen = true
      · rw [if_pos hWait]
        cases (w.tbl.proc p).killed with
        | true => exact fun _ => .refl sb w
        | false => exact trivial
      · rw [if_neg hWait]
        exact fun hFail => absurd hFail (Option.some_ne_none _)
  | none =>
    refine wp_onFs (wp_mono (hFit.failed_fileread hG fun hType => ?_) fun r s' hFailed hFail => .of_spares (hFailed hFail))
    exact mem_worldRefs_of_file (h.mem_of_file hType).1 hType

theorem wp_argfd_loose {Q : Option Nat → World → Prop} (hQ : ∀ r, Q r w) : wp (onWorld .loose) (onFs (Fs.argfd p fd)) Q w :=
  wp_onFs (Fs.wp_getK Fs.loose_allows (hQ _))

theorem Stands.fails_sysRead (hG : Geom sb) (h : Stands M 0 w) {n : Option Nat} :
    wp (onWorld .loose) (sysRead p fd n) (Fails sb w) w := by
  rw [sysRead, wp_bind]
  refine wp_argfd_loose fun r => ?_
  cases r with
  | none => exact fun _ => .refl sb w
  | some f => cases n with
    | none => exact fun _ => .refl sb w
    | some n =>
      dsimp only
      rw [wp_bind]
      refine wp_mono (fails_fileread h hG) fun r w' hFailed => ?_
      cases r with
      | none => exact fun _ => hFailed rfl
      | some bytes => exact fun hFail => absurd hFail (show (bytes.length : Int) ≠ -1 by omega)

theorem fails_sysClose : wp (onWorld .loose) (sysClose p fd) (Fails sb w) w := by
  rw [sysClose, wp_bind]
  refine wp_argfd_loose fun r => ?_
  cases r with
  | none => exact fun _ => .refl sb w
  | some f => exact fails_of_yields (.bind fun _ => .bind fun _ => .pure (by decide))

theorem Stands.fails_openFile (hG : Geom sb) {s₁ : Kern} (h : Slots w) (hS : Spares sb (worldRefs w) w.fs s₁)
    (hFit : Fit M (ip ::ₘ worldRefs w) s₁) {omode : Nat} : wp (onWorld .loose) (openFile p ip omode) (Fails sb w) (setFs s₁ w) := by
  have hPut : wp (onWorld .loose) (do
      onFs (Fs.iunlockput ip)
      return -1 : WM Int) (Fails sb w) (setFs s₁ w) := by
    rw [wp_bind]
    exact Handles.wp_onFs (hFit.spares_iunlockput hG fun s₂ _ hS₂ _ => Undone.of_spares (hS.trans hS₂))
  have hFree : ∀ f, ((setFs s₁ w).fs.file f).ref = 0 → FreeFile (setFs s₁ w) f := fun f hRef => by
    have hFile : (setFs s₁ w).fs.file f = w.fs.file f := congrFun hS.file f
    rw [hFile] at hRef
    obtain ⟨hRef, hType, hPipe⟩ := h.freeFile hRef
    exact ⟨by rw [hFile, hRef], by rw [hFile, hType], hPipe⟩
  rw [openFile, wp_bind]
  refine wp_filealloc_loose hFree hPut fun f hNew => ?_
  dsimp only
  rw [wp_bind]
  refine wp_fdalloc_loose ?_ fun fd _ => ?_
  · dsimp only
    rw [wp_bind]
    exact hNew.wp_fileclose hPut
  · exact fails_of_yields (.bind fun _ => .bind fun _ => .pure (show (fd : Int) ≠ -1 by omega))

theorem Stands.fails_sysOpen (hG : Geom sb) (hRoot : rootino < sb.ninodes) (h : Stands M 0 w) {omode : Nat}
    (hMode : Fs.oCreate omode = false) : wp (onWorld .loose) (sysOpen p path omode) (Fails sb w) w := by
  cases path with
  | none => exact fun _ => .refl sb w
  | some path =>
    have hFit := h.fit
    rw [zero_add] at hFit
    rw [sysOpen, hMode, if_neg Bool.false_ne_true, wp_bind]
    refine Handles.wp_onFs (hFit.spares_namei hG hRoot (fun j hj => mem_worldRefs_of_cwd hj) (fun s₁ _ hS₁ _ => Undone.of_spares hS₁)
      fun ip s₁ h₁ hS₁ => ?_)
    dsimp only
    rw [wp_bind]
    refine Handles.wp_onFs (h₁.spares_ilock hG (Multiset.mem_cons_self ip _) fun s₂ h₂ hS₂ _ => ?_)
    rw [wp_bind]
    refine Handles.wp_onFs (Fs.wp_getK Fs.loose_allows ?_)
    have hS := hS₁.trans hS₂.drop
    split
    · rw [wp_bind]
      exact Handles.wp_onFs (h₂.spares_iunlockput hG fun s₃ _ hS₃ _ => Undone.of_spares (hS.trans hS₃))
    · exact Stands.fails_openFile hG h.toSlots hS h₂

theorem fails_wait (hPid : ∀ q, (w.tbl.proc q).pid.toInt ≠ -1) : wp (onWorld .loose) (wait p) (Fails sb w) w := by
  refine wp_actW Fs.loose_allows ?_
  rcases Ptable.wait_cases w.tbl p with ⟨q, -, -, hEq⟩ | ⟨-, hEq | hEq⟩
  · rw [hEq]
    exact fun hFail => absurd hFail (hPid q)
  · rw [hEq]
    exact fun _ => .refl sb w
  · rw [hEq]
    exact trivial

theorem fails_kill {pid : Sched.Pid} : wp (onWorld .loose) (kill pid) (Fails sb w) w := by
  refine wp_actW Fs.loose_allows ?_
  rw [Ptable.kill]
  cases Sched.slots.find? fun q => (w.tbl.proc q).pid = pid with
  | some q => exact fun hFail => absurd hFail (show ¬(0 : Int) = -1 by decide)
  | none => exact fun _ => .refl sb w

theorem fails_exit : wp (onWorld .loose) (exit p) (Fails sb w) w := by
  refine fails_of_yields (.bind fun initproc => ?_)
  split
  · rw [Yields, ← onWorld_loose]
    exact fun _ => Handles.wp_onFs (Fs.wp_panic Fs.loose_allows (by simp) (by simp))
  · exact .bind fun _ => .bind fun _ => .bind fun _ => .bind fun _ => .pure (by decide)

theorem fails_fork (hPid : w.tbl.nextpid.toInt ≠ -1) {kstack pgdir : Nat} : wp (onWorld .loose) (fork p kstack pgdir) (Fails sb w) w := by
  rw [fork, wp_bind]
  refine wp_actW Fs.loose_allows ?_
  cases hAlloc : w.tbl.allocproc with
  | none => exact fun _ => .refl sb w
  | some r =>
    obtain ⟨np, t⟩ := r
    obtain ⟨hUnused, ht⟩ := Ptable.allocproc_eq_some hAlloc
    let made : Sched.Proc → Sched.Proc := fun q => { q with state := .embryo, pid := w.tbl.nextpid }
    have hMade : (t.proc np).pid = w.tbl.nextpid := by
      rw [ht]
      exact congrArg Sched.Proc.pid (Ptable.set_proc w.tbl np made)
    have hOther : ∀ q, q ≠ np → t.proc q = w.tbl.proc q := fun q hq => by
      rw [ht]
      exact Ptable.set_proc_of_ne w.tbl made hq
    have hGiven : ∀ (t' : Ptable) (F : Sched.Proc → Sched.Proc), (∀ q, q ≠ np → t'.proc q = w.tbl.proc q) →
        (∀ q, (F q).state = .unused) → Undone sb w { w with tbl := t'.set np F } := fun t' F ht' hF => by
      refine .of_slot hUnused ?_ fun q hq => ?_
      · rw [Ptable.set_proc, hF]
      · rw [Ptable.set_proc_of_ne t' F hq, ht' q hq]
    dsimp only
    rw [wp_bind]
    refine wp_actW Fs.loose_allows ?_
    rw [Ptable.allocKstack]
    by_cases hStack : kstack = 0
    · rw [if_pos hStack]
      exact fun _ => hGiven t (fun q => { q with kstack := kstack, state := .unused }) hOther fun _ => rfl
    rw [if_neg hStack]
    dsimp only
    let stacked : Sched.Proc → Sched.Proc := fun q => { q with kstack := kstack, context := ⟨.forkret, q.context.intena⟩ }
    have hStacked : ((t.set np stacked).proc np).pid = w.tbl.nextpid := by
      rw [Ptable.set_proc]
      exact hMade
    have hOther₂ : ∀ q, q ≠ np → (t.set np stacked).proc q = w.tbl.proc q := fun q hq => by
      rw [Ptable.set_proc_of_ne t stacked hq, hOther q hq]
    change wp (onWorld .loose) _ (Fails sb w) { w with tbl := t.set np stacked }
    rw [if_pos rfl, wp_bind]
    refine wp_actW Fs.loose_allows ?_
    rw [Ptable.forkCopy]
    by_cases hDir : pgdir = 0
    · rw [if_pos hDir]
      exact fun _ => hGiven (t.set np stacked) (fun q => { q with pgdir := pgdir, kstack := 0, state := .unused }) hOther₂ fun _ => rfl
    rw [if_neg hDir]
    dsimp only
    rw [if_pos rfl, wp_bind]
    refine wp_modifyW Fs.loose_allows ?_
    rw [wp_bind]
    refine wp_anyFs fun _ s' => ?_
    rw [wp_bind]
    refine wp_getW Fs.loose_allows ?_
    rw [wp_bind]
    refine wp_modifyW Fs.loose_allows fun hFail => absurd hFail ?_
    let copied : Sched.Proc → Sched.Proc := fun q => { q with pgdir := pgdir }
    have hPid₂ : ((((t.set np stacked).set np copied).setParent np p).proc np).pid = w.tbl.nextpid := by
      rw [Ptable.setParent, Ptable.set_proc, Ptable.set_proc]
      exact hStacked
    change ((((t.set np stacked).set np copied).setParent np p).proc np).pid.toInt ≠ -1
    rwa [hPid₂]

theorem Stands.fails_call (hG : Geom sb) (hRoot : rootino < sb.ninodes) (h : Stands M 0 w) {k : Call} (hk : Undoes w k) :
    wp (onWorld .loose) (k.prog p) (Fails sb w) w := by
  have hCwd : ∀ j, (w.fs.proc p).cwd = some j → j ∈ worldRefs w := fun j hj => mem_worldRefs_of_cwd hj
  cases k with
  | dup fd => exact h.fails_onFs fun _ => Fs.failed_sysDup sb _ _ p fd
  | read fd n => exact h.fails_sysRead hG
  | write fd src => exact hk.elim
  | close fd => exact fails_sysClose
  | pipe arg mem => exact h.toSlots.fails_sysPipe
  | link old new => exact h.fails_onFs fun hFit => hFit.failed_sysLink hG hRoot hCwd old new
  | unlink path => exact h.fails_onFs fun hFit => hFit.failed_sysUnlink hG hRoot hCwd path
  | «open» path omode => exact h.fails_sysOpen hG hRoot hk
  | mkdir path => exact h.fails_onFs fun hFit => hFit.failed_makeNode hG hRoot hCwd path _ _ _
  | mknod path major minor => exact h.fails_onFs fun hFit => hFit.failed_makeNode hG hRoot hCwd path _ _ _
  | chdir path => exact h.fails_onFs fun hFit => hFit.failed_sysChdir hG hRoot hCwd path
  | exec path mem => exact h.fails_onFs fun hFit => wp_mono (hFit.spares_exec hG hRoot hCwd path mem) fun _ _ hS _ => hS
  | fork kstack pgdir => exact fails_fork hk
  | exit => exact fails_exit
  | wait => exact fails_wait hk
  | kill pid => exact fails_kill
  | sleep done => exact wp_getW Fs.loose_allows fun _ => .refl sb w

/-- Whatever calls have been made before, a call that returns -1 is undone. -/
theorem failed_calls_are_undone (hG : Geom sb) (hRoot : rootino < sb.ninodes) {w₀ : World} (h : BootedOn sb w₀)
    (hTurns : Turns sb w₀ w) {k : Call} (hk : Undoes w k) (hRun : (k.prog p).run w = .ok (-1, w')) : Undone sb w w' := by
  have hStands : Stands (LowBits.any sb) 0 w := (h.stands hG hRoot trivial).turns hG hRoot hTurns
  have hCall := hStands.fails_call (p := p) hG hRoot hk
  rw [onWorld_loose] at hCall
  exact wp_loose hCall hRun rfl

end Calls

section Example

def linkTaken : Call := .link (some [47, 100]) (some [47, 101])

theorem run_after {k : Call} {w : World} {r : Int} (h : ((k.prog 0).run w).toOption.map Prod.fst = some r) :
    (k.prog 0).run w = .ok (r, after k w) := by
  cases hRun : (k.prog 0).run w with
  | error e =>
    rw [hRun] at h
    cases h
  | ok a =>
    rw [hRun] at h
    cases h
    rw [after, hRun]

set_option maxRecDepth 10000 in
theorem failed_calls_are_undone_link : Undone (tightSb 2) (atEnd 2) (after linkTaken (atEnd 2)) :=
  failed_calls_are_undone (tight_geom (Or.inr rfl)) (by decide) (tight_booted (Or.inr rfl)) turns_atEnd (k := linkTaken) trivial
    (run_after (by decide +kernel))

end Example

end Xv6Rpi.Handles
