import Xv6Rpi.Fs.Opened
import Xv6Rpi.Handles.Slots

/-! # The inodes under the tables

Between the calls of all processes the inodes are in order, and the references to cache entries are those that the open files
and the current directories stand for. No file that can be written refers to a directory. What the calls do one after another
keeps this: programs on inodes as long as they give back their references, and the changes to the tables.
-/

namespace Xv6Rpi.Handles

open Fs (Kern FsM File ProcFiles LowBits Geom Fit Kept Keeping Filelike nfile nofile ninode)
open Pipes (Pipe Side)
open Prog
open Sched (Ptable Slot ProcState)

/-- What is relied on about the file system's state. -/
def onWorld (R : Rely Kern Fs.Stop Fs.Label) : Rely World Halt Fs.Label where
  stop
    | .stop e => R.stop e
    | .freed => True
  may l w := R.may l w.fs
  must l w := R.must l w.fs

theorem isPart_fs : IsPart World.fs setFs := ⟨fun _ _ => rfl, fun _ => rfl, fun _ _ _ => rfl⟩

section Actions

variable {R : Rely Kern Fs.Stop Fs.Label} {w : World} {α : Type} {Q : α → World → Prop}

theorem wp_onFs {x : FsM α} (h : wp R x (fun a s => Q a (setFs s w)) w.fs) : wp (onWorld R) (onFs x) Q w := wp_lift isPart_fs h

theorem wp_actW (hR : Fs.Allows R) {f : World → Except Halt (α × World)} (h : match f w with
    | .error e => (onWorld R).stop e
    | .ok (a, w') => Q a w') : wp (onWorld R) (act f) Q w := by
  rw [act, wp_single]
  refine fun _ => ⟨hR.must _ _ (by simp), ?_⟩
  revert h
  cases f w with
  | error e => exact id
  | ok r => exact id

theorem wp_getW (hR : Fs.Allows R) {f : World → α} (h : Q (f w) w) : wp (onWorld R) (getW f) Q w := wp_actW hR h

theorem wp_modifyW (hR : Fs.Allows R) {f : World → World} {Q : Unit → World → Prop} (h : Q () (f w)) :
    wp (onWorld R) (modifyW f) Q w := wp_actW hR h

end Actions

/-- The references to cache entries that open files and current directories stand for. -/
def worldRefs (w : World) : Multiset Nat := fileInodes w + ∑ p : Slot, cwdOf (w.fs.proc p)

structure Slots (w : World) : Prop where
  lt : ∀ f, (w.fs.file f).ref ≠ 0 → f < nfile
  unused : ∀ f, (w.fs.file f).ref = 0 → (w.fs.file f).type = .none ∧ w.pipeOf f = none
  pipe : ∀ f, w.pipeOf f ≠ none → (w.fs.file f).type = .none
  cwd : ∀ n j, (w.fs.proc n).cwd = some j → j < ninode
  gone : ∀ p : Slot, (w.tbl.proc p).state = .unused ∨ (w.tbl.proc p).state = .zombie → (w.fs.proc p).cwd = none

/-- No file that can be written refers to a directory. -/
def Plain (w : World) : Prop :=
  ∀ f < nfile, (w.fs.file f).type = .inode → (w.fs.file f).writable = true → Filelike w.fs (w.fs.file f).ip

/-- The inodes are in order, and besides the references of the tables there are those in `m`. -/
structure Stands {sb : Fs.Superblock} (M : LowBits sb) (m : Multiset Nat) (w : World) : Prop extends Slots w where
  fit : Fit M (m + worldRefs w) w.fs
  plain : Plain w

section Refs

variable {w w' : World} {f ip : Nat} {m : Multiset Nat}

theorem mem_worldRefs_of_file (hf : f < nfile) (hType : (w.fs.file f).type = .inode) : (w.fs.file f).ip ∈ worldRefs w := by
  refine Multiset.mem_add.mpr (Or.inl (Multiset.mem_sum.mpr ⟨f, Finset.mem_range.mpr hf, ?_⟩))
  rw [inodeOf, if_pos hType]
  exact Multiset.mem_singleton_self _

theorem mem_worldRefs_of_cwd {p : Slot} (hCwd : (w.fs.proc p).cwd = some ip) : ip ∈ worldRefs w := by
  refine Multiset.mem_add.mpr (Or.inr (Multiset.mem_sum.mpr ⟨p, Finset.mem_univ p, ?_⟩))
  rw [cwdOf, hCwd]
  exact Multiset.mem_singleton_self ip

theorem worldRefs_congr (hFile : ∀ f, inodeOf (w'.fs.file f) = inodeOf (w.fs.file f)) (hCwd : ∀ n, (w'.fs.proc n).cwd = (w.fs.proc n).cwd) :
    worldRefs w' = worldRefs w := by
  refine congrArg₂ (· + ·) (Finset.sum_congr rfl fun f _ => hFile f) (Finset.sum_congr rfl fun p _ => ?_)
  rw [cwdOf, cwdOf, hCwd]

theorem inodeOf_congr {ff ff' : File} (hType : ff'.type = ff.type) (hIp : ff'.ip = ff.ip) : inodeOf ff' = inodeOf ff := by
  rw [inodeOf, inodeOf, hType, hIp]

theorem inodeOf_none {ff : File} (hType : ff.type = .none) : inodeOf ff = 0 := by
  rw [inodeOf, hType]
  exact if_neg fun h => by cases h

theorem worldRefs_putFile (hf : f < nfile) (ff : File) (o : Option Nat) :
    worldRefs (putFile w f ff o) + inodeOf (w.fs.file f) = worldRefs w + inodeOf ff := by
  have hInodes := (putFile_set w f ff o).inodes hf
  rw [putFile_file] at hInodes
  rw [worldRefs, worldRefs, add_right_comm, hInodes, add_right_comm]
  rfl

theorem worldRefs_setCwd (w : World) (p : Slot) (o : Option Nat) :
    worldRefs (setFs (Fs.setCwd w.fs p o) w) + cwdOf (w.fs.proc p) = worldRefs w + atMost o := by
  have hSum : ∑ q : Slot, cwdOf ((Fs.setCwd w.fs p o).proc q) + cwdOf (w.fs.proc p) =
      ∑ q : Slot, cwdOf (w.fs.proc q) + atMost o := by
    have hEq : (fun q : Slot => cwdOf ((Fs.setCwd w.fs p o).proc q)) = Function.update (fun q : Slot => cwdOf (w.fs.proc q)) p (atMost o) := by
      funext q
      by_cases hq : q = p
      · rw [hq, Function.update_self, Fs.setCwd]
        exact congrArg cwdOf (Function.update_self (p : Nat) _ w.fs.proc)
      · rw [Function.update_of_ne hq, Fs.setCwd]
        exact congrArg cwdOf (Function.update_of_ne (fun hEq => hq (Fin.ext hEq)) _ w.fs.proc)
    rw [hEq]
    exact Fs.sum_update_add (fun q : Slot => cwdOf (w.fs.proc q)) p (atMost o)
  rw [worldRefs, worldRefs, add_assoc, add_assoc]
  exact congrArg (fileInodes w + ·) hSum

end Refs

section Stands

variable {sb : Fs.Superblock} {M : LowBits sb} {m m' : Multiset Nat} {w w' : World} {s' : Kern} {f ip : Nat} {p : Slot}

theorem Stands.refsOf (h : Stands M m w) :
    Fs.RefsOf w.fs (w.fs.file, w.fs.proc) (fun mine : Bool => bif mine then m else worldRefs w) := by
  have hSum : ∑ mine : Bool, (bif mine then m else worldRefs w) = m + worldRefs w := Fintype.sum_bool _
  refine ⟨rfl, fun j hj => ?_, fun j hj => ?_, h.cwd⟩
  · rw [hSum, h.fit.refs j hj]
  · rw [hSum] at hj
    exact h.fit.lt j hj

theorem Plain.of_entry (h : Plain w) (hFile : ∀ f, (s'.file f).type = (w.fs.file f).type ∧ (s'.file f).ip = (w.fs.file f).ip ∧
      (s'.file f).writable = (w.fs.file f).writable)
    (hEntry : ∀ j ∈ worldRefs w, Filelike w.fs j → Filelike s' j) : Plain (setFs s' w) := by
  intro f hf hType hWrite
  obtain ⟨hType', hIp, hWrite'⟩ := hFile f
  have hOld : (w.fs.file f).type = .inode := hType'.symm.trans hType
  change Filelike s' (s'.file f).ip
  rw [hIp]
  exact hEntry _ (mem_worldRefs_of_file hf hOld) (h f hf hOld (hWrite'.symm.trans hWrite))

theorem Stands.after (h : Stands M m w) (hFit : Fit M (m' + worldRefs w) s') (hKept : Kept (worldRefs w) w.fs s') :
    Stands M m' (setFs s' w) := by
  have hSlots : Slots (setFs s' w) := by
    refine ⟨?_, ?_, ?_, ?_, ?_⟩
    · exact fun f => by rw [show (setFs s' w).fs.file = w.fs.file from hKept.file]; exact h.lt f
    · exact fun f => by rw [show (setFs s' w).fs.file = w.fs.file from hKept.file]; exact h.unused f
    · exact fun f => by rw [show (setFs s' w).fs.file = w.fs.file from hKept.file]; exact h.pipe f
    · exact fun n => by rw [show (setFs s' w).fs.proc = w.fs.proc from hKept.proc]; exact h.cwd n
    · exact fun p => by rw [show (setFs s' w).fs.proc = w.fs.proc from hKept.proc]; exact h.gone p
  have hRefs : worldRefs (setFs s' w) = worldRefs w :=
    worldRefs_congr (fun f => congrArg inodeOf (congrFun hKept.file f)) fun n => congrArg ProcFiles.cwd (congrFun hKept.proc n)
  refine ⟨hSlots, by rw [hRefs]; exact hFit, h.plain.of_entry (fun f => ?_) fun j hj hFile => ?_⟩
  · rw [hKept.file]
    exact ⟨rfl, rfl, rfl⟩
  · obtain ⟨hValid, hType⟩ := hKept.valid j hj hFile.valid
    exact ⟨hValid, hType ▸ hFile.type⟩

structure Redone (s s' : Kern) : Prop where
  home : Fs.home s' = Fs.home s
  inode : s'.inode = s.inode
  mounted : ∀ sb, Fs.Mounted sb s → Fs.Mounted sb s'
  ref : ∀ f, (s'.file f).ref = 0 ↔ (s.file f).ref = 0
  file : ∀ f, (s'.file f).type = (s.file f).type ∧ (s'.file f).ip = (s.file f).ip ∧ (s'.file f).writable = (s.file f).writable
  cwd : ∀ n, (s'.proc n).cwd = (s.proc n).cwd

theorem Redone.refl (s : Kern) : Redone s s := ⟨rfl, rfl, fun _ => id, fun _ => Iff.rfl, fun _ => ⟨rfl, rfl, rfl⟩, fun _ => rfl⟩

theorem Redone.trans {s s₁ : Kern} (h : Redone s s₁) (h' : Redone s₁ s') : Redone s s' where
  home := h'.home.trans h.home
  inode := h'.inode.trans h.inode
  mounted sb hM := h'.mounted sb (h.mounted sb hM)
  ref f := (h'.ref f).trans (h.ref f)
  file f := by
    obtain ⟨hType, hIp, hWrite⟩ := h.file f
    obtain ⟨hType', hIp', hWrite'⟩ := h'.file f
    exact ⟨hType'.trans hType, hIp'.trans hIp, hWrite'.trans hWrite⟩
  cwd n := (h'.cwd n).trans (h.cwd n)

theorem Redone.worldRefs (hs : Redone w.fs s') : worldRefs (setFs s' w) = worldRefs w :=
  worldRefs_congr (fun f => inodeOf_congr (hs.file f).1 (hs.file f).2.1) hs.cwd

theorem Stands.redone (h : Stands M m w) (hs : Redone w.fs s') : Stands M m (setFs s' w) := by
  have hSlots : Slots (setFs s' w) := by
    refine ⟨fun f hf => h.lt f fun hZero => hf ((hs.ref f).mpr hZero), fun f hf => ?_, fun f hf => ?_, fun n j hj => h.cwd n j ?_, fun p hp => ?_⟩
    · obtain ⟨hType, hPipe⟩ := h.unused f ((hs.ref f).mp hf)
      exact ⟨(hs.file f).1.trans hType, hPipe⟩
    · exact (hs.file f).1.trans (h.pipe f hf)
    · rw [← hs.cwd n]
      exact hj
    · exact (hs.cwd p).trans (h.gone p hp)
  refine ⟨hSlots, ?_, h.plain.of_entry hs.file fun j _ hFile => ?_⟩
  · rw [hs.worldRefs]
    exact (h.fit.of_home hs.inode hs.home (hs.mounted sb h.fit.mounted)).1
  · exact hFile.congr hs.inode

theorem Stands.moved (h : Stands M m w) (hFit : Fit M (m + worldRefs w) s') (hs : Fs.Moves w.fs s') : Stands M m (setFs s' w) := by
  have hFile : ∀ f, (s'.file f).ref = (w.fs.file f).ref ∧ (s'.file f).type = (w.fs.file f).type ∧
      (s'.file f).ip = (w.fs.file f).ip ∧ (s'.file f).writable = (w.fs.file f).writable := fun f => by
    rw [hs.file f]
    exact ⟨rfl, rfl, rfl, rfl⟩
  have hSlots : Slots (setFs s' w) := by
    refine ⟨fun f hf => h.lt f fun hZero => hf ((hFile f).1.trans hZero), fun f hf => ?_, fun f hf => ?_, fun n j hj => h.cwd n j ?_, fun p hp => ?_⟩
    · obtain ⟨hType, hPipe⟩ := h.unused f ((hFile f).1.symm.trans hf)
      exact ⟨(hFile f).2.1.trans hType, hPipe⟩
    · exact (hFile f).2.1.trans (h.pipe f hf)
    · rw [← hs.proc]
      exact hj
    · rw [show (setFs s' w).fs.proc = w.fs.proc from hs.proc]
      exact h.gone p hp
  have hRefs : worldRefs (setFs s' w) = worldRefs w :=
    worldRefs_congr (fun f => inodeOf_congr (hFile f).2.1 (hFile f).2.2.1) fun n => congrArg ProcFiles.cwd (congrFun hs.proc n)
  refine ⟨hSlots, by rw [hRefs]; exact hFit, h.plain.of_entry (fun f => (hFile f).2) fun j _ hj => (hs.entry j).filelike hj⟩

theorem Stands.putFile (h : Stands M m w) (ff : File) {o : Option Nat} (hf : f < nfile) (hUnused : ff.ref = 0 → ff.type = .none ∧ o = none)
    (hPipe : o ≠ none → ff.type = .none) (hRefs : m' + inodeOf ff = m + inodeOf (w.fs.file f))
    (hPlain : ff.type = .inode → ff.writable = true → Filelike w.fs ff.ip) : Stands M m' (putFile w f ff o) := by
  have hOther : ∀ f', f' ≠ f → (Handles.putFile w f ff o).fs.file f' = w.fs.file f' := (putFile_set w f ff o).file
  have hSlots : Slots (Handles.putFile w f ff o) := by
    refine ⟨fun f' hf' => ?_, fun f' hf' => ?_, fun f' hf' => ?_, h.cwd, h.gone⟩
    all_goals
      by_cases hEq : f' = f
    · exact hEq ▸ hf
    · rw [hOther f' hEq] at hf'
      exact h.lt f' hf'
    · rw [hEq, putFile_file] at hf' ⊢
      rw [putFile_pipe]
      exact hUnused hf'
    · rw [hOther f' hEq] at hf' ⊢
      rw [(putFile_set w f ff o).pipe f' hEq]
      exact h.unused f' hf'
    · rw [hEq, putFile_pipe] at hf'
      rw [hEq, putFile_file]
      exact hPipe hf'
    · rw [hOther f' hEq]
      refine h.pipe f' fun hNone => hf' ?_
      rw [(putFile_set w f ff o).pipe f' hEq]
      exact hNone
  have hSame : m' + worldRefs (Handles.putFile w f ff o) = m + worldRefs w := by
    refine add_right_cancel (b := inodeOf (w.fs.file f)) ?_
    rw [add_assoc, worldRefs_putFile hf, add_left_comm, hRefs, add_left_comm, add_assoc]
  refine ⟨hSlots, ?_, fun f' hf' hType hWrite => ?_⟩
  · rw [hSame]
    exact (h.fit.setFile f ff).1
  · by_cases hEq : f' = f
    · rw [hEq, putFile_file] at hType hWrite ⊢
      exact (hPlain hType hWrite).congr rfl
    · rw [hOther f' hEq] at hType hWrite ⊢
      exact (h.plain f' hf' hType hWrite).congr rfl

theorem Stands.setCwd (h : Stands M m w) (m' : Multiset Nat) (p : Slot) (o : Option Nat) (hRefs : m' + atMost o = m + cwdOf (w.fs.proc p))
    (hIn : ∀ j, o = some j → j < ninode) (hGone : (w.tbl.proc p).state = .unused ∨ (w.tbl.proc p).state = .zombie → o = none) :
    Stands M m' (setFs (Fs.setCwd w.fs p o) w) := by
  have hProc : ∀ n, ((Fs.setCwd w.fs p o).proc n).cwd = if n = p then o else (w.fs.proc n).cwd := fun n => by
    by_cases hn : n = p
    · rw [if_pos hn, hn]
      exact congrArg ProcFiles.cwd (Function.update_self (p : Nat) _ w.fs.proc)
    · rw [if_neg hn]
      exact congrArg ProcFiles.cwd (Function.update_of_ne hn _ w.fs.proc)
  have hSlots : Slots (setFs (Fs.setCwd w.fs p o) w) := by
    refine ⟨h.lt, h.unused, h.pipe, fun n j hj => ?_, fun q hq => ?_⟩
    · rw [show ((setFs (Fs.setCwd w.fs p o) w).fs.proc n).cwd = _ from hProc n] at hj
      split at hj
      · exact hIn j hj
      · exact h.cwd n j hj
    · refine (hProc q).trans ?_
      split
      · rename_i hEq
        rw [Fin.ext hEq] at hq
        exact hGone hq
      · exact h.gone q hq
  have hSame : m' + worldRefs (setFs (Fs.setCwd w.fs p o) w) = m + worldRefs w := by
    refine add_right_cancel (b := cwdOf (w.fs.proc p)) ?_
    rw [add_assoc, worldRefs_setCwd, add_left_comm, hRefs, add_left_comm, add_assoc]
  refine ⟨hSlots, ?_, fun f hf hType hWrite => (h.plain f hf hType hWrite).congr rfl⟩
  rw [hSame]
  exact (h.fit.setCwd p o).1

theorem Stands.setPipe (h : Stands M m w) (q : Nat → Option Pipe) : Stands M m { w with pipe := q } :=
  ⟨⟨h.lt, h.unused, h.pipe, h.cwd, h.gone⟩, h.fit, h.plain⟩

theorem Stands.setTbl (h : Stands M m w) {t : Ptable} (hGone : ∀ q, (t.proc q).state = .unused ∨ (t.proc q).state = .zombie →
      (w.tbl.proc q).state = .unused ∨ (w.tbl.proc q).state = .zombie ∨ (w.fs.proc q).cwd = none) : Stands M m { w with tbl := t } := by
  refine ⟨⟨h.lt, h.unused, h.pipe, h.cwd, fun q hq => ?_⟩, h.fit, h.plain⟩
  rcases hGone q hq with hUnused | hZombie | hNone
  · exact h.gone q (Or.inl hUnused)
  · exact h.gone q (Or.inr hZombie)
  · exact hNone

end Stands

end Xv6Rpi.Handles
