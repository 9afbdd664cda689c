import Xv6Rpi.Fs.Counted
import Xv6Rpi.Handles.World

/-! # What belongs to a process

A process has the references that its descriptors and its current directory stand for, and those that it has taken
in a call and not yet given up or given on. The counts in the file table and in the inode cache, and the pipes, are tied to
what all processes have; a call that keeps this tie leaves its process with nothing but its descriptors and its directory.
-/

namespace Xv6Rpi.Handles

open Fs (Kern FsM File ProcFiles nfile nofile ninode)
open Pipes (Pipe Side)
open Sched (Ptable Slot ProcState)

/-- What belongs to a process: whether it is in a call, what it has open, its references to files and inodes, the files that it
is setting up, the ends of pipes that it has in hand, the pipes that it is about to free, the pipe that it uses through
an open file, and the child that it is making. -/
structure Share where
  calling : Bool
  slots : ProcFiles
  files : Multiset Nat
  made : Set Nat
  inodes : Multiset Nat
  ends : Multiset (Nat × Side)
  frees : Multiset Nat
  uses : Option (Nat × Nat)
  child : Option (Slot × ProcFiles)

def held (v : ProcFiles) : Multiset Nat := ∑ fd ∈ Finset.range nofile, (v.ofile fd).elim 0 ({·})

def cwdOf (v : ProcFiles) : Multiset Nat := v.cwd.elim 0 ({·})

structure NoFiles (v : ProcFiles) : Prop where
  ofile : ∀ fd < nofile, v.ofile fd = none
  cwd : v.cwd = none

/-- All that the process has is what its descriptors and its current directory stand for. -/
structure AtRest (y : Share) : Prop where
  files : y.files = held y.slots
  made : y.made = ∅
  inodes : y.inodes = cwdOf y.slots
  ends : y.ends = 0
  frees : y.frees = 0
  child : y.child = none

def all {M : Type} [AddCommMonoid M] (φ : Share → M) (g : Slot → Share) : M := ∑ p, φ (g p)

section All

variable {M : Type} [AddCommMonoid M] {φ : Share → M} {g : Slot → Share} {p : Slot} {y : Share}

theorem all_update (φ : Share → M) (g : Slot → Share) (p : Slot) (y : Share) :
    all φ (Function.update g p y) + φ (g p) = all φ g + φ y := by
  have hEq : (fun q => φ (Function.update g p y q)) = Function.update (fun q => φ (g q)) p (φ y) :=
    Function.comp_update φ g p y
  rw [all, hEq]
  exact Fs.sum_update_add (fun q => φ (g q)) p (φ y)

theorem all_same (h : φ y = φ (g p)) : all φ (Function.update g p y) = all φ g := by
  refine Finset.sum_congr rfl fun q _ => ?_
  by_cases hq : q = p
  · rw [hq, Function.update_self, h]
  · rw [Function.update_of_ne hq]

theorem mem_all {α : Type} {φ : Share → Multiset α} {a : α} (h : a ∈ φ (g p)) : a ∈ all φ g :=
  Multiset.mem_sum.mpr ⟨p, Finset.mem_univ p, h⟩

theorem count_le_all {α : Type} [DecidableEq α] (φ : Share → Multiset α) (g : Slot → Share) (p : Slot) (a : α) :
    (φ (g p)).count a ≤ (all φ g).count a :=
  Multiset.count_le_of_le a (Finset.single_le_sum (fun _ _ => Multiset.zero_le _) (Finset.mem_univ p))

theorem count_add_le_all {α : Type} [DecidableEq α] (φ : Share → Multiset α) (g : Slot → Share) {p q : Slot} (hNe : p ≠ q) (a : α) :
    (φ (g p)).count a + (φ (g q)).count a ≤ (all φ g).count a := by
  have hSub : ∑ r ∈ {p, q}, φ (g r) ≤ all φ g :=
    Finset.sum_le_sum_of_subset (Finset.subset_univ _)
  rw [Finset.sum_pair hNe] at hSub
  rw [← Multiset.count_add]
  exact Multiset.count_le_of_le a hSub

end All

section Parts

def inodeOf (ff : File) : Multiset Nat := if ff.type = .inode then {ff.ip} else 0

def endOf (ff : File) (pi : Option Nat) : Multiset (Nat × Side) := pi.elim 0 fun pi => {(pi, sideOf ff)}

def fileInodes (w : World) : Multiset Nat := ∑ f ∈ Finset.range nfile, inodeOf (w.fs.file f)

def fileEnds (w : World) : Multiset (Nat × Side) := ∑ f ∈ Finset.range nfile, endOf (w.fs.file f) (w.pipeOf f)

def isOpen (q : Pipe) : Side → Bool
  | .read => q.readopen
  | .write => q.writeopen

/-- The reference counts of the file table are those of `m`, and an unused file has no type. -/
structure FilesInv (w : World) (m : Multiset Nat) : Prop where
  ref : ∀ f, (w.fs.file f).ref = m.count f
  lt : ∀ f ∈ m, f < nfile
  unused : ∀ f, (w.fs.file f).ref = 0 → (w.fs.file f).type = .none ∧ w.pipeOf f = none
  pipe : ∀ f, w.pipeOf f ≠ none → (w.fs.file f).type = .none

/-- The reference counts of the inode cache are those of `m`. -/
structure InodesInv (w : World) (m : Multiset Nat) : Prop where
  ref : ∀ j < ninode, (w.fs.inode j).ref = m.count j
  lt : ∀ j ∈ m, j < ninode

/-- There is one of each open end of a pipe, and both ends of a pipe are closed only when it is about to be freed. -/
structure PipesInv (w : World) (m : Multiset (Nat × Side)) (d : Multiset Nat) : Prop where
  ends : ∀ pi side, m.count (pi, side) = if (w.pipe pi).any (isOpen · side) then 1 else 0
  frees : ∀ pi, d.count pi = if (w.pipe pi).any bothClosed then 1 else 0

def Live (s : ProcState) : Prop := s = .sleeping ∨ s = .runnable ∨ s = .running

/-- What a process has open is what its share says; a process that is not in a call is at rest, a slot without
a process has nothing, and a child that is being made belongs to one process. -/
structure ProcsInv (w : World) (g : Slot → Share) : Prop where
  slots : ∀ p : Slot, w.fs.proc p = (g p).slots
  rest : ∀ p, (g p).calling = false → AtRest (g p) ∧ (g p).uses = none
  live : ∀ p, (g p).calling = true → Live (w.tbl.proc p).state
  dead : ∀ p, (w.tbl.proc p).state = .unused ∨ (w.tbl.proc p).state = .zombie → NoFiles (g p).slots
  child : ∀ p q v, (g p).child = some (q, v) → (w.tbl.proc q).state = .embryo ∧ (g q).slots = v
  one : ∀ p p' q v v', (g p).child = some (q, v) → (g p').child = some (q, v') → p = p'
  cwd : ∀ n j, (w.fs.proc n).cwd = some j → j < ninode

structure KnowsInv (w : World) (y : Share) : Prop where
  made : ∀ f ∈ y.made, f ∈ y.files ∧ (w.fs.file f).ref = 1 ∧ (w.fs.file f).type = .none ∧ w.pipeOf f = none
  uses : ∀ f pi, y.uses = some (f, pi) → f ∈ y.files ∧ w.pipeOf f = some pi

end Parts

structure Owned (w : World) (g : Slot → Share) : Prop where
  files : FilesInv w (all Share.files g)
  inodes : InodesInv w (fileInodes w + all Share.inodes g)
  pipes : PipesInv w (fileEnds w + all Share.ends g) (all Share.frees g)
  procs : ProcsInv w g
  knows : ∀ p, KnowsInv w (g p)

def worldSharing : Sharing World Halt Unit Slot Share := ⟨fun w _ g => Owned w g, fun y => y.calling = false, fun e => e = .freed⟩

section Frame

variable {w w' : World} {g : Slot → Share} {p q : Slot} {f : Nat} {y : Share}

theorem FilesInv.congr {m : Multiset Nat} (h : FilesInv w m) (hRef : ∀ f, (w'.fs.file f).ref = (w.fs.file f).ref)
    (hType : ∀ f, (w'.fs.file f).type = (w.fs.file f).type) (hPipe : w'.pipeOf = w.pipeOf) : FilesInv w' m where
  ref f := (hRef f).trans (h.ref f)
  lt := h.lt
  unused f hf := by
    rw [hType, hPipe]
    exact h.unused f (hRef f ▸ hf)
  pipe f hf := by
    rw [hType]
    exact h.pipe f (hPipe ▸ hf)

theorem InodesInv.congr {m : Multiset Nat} (h : InodesInv w m) (hInode : w'.fs.inode = w.fs.inode) : InodesInv w' m :=
  ⟨fun j hj => by rw [hInode]; exact h.ref j hj, h.lt⟩

theorem PipesInv.congr {m : Multiset (Nat × Side)} {d : Multiset Nat} (h : PipesInv w m d) (hPipe : w'.pipe = w.pipe) :
    PipesInv w' m d :=
  ⟨fun pi side => by rw [hPipe]; exact h.ends pi side, fun pi => by rw [hPipe]; exact h.frees pi⟩

theorem ProcsInv.congr (h : ProcsInv w g) (hProc : w'.fs.proc = w.fs.proc) (hTbl : w'.tbl = w.tbl) : ProcsInv w' g where
  slots p := by
    rw [hProc]
    exact h.slots p
  rest := h.rest
  live p hp := by
    rw [hTbl]
    exact h.live p hp
  dead p hp := h.dead p (by rwa [hTbl] at hp)
  child p q v hp := by
    rw [hTbl]
    exact h.child p q v hp
  one := h.one
  cwd n j hj := h.cwd n j (by rwa [hProc] at hj)

theorem ProcsInv.update (h : ProcsInv w g) (hCalling : (g p).calling = true) (hy : y.calling = true)
    (hSlots : y.slots = (g p).slots) (hChild : y.child = (g p).child) : ProcsInv w (Function.update g p y) := by
  have hSlots' : ∀ q, (Function.update g p y q).slots = (g q).slots := fun q => by
    by_cases hq : q = p
    · rw [hq, Function.update_self, hSlots]
    · rw [Function.update_of_ne hq]
  have hChild' : ∀ q, (Function.update g p y q).child = (g q).child := fun q => by
    by_cases hq : q = p
    · rw [hq, Function.update_self, hChild]
    · rw [Function.update_of_ne hq]
  refine ⟨fun q => ?_, fun q hq => ?_, fun q hq => ?_, fun q hq => ?_, fun q r v hq => ?_, fun q q' r v v' hq hq' => ?_, h.cwd⟩
  · rw [hSlots', h.slots]
  · by_cases hqp : q = p
    · rw [hqp, Function.update_self, hy] at hq
      cases hq
    · rw [Function.update_of_ne hqp] at hq ⊢
      exact h.rest q hq
  · by_cases hqp : q = p
    · rw [hqp]
      exact h.live p hCalling
    · rw [Function.update_of_ne hqp] at hq
      exact h.live q hq
  · rw [hSlots']
    exact h.dead q hq
  · rw [hChild'] at hq
    rw [hSlots']
    exact h.child q r v hq
  · rw [hChild'] at hq hq'
    exact h.one q q' r v v' hq hq'

theorem KnowsInv.congr (h : KnowsInv w y)
    (hMade : ∀ f ∈ y.made, (w'.fs.file f).ref = (w.fs.file f).ref ∧ (w'.fs.file f).type = (w.fs.file f).type)
    (hPipe : ∀ f ∈ y.files, w'.pipeOf f = w.pipeOf f) : KnowsInv w' y where
  made f hf := by
    obtain ⟨hIn, hKnows⟩ := h.made f hf
    rw [(hMade f hf).1, (hMade f hf).2, hPipe f hIn]
    exact ⟨hIn, hKnows⟩
  uses f pi hf := by
    obtain ⟨hIn, hKnows⟩ := h.uses f pi hf
    rw [hPipe f hIn]
    exact ⟨hIn, hKnows⟩

theorem knows_update {φ : Share → Prop} (h : ∀ q, q ≠ p → φ (g q)) (hy : φ y) (q : Slot) : φ (Function.update g p y q) := by
  by_cases hq : q = p
  · rw [hq, Function.update_self]
    exact hy
  · rw [Function.update_of_ne hq]
    exact h q hq

structure SetFile (w w' : World) (f : Nat) : Prop where
  file : ∀ f', f' ≠ f → w'.fs.file f' = w.fs.file f'
  pipe : ∀ f', f' ≠ f → w'.pipeOf f' = w.pipeOf f'

theorem SetFile.inodes (h : SetFile w w' f) (hf : f < nfile) :
    fileInodes w' + inodeOf (w.fs.file f) = fileInodes w + inodeOf (w'.fs.file f) := by
  have hRest : ∑ i ∈ (Finset.range nfile).erase f, inodeOf (w'.fs.file i) = ∑ i ∈ (Finset.range nfile).erase f, inodeOf (w.fs.file i) :=
    Finset.sum_congr rfl fun i hi => by rw [h.file i (Finset.ne_of_mem_erase hi)]
  rw [fileInodes, fileInodes, ← Finset.add_sum_erase _ (fun i => inodeOf (w'.fs.file i)) (Finset.mem_range.mpr hf), hRest,
    ← Finset.add_sum_erase _ (fun i => inodeOf (w.fs.file i)) (Finset.mem_range.mpr hf)]
  abel

theorem SetFile.ends (h : SetFile w w' f) (hf : f < nfile) :
    fileEnds w' + endOf (w.fs.file f) (w.pipeOf f) = fileEnds w + endOf (w'.fs.file f) (w'.pipeOf f) := by
  have hRest : ∑ i ∈ (Finset.range nfile).erase f, endOf (w'.fs.file i) (w'.pipeOf i) =
      ∑ i ∈ (Finset.range nfile).erase f, endOf (w.fs.file i) (w.pipeOf i) :=
    Finset.sum_congr rfl fun i hi => by rw [h.file i (Finset.ne_of_mem_erase hi), h.pipe i (Finset.ne_of_mem_erase hi)]
  rw [fileEnds, fileEnds, ← Finset.add_sum_erase _ (fun i => endOf (w'.fs.file i) (w'.pipeOf i)) (Finset.mem_range.mpr hf), hRest,
    ← Finset.add_sum_erase _ (fun i => endOf (w.fs.file i) (w.pipeOf i)) (Finset.mem_range.mpr hf)]
  abel

theorem SetFile.filesInv {m m' : Multiset Nat} (hs : SetFile w w' f) (h : FilesInv w m) (hf : f < nfile)
    (hCount : ∀ f', f' ≠ f → m'.count f' = m.count f') (hRef : (w'.fs.file f).ref = m'.count f)
    (hUnused : (w'.fs.file f).ref = 0 → (w'.fs.file f).type = .none ∧ w'.pipeOf f = none)
    (hPipe : w'.pipeOf f ≠ none → (w'.fs.file f).type = .none) : FilesInv w' m' := by
  refine ⟨fun f' => ?_, fun f' hf' => ?_, fun f' hf' => ?_, fun f' hf' => ?_⟩
  · by_cases hEq : f' = f
    · rw [hEq, hRef]
    · rw [hs.file f' hEq, hCount f' hEq, h.ref]
  · by_cases hEq : f' = f
    · rwa [hEq]
    · rw [← Multiset.count_pos, hCount f' hEq, Multiset.count_pos] at hf'
      exact h.lt f' hf'
  · by_cases hEq : f' = f
    · rw [hEq] at hf' ⊢
      exact hUnused hf'
    · rw [hs.file f' hEq] at hf' ⊢
      rw [hs.pipe f' hEq]
      exact h.unused f' hf'
  · by_cases hEq : f' = f
    · rw [hEq] at hf' ⊢
      exact hPipe hf'
    · rw [hs.pipe f' hEq] at hf'
      rw [hs.file f' hEq]
      exact h.pipe f' hf'

theorem Owned.only (h : Owned w g) (hRef : (w.fs.file f).ref = 1) (hp : f ∈ (g p).files) (hNe : q ≠ p) : f ∉ (g q).files := by
  intro hq
  have hLe := count_add_le_all Share.files g hNe.symm f
  rw [← h.files.ref f, hRef] at hLe
  have hp' := Multiset.count_pos.mpr hp
  have hq' := Multiset.count_pos.mpr hq
  omega

theorem Owned.congr (h : Owned w g) (hRef : ∀ f, (w'.fs.file f).ref = (w.fs.file f).ref)
    (hType : ∀ f, (w'.fs.file f).type = (w.fs.file f).type) (hIp : ∀ f, (w'.fs.file f).ip = (w.fs.file f).ip)
    (hSide : ∀ f, (w'.fs.file f).writable = (w.fs.file f).writable) (hProc : w'.fs.proc = w.fs.proc)
    (hInode : ∀ j, (w'.fs.inode j).ref = (w.fs.inode j).ref) (hTbl : w'.tbl = w.tbl) (hPipeOf : w'.pipeOf = w.pipeOf)
    (hOpen : ∀ pi side, (w'.pipe pi).any (isOpen · side) = (w.pipe pi).any (isOpen · side))
    (hBoth : ∀ pi, (w'.pipe pi).any bothClosed = (w.pipe pi).any bothClosed) : Owned w' g := by
  have hInodes : fileInodes w' = fileInodes w := Finset.sum_congr rfl fun f _ => by rw [inodeOf, inodeOf, hType, hIp]
  have hEnds : fileEnds w' = fileEnds w := Finset.sum_congr rfl fun f _ => by rw [endOf, endOf, sideOf, sideOf, hSide, hPipeOf]
  refine ⟨h.files.congr hRef hType hPipeOf, ⟨fun j hj => ?_, ?_⟩, ⟨fun pi side => ?_, fun pi => ?_⟩, h.procs.congr hProc hTbl,
    fun p => (h.knows p).congr (fun f _ => ⟨hRef f, hType f⟩) fun f _ => congrFun hPipeOf f⟩
  · rw [hInodes, hInode, h.inodes.ref j hj]
  · rw [hInodes]
    exact h.inodes.lt
  · rw [hEnds, hOpen, h.pipes.ends]
  · rw [hBoth, h.pipes.frees]

end Frame

end Xv6Rpi.Handles
