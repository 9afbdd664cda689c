import Xv6Rpi.Handles.Calls

/-! # Reference counts are exact

Processes make system calls and the actions of the calls interleave. Whenever nobody is in a call that has something
in hand, the counts are those of what the descriptors and the current directories name, and the pipes are those that an open
file names. Nobody ever uses or frees a pipe that is not allocated.
-/

namespace Xv6Rpi.Handles

open Fs (Kern File ProcFiles nfile nofile ninode)
open Pipes (Pipe Side)
open Prog Sharing
open Sched (Ptable Slot ProcState)

def Call.rests : Call → Bool
  | .read _ _ | .write _ _ | .wait | .kill _ | .sleep _ => true
  | _ => false

abbrev System := Crowd World Halt Fs.Label Slot Call Int

def Starts (w : World) (p : Slot) (k : Call) (x : WM Int) : Prop := Live (w.tbl.proc p).state ∧ x = k.prog p

abbrev Reaches : System → System → Prop := Relation.ReflTransGen (Crowd.Step Starts)

section Calls

variable {p : Slot} {y : Share} {k : Call}

theorem does_call (h : Rests y) (hUses : y.uses = none) (k : Call) :
    Does (fun y => k.rests = true → AtRest y) p (k.prog p) y fun _ y' => y'.calling = false ∨ Rests y' := by
  have hL := Fs.shares_ledger (some p)
  have hBalanced : ∀ {x : Fs.FsM Int} {P : Share → Prop}, (∀ y, P y) → (∀ m : Multiset Nat, Fs.Shares (some p) x m fun _ m' => m' = m) →
      Does P p (onFs x) y fun _ y' => y'.calling = false ∨ Rests y' := fun hP hx => (does_balanced hP h hx).mono fun _ _ => Or.inr
  have hRests : ∀ y, Rests y → k.rests = true → AtRest y := fun _ hy _ => hy.rest
  cases k with
  | dup fd => exact (does_sysDup (fun _ hNo => by cases hNo) h).mono fun _ _ => Or.inr
  | read fd n => exact (does_sysRead hRests h).mono fun _ _ => Or.inr
  | write fd src => exact (does_sysWrite hRests h).mono fun _ _ => Or.inr
  | close fd => exact (does_sysClose (fun _ hNo => by cases hNo) h hUses).mono fun _ _ => Or.inr
  | pipe arg mem => exact (does_sysPipe (fun _ hNo => by cases hNo) h hUses).mono fun _ _ => Or.inr
  | link old new => exact hBalanced (fun _ hNo => by cases hNo) fun m => hL.sysLink fun _ => rfl
  | unlink path => exact hBalanced (fun _ hNo => by cases hNo) fun m => hL.sysUnlink fun _ => rfl
  | «open» path omode => exact (does_sysOpen (fun _ hNo => by cases hNo) h hUses).mono fun _ _ => Or.inr
  | mkdir path => exact hBalanced (fun _ hNo => by cases hNo) fun m => hL.makeNode fun _ => rfl
  | mknod path major minor => exact hBalanced (fun _ hNo => by cases hNo) fun m => hL.makeNode fun _ => rfl
  | chdir path => exact (does_sysChdir (fun _ hNo => by cases hNo) h).mono fun _ _ => Or.inr
  | exec path mem => exact hBalanced (fun _ hNo => by cases hNo) fun m => hL.exec fun _ => rfl
  | fork kstack pgdir => exact (does_fork (fun _ hNo => by cases hNo) h hUses).mono fun _ _ => Or.inr
  | exit => exact (does_exitCall (fun _ hNo => by cases hNo) h hUses).mono fun _ _ => Or.inl
  | wait => exact does_wait (hRests y h) h.calling h.rest.child fun _ => Or.inr h
  | kill pid => exact does_kill (hRests y h) h.calling fun _ => Or.inr h
  | sleep done => exact does_getW (hRests y h) h.calling fun _ _ _ _ => Or.inr h

theorem fair_calls : Crowd.Fair worldSharing (fun k y => k.rests = true → AtRest y) (fun _ _ y => Rests y) Starts where
  start w _ g p k x h hIdle hStart := by
    obtain ⟨hLive, rfl⟩ := hStart
    obtain ⟨hRest, hUses⟩ := h.procs.rest p hIdle
    let y : Share := { g p with calling := true }
    have hOwned : Owned w (Function.update g p y) := h.setTable (t := w.tbl) rfl rfl rfl rfl rfl rfl (Or.inl rfl) (h.procs.enter rfl hLive)
    have hRests : Rests y := ⟨rfl, hRest.files, hRest.made, hRest.inodes, hRest.ends, hRest.frees, hRest.child⟩
    refine ⟨_, hOwned, others_update p g y, ?_⟩
    rw [Function.update_self]
    exact does_call hRests hUses k
  ends w _ g p k r h hRests := by
    let y : Share := { g p with calling := false, uses := none }
    have hLive := h.procs.live p hRests.calling
    have hProcs : ProcsInv w (Function.update g p y) := h.procs.leave rfl hRests.calling hRests.rest
      (fun hDead => absurd hLive (not_live_of_dead hDead)) rfl fun _ _ => Or.inl rfl
    have hOwned : Owned w (Function.update g p y) := h.setTable (t := w.tbl) rfl rfl rfl rfl rfl rfl (Or.inr rfl) hProcs
    refine ⟨_, hOwned, others_update p g y, ?_⟩
    rw [Function.update_self]
    rfl

end Calls

section Exact

def descriptors (w : World) (f : Nat) : Finset (Slot × Fin nofile) := Finset.univ.filter fun d => (w.fs.proc d.1).ofile d.2 = some f

def inodeFiles (w : World) (j : Nat) : Finset (Fin nfile) :=
  Finset.univ.filter fun f => (w.fs.file f).type = .inode ∧ (w.fs.file f).ip = j

def cwds (w : World) (j : Nat) : Finset Slot := Finset.univ.filter fun p => (w.fs.proc p).cwd = some j

/-- All reference counts are exact, and the pipes that are allocated are those that an open file refers to. -/
structure Exact (w : World) : Prop where
  file : ∀ f, (w.fs.file f).ref = (descriptors w f).card
  unused : ∀ f, (w.fs.file f).ref = 0 → (w.fs.file f).type = .none ∧ w.pipeOf f = none
  inode : ∀ j < ninode, (w.fs.inode j).ref = (inodeFiles w j).card + (cwds w j).card
  pipe : ∀ pi, (w.pipe pi).isSome ↔ ∃ f, 0 < (w.fs.file f).ref ∧ w.pipeOf f = some pi

variable {w : World} {g : Slot → Share}

theorem count_atMost (o : Option Nat) (a : Nat) : (atMost o).count a = if o = some a then 1 else 0 := by
  cases o with
  | none => rfl
  | some b =>
    change Multiset.count a {b} = _
    rw [Multiset.count_singleton, if_congr (Option.some_inj.trans eq_comm) rfl rfl]

theorem count_held (v : ProcFiles) (f : Nat) : (held v).count f = ∑ fd : Fin nofile, if v.ofile fd = some f then 1 else 0 := by
  change Multiset.count f (∑ fd ∈ Finset.range nofile, atMost (v.ofile fd)) = _
  rw [Multiset.count_sum', Finset.sum_range]
  exact Finset.sum_congr rfl fun fd _ => count_atMost _ f

theorem card_descriptors (w : World) (f : Nat) : (descriptors w f).card = ∑ p : Slot, (held (w.fs.proc p)).count f := by
  rw [descriptors, Finset.card_filter, Fintype.sum_prod_type]
  exact Finset.sum_congr rfl fun p _ => (count_held _ f).symm

theorem card_cwds (w : World) (j : Nat) : (cwds w j).card = ∑ p : Slot, (cwdOf (w.fs.proc p)).count j := by
  rw [cwds, Finset.card_filter]
  exact Finset.sum_congr rfl fun p _ => (count_atMost _ j).symm

theorem card_inodeFiles (w : World) (j : Nat) : (inodeFiles w j).card = (fileInodes w).count j := by
  rw [inodeFiles, Finset.card_filter, fileInodes, Multiset.count_sum', Finset.sum_range]
  refine Finset.sum_congr rfl fun f _ => ?_
  rw [inodeOf]
  by_cases hType : (w.fs.file f).type = .inode
  · rw [if_pos hType, Multiset.count_singleton]
    exact if_congr ((and_iff_right hType).trans eq_comm) rfl rfl
  · rw [if_neg hType, if_neg fun h => hType h.1]
    rfl

theorem mem_fileEnds {x : Nat × Side} (h : x ∈ fileEnds w) : ∃ f < nfile, w.pipeOf f = some x.1 := by
  obtain ⟨f, hf, hMem⟩ := Multiset.mem_sum.mp h
  refine ⟨f, Finset.mem_range.mp hf, ?_⟩
  cases hPi : w.pipeOf f with
  | none =>
    rw [hPi] at hMem
    exact absurd hMem (Multiset.notMem_zero x)
  | some pi =>
    rw [hPi] at hMem
    rw [Multiset.mem_singleton.mp hMem]

theorem Owned.exact (h : Owned w g) (hRest : ∀ p, AtRest (g p)) : Exact w where
  file f := by
    rw [h.files.ref f, all, Multiset.count_sum', card_descriptors]
    refine Finset.sum_congr rfl fun p _ => ?_
    rw [(hRest p).files, h.procs.slots p]
  unused := h.files.unused
  inode j hj := by
    have hInodes : (all Share.inodes g).count j = (cwds w j).card := by
      rw [all, Multiset.count_sum', card_cwds]
      refine Finset.sum_congr rfl fun p _ => ?_
      rw [(hRest p).inodes, h.procs.slots p]
    rw [h.inodes.ref j hj, Multiset.count_add, hInodes, card_inodeFiles, Nat.cast_add]
  pipe pi := by
    have hEnds : all Share.ends g = 0 := Finset.sum_eq_zero fun p _ => (hRest p).ends
    have hFrees : all Share.frees g = 0 := Finset.sum_eq_zero fun p _ => (hRest p).frees
    have hPipes := h.pipes
    rw [hEnds, hFrees, add_zero] at hPipes
    constructor
    · intro hSome
      obtain ⟨q, hPi⟩ := Option.isSome_iff_exists.mp hSome
      have hBoth : bothClosed q = false := by
        have hNone := hPipes.frees pi
        by_contra hNot
        rw [hPi, Option.any_some, Bool.eq_true_of_not_eq_false hNot, if_pos rfl] at hNone
        cases hNone
      have hOpen : ∃ side, Handles.isOpen q side = true := by
        cases hRead : q.readopen with
        | true => exact ⟨.read, hRead⟩
        | false =>
          rw [bothClosed, hRead, Bool.not_false, Bool.true_and, Bool.not_eq_false'] at hBoth
          exact ⟨.write, hBoth⟩
      obtain ⟨side, hSide⟩ := hOpen
      have hOne := hPipes.ends pi side
      rw [hPi, Option.any_some, if_pos hSide] at hOne
      obtain ⟨f, -, hf⟩ := mem_fileEnds (Multiset.count_pos.mp (hOne ▸ Nat.one_pos))
      refine ⟨f, Nat.pos_of_ne_zero fun hZero => ?_, hf⟩
      rw [(h.files.unused f hZero).2] at hf
      cases hf
    · rintro ⟨f, hRef, hf⟩
      rw [h.files.ref f] at hRef
      have hLt := h.files.lt f (Multiset.count_pos.mp hRef)
      have hMem : (pi, sideOf (w.fs.file f)) ∈ fileEnds w :=
        Multiset.mem_sum.mpr ⟨f, Finset.mem_range.mpr hLt, by rw [hf]; exact Multiset.mem_singleton_self _⟩
      have hPos := Multiset.count_pos.mpr hMem
      cases hPi : w.pipe pi with
      | some q => rfl
      | none =>
        rw [hPipes.ends, hPi] at hPos
        exact absurd hPos (lt_irrefl 0)

end Exact

section Boot

/-- The state in which the first process starts: it has a current directory, and nothing is open. -/
structure Booted (w : World) : Prop where
  file : ∀ f, (w.fs.file f).ref = 0 ∧ (w.fs.file f).type = .none ∧ w.pipeOf f = none
  pipe : ∀ pi, w.pipe pi = none
  root : ∃ ip < ninode, (∀ n, w.fs.proc n = ⟨fun _ => none, if n = 0 then some ip else none⟩) ∧
    ∀ j, (w.fs.inode j).ref = if j = ip then 1 else 0
  tbl : ∃ kstack pgdir, w.tbl = Ptable.userinit kstack pgdir

def bootShare (w : World) (p : Slot) : Share := ⟨false, w.fs.proc p, 0, ∅, cwdOf (w.fs.proc p), 0, 0, none, none⟩

theorem Booted.owned {w : World} (h : Booted w) : Owned w (bootShare w) := by
  obtain ⟨ip, hIp, hProc, hRef⟩ := h.root
  obtain ⟨kstack, pgdir, hTbl⟩ := h.tbl
  have hZero : w.fs.proc 0 = ⟨fun _ => none, some ip⟩ := hProc 0
  have hOther : ∀ n, n ≠ 0 → w.fs.proc n = ⟨fun _ => none, none⟩ := fun n hn => by rw [hProc, if_neg hn]
  have hFiles : all Share.files (bootShare w) = 0 := Finset.sum_eq_zero fun _ _ => rfl
  have hEnds : all Share.ends (bootShare w) = 0 := Finset.sum_eq_zero fun _ _ => rfl
  have hFrees : all Share.frees (bootShare w) = 0 := Finset.sum_eq_zero fun _ _ => rfl
  have hInodes : all Share.inodes (bootShare w) = {ip} := by
    have hInit : (bootShare w 0).inodes = {ip} := congrArg cwdOf hZero
    rw [← hInit]
    refine Fintype.sum_eq_single (0 : Slot) fun p hp => ?_
    exact congrArg cwdOf (hOther p fun hEq => hp (Fin.ext hEq))
  have hFileInodes : fileInodes w = 0 := Finset.sum_eq_zero fun f _ => if_neg (by rw [(h.file f).2.1]; decide)
  have hFileEnds : fileEnds w = 0 := Finset.sum_eq_zero fun f _ => by rw [(h.file f).2.2]; rfl
  have hHeld : ∀ p : Slot, held (w.fs.proc p) = 0 := fun p => Finset.sum_eq_zero fun fd _ => by rw [hProc]; rfl
  have hFilesInv : FilesInv w 0 := ⟨fun f => (h.file f).1.trans (Multiset.count_zero f).symm, fun f hf => absurd hf (Multiset.notMem_zero f),
    fun f _ => (h.file f).2, fun f hf => absurd (h.file f).2.2 hf⟩
  have hInodesInv : InodesInv w {ip} := by
    refine ⟨fun j _ => ?_, fun j hj => by rw [Multiset.mem_singleton.mp hj]; exact hIp⟩
    rw [hRef, Multiset.count_singleton]
    by_cases hj : j = ip
    · rw [if_pos hj, if_pos hj]
      rfl
    · rw [if_neg hj, if_neg hj]
      rfl
  have hPipesInv : PipesInv w 0 0 := ⟨fun pi side => by rw [h.pipe pi]; rfl, fun pi => by rw [h.pipe pi]; rfl⟩
  refine ⟨by rw [hFiles]; exact hFilesInv, by rw [hFileInodes, hInodes, zero_add]; exact hInodesInv,
    by rw [hFileEnds, hEnds, hFrees]; exact hPipesInv, ⟨fun p => rfl, fun p _ => ?_, fun p hp => ?_, fun p hp => ?_, fun p q v hp => ?_,
    fun p p' q v v' hp _ => ?_, fun n j hj => ?_⟩, fun p => ⟨fun f hf => absurd hf (Set.notMem_empty f), fun f pi hf => ?_⟩⟩
  · exact ⟨⟨(hHeld p).symm, rfl, rfl, rfl, rfl, rfl⟩, rfl⟩
  · cases hp
  · have hNot : p ≠ 0 := fun hEq => by
      rw [hTbl, hEq] at hp
      rcases hp with hp | hp <;> cases hp
    change NoFiles (w.fs.proc p)
    rw [hOther p fun hEq => hNot (Fin.ext hEq)]
    exact ⟨fun _ _ => rfl, rfl⟩
  · cases hp
  · cases hp
  · by_cases hn : n = 0
    · rw [hn, hZero] at hj
      cases hj
      exact hIp
    · rw [hOther n hn] at hj
      cases hj
  · cases hf

end Boot

section Reached

variable {w : World} {c : System}

theorem Booted.reached (h : Booted w) (hRun : Reaches ⟨w, fun _ => none⟩ c) :
    ∃ g, Crowd.Inv worldSharing (fun k y => k.rests = true → AtRest y) (fun _ _ y => Rests y) c () g := by
  have hStart : Crowd.Inv worldSharing (fun k y => k.rests = true → AtRest y) (fun _ _ y => Rests y) (⟨w, fun _ => none⟩ : System) ()
      (bootShare w) := ⟨h.owned, fun _ => rfl⟩
  exact hStart.run fair_calls hRun

/-- Nobody is in a call that may have something in hand. -/
def Resting (c : System) : Prop := ∀ p k x, c.prog p = some (k, x) → k.rests = true

/-- In every run of calls of all processes, with all their failures, the reference counts are exact whenever nobody is in a call
that may have something in hand, and no pipe is used or freed that is not allocated. -/
theorem handles_exact (h : Booted w) (hRun : Reaches ⟨w, fun _ => none⟩ c) :
    (Resting c → Exact c.state) ∧
    ∀ (p : Slot) (k : Call) (β : Type) (l : Fs.Label) (f : World → Except Halt (β × World)) (r : β → WM Int),
      c.prog p = some (k, .act l f r) → f c.state ≠ .error .freed := by
  obtain ⟨g, hInv⟩ := h.reached hRun
  constructor
  · intro hResting
    refine hInv.inv.exact fun p => ?_
    have hBusy := hInv.busy p
    cases hProg : c.prog p with
    | none =>
      rw [hProg] at hBusy
      exact (hInv.inv.procs.rest p hBusy).1
    | some q =>
      obtain ⟨k, x⟩ := q
      have hRests := hResting p k x hProg
      rw [hProg] at hBusy
      cases x with
      | pure r =>
        rcases hBusy with hIdle | hEnd
        · exact (hInv.inv.procs.rest p hIdle).1
        · exact hEnd.rest
      | act l f r => exact hBusy.1 hRests
  · intro p k β l f r hProg hf
    exact hInv.not_bad hProg hf rfl

end Reached

section Example

def bootWorld : World where
  fs := {
    disk := fun _ => Fs.zeroBlock
    held := fun _ => false
    log := ⟨0, 0, false, 0, fun _ => 0⟩
    inode := fun j => ⟨1, if j = 0 then 1 else 0, false, false, Fs.Dinode.zero⟩
    file := fun _ => ⟨.none, 0, false, false, 0, 0⟩
    proc := fun n => ⟨fun _ => none, if n = 0 then some 0 else none⟩
    devsw := fun _ => none }
  tbl := Ptable.userinit 1 1
  pipeOf := fun _ => none
  pipe := fun _ => none

def after (k : Call) (w : World) : World := match (k.prog 0).run w with
  | .ok (_, w') => w'
  | .error _ => w

theorem after_run {k : Call} {w : World} (h : ((k.prog 0).run w).toOption.isSome = true) :
    ∃ a, (k.prog 0).run w = .ok (a, after k w) := by
  rw [after]
  cases hRun : (k.prog 0).run w with
  | error e =>
    rw [hRun] at h
    cases h
  | ok r => exact ⟨r.1, rfl⟩

theorem reaches_after {k : Call} {w : World} (hLive : Live (w.tbl.proc 0).state)
    (h : ((k.prog 0).run w).toOption.isSome = true) : Reaches ⟨w, fun _ => none⟩ ⟨after k w, fun _ => none⟩ := by
  obtain ⟨a, hRun⟩ := after_run h
  exact Crowd.call (c := ⟨w, fun _ => none⟩) (h := 0) (k := k) rfl ⟨hLive, rfl⟩ hRun

def pipeCall : Call := .pipe true (some (5, fun _ => 0))

def pipeWorld : World := after (.fork 1 1) (after pipeCall bootWorld)

theorem bootWorld_booted : Booted bootWorld :=
  ⟨fun _ => ⟨rfl, rfl, rfl⟩, fun _ => rfl, ⟨0, by decide, fun _ => rfl, fun _ => rfl⟩, ⟨1, 1, rfl⟩⟩

theorem reaches_pipeWorld : Reaches ⟨bootWorld, fun _ => none⟩ ⟨pipeWorld, fun _ => none⟩ := by
  have hPipe : Reaches ⟨bootWorld, fun _ => none⟩ ⟨after pipeCall bootWorld, fun _ => none⟩ :=
    reaches_after (Or.inr (Or.inl rfl)) (by rfl)
  have hFork : Reaches ⟨after pipeCall bootWorld, fun _ => none⟩ ⟨pipeWorld, fun _ => none⟩ :=
    reaches_after (Or.inr (Or.inl (by rfl))) (by rfl)
  exact hPipe.trans hFork

theorem handles_exact_pipe : Exact pipeWorld ∧ (pipeWorld.fs.file 0).ref = 2 ∧ (pipeWorld.pipe 5).isSome := by
  have hExact := (handles_exact bootWorld_booted reaches_pipeWorld).1 fun p k x hProg => by cases hProg
  exact ⟨hExact, by rfl, by rfl⟩

end Example

end Xv6Rpi.Handles
