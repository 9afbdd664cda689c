import Xv6Rpi.Handles.Using

/-! # Every call leaves its process at rest

What a call takes it gives back on every way out, or it is what a descriptor or the current directory stands for.
-/

namespace Xv6Rpi.Handles

open Fs (Kern FsM File ProcFiles nfile nofile ninode)
open Pipes (Pipe Side)
open Prog Sharing
open Sched (Slot Pid)

structure Rests (y : Share) : Prop where
  calling : y.calling = true
  rest : AtRest y

section Steps

variable {P : Share → Prop} {p np : Slot} {y : Share} {f pi ip fd : Nat} {m : Multiset Nat} {v : ProcFiles} {α β : Type}

theorem onFs_bind (x : FsM β) (k : β → FsM α) : onFs (x >>= k) = (onFs x >>= fun b => onFs (k b)) := lift_bind ..

theorem Owned.setUp {w : World} {g : Slot → Share} (h : Owned w g) (hg : g p = y) (hCalling : y.calling = true) (hMade : f ∈ y.made)
    (hUses : y.uses = none) {ff : File} {o : Option Nat} {i : Multiset Nat} {e : Multiset (Nat × Side)}
    (hRef : ff.ref = (w.fs.file f).ref) (hType : o ≠ none → ff.type = .none) (hInodes : inodeOf ff + i = y.inodes)
    (hEnds : endOf ff o + e = y.ends) :
    Owned (Handles.putFile w f ff o) (Function.update g p { y with made := y.made \ {f}, inodes := i, ends := e }) := by
  have hKnows := h.knows p
  rw [hg] at hKnows
  obtain ⟨hIn, hOne, hNone, hPipe⟩ := hKnows.made f hMade
  have hIn' : f ∈ (g p).files := by rwa [hg]
  let y' : Share := { y with made := y.made \ {f}, inodes := i, ends := e }
  have hMine : KnowsInv (Handles.putFile w f ff o) y' := by
    refine ⟨fun f' hf' => ?_, fun f' pi hf' => ?_⟩
    · rw [(putFile_set w f ff o).file f' hf'.2, (putFile_set w f ff o).pipe f' hf'.2]
      exact hKnows.made f' hf'.1
    · exact absurd (hUses.symm.trans hf') (Option.some_ne_none _).symm
  have hOwned : Owned (Handles.putFile w f ff o) (Function.update g p y') := by
    refine h.putFile hg (h.files.lt f (mem_all hIn')) hCalling ?_ rfl rfl rfl (fun _ _ => rfl) ?_ (fun hZero => ?_) hType ?_ ?_ hMine
      fun q hq => (h.knows q).putFile (h.notMem_made hIn' hq) fun hMem => absurd hMem (h.only hOne hIn' hq)
    · exact hCalling
    · rw [hRef]
    · rw [hRef, hOne] at hZero
      cases hZero
    · have hWas : inodeOf (w.fs.file f) = 0 := if_neg (by rw [hNone]; decide)
      rw [hWas, zero_add]
      exact hInodes
    · have hWas : endOf (w.fs.file f) (w.pipeOf f) = 0 := by rw [hPipe]; rfl
      rw [hWas, zero_add]
      exact hEnds
  exact hOwned

theorem does_setPipeFile (hP : P y) (hCalling : y.calling = true) (hMade : f ∈ y.made) (hUses : y.uses = none) {side : Side}
    {e : Multiset (Nat × Side)} (he : y.ends = (pi, side) ::ₘ e) {Q : Unit → Share → Prop}
    (hQ : Q () { y with made := y.made \ {f}, ends := e }) : Does P p (setPipeFile f pi side) y Q := by
  refine does_act hP hCalling fun w g h hg => ?_
  have hKnows := h.knows p
  rw [hg] at hKnows
  have hNone := (hKnows.made f hMade).2.2.1
  let ff : File := { w.fs.file f with readable := side == .read, writable := side == .write }
  have hSide : sideOf ff = side := by
    cases side with
    | read => rfl
    | write => rfl
  have hOwned : Owned (putFile w f ff (some pi)) (Function.update g p { y with made := y.made \ {f}, inodes := y.inodes, ends := e }) := by
    refine h.setUp hg hCalling hMade hUses rfl (fun _ => hNone) ?_ ?_
    · change (if (w.fs.file f).type = .inode then _ else 0) + _ = _
      rw [hNone, if_neg (by decide), zero_add]
    · rw [endOf, Option.elim_some, hSide, Multiset.singleton_add, he]
  refine ⟨_, hOwned, others_update p g _, ?_⟩
  rw [Function.update_self]
  exact hQ

theorem does_setInodeFile (hP : P y) (hCalling : y.calling = true) (hMade : f ∈ y.made) (hUses : y.uses = none)
    (hi : y.inodes = ip ::ₘ m) {F : File → File} (hRef : ∀ ff, (F ff).ref = ff.ref)
    (hF : ∀ ff, (F ff).type = .inode ∧ (F ff).ip = ip) {Q : Unit → Share → Prop}
    (hQ : Q () { y with made := y.made \ {f}, inodes := m }) :
    Does P p (onFs (Fs.modifyK fun s => Fs.setFile s f (F (s.file f)))) y Q := by
  refine does_fsAct hP hCalling fun w g a s h hg hEq => ?_
  cases hEq
  have hKnows := h.knows p
  rw [hg] at hKnows
  have hPipe := (hKnows.made f hMade).2.2.2
  have hOwned : Owned (putFile w f (F (w.fs.file f)) none)
      (Function.update g p { y with made := y.made \ {f}, inodes := m, ends := y.ends }) := by
    refine h.setUp hg hCalling hMade hUses (hRef _) (fun hNe => absurd rfl hNe) ?_ (zero_add _)
    rw [inodeOf, if_pos (hF _).1, (hF _).2, Multiset.singleton_add, hi]
  have hSame : setFs (Fs.setFile w.fs f (F (w.fs.file f))) w = putFile w f (F (w.fs.file f)) none := by
    rw [setFs_setFile, hPipe]
  dsimp only
  rw [hSame]
  refine ⟨_, hOwned, others_update p g _, ?_⟩
  rw [Function.update_self]
  exact hQ

theorem insert_diff_of_empty {s : Set Nat} (hs : s = ∅) (f : Nat) : insert f s \ {f} = s := by
  rw [hs, Set.insert_sdiff_of_mem _ (Set.mem_singleton f), Set.empty_sdiff]

theorem does_pipealloc (hP : ∀ y, P y) (hCalling : y.calling = true) (hMade : y.made = ∅) (hUses : y.uses = none)
    {mem : Option (Nat × (Nat → UInt8))} {Q : Option (Nat × Nat) → Share → Prop} (hNone : Q none y)
    (hSome : ∀ f0 f1, Q (some (f0, f1)) { y with files := f0 ::ₘ f1 ::ₘ y.files }) : Does P p (pipealloc mem) y Q := by
  refine does_bind (does_filealloc (hP y) hCalling (holds_pure hNone) fun f0 h0 => ?_)
  have hDiff := insert_diff_of_empty hMade
  refine does_bind (does_filealloc (hP _) ?_ ?_ fun f1 h1 => ?_)
  · exact hCalling
  · refine does_bind (does_fileclose (m := y.files) hP ?_ rfl ?_ ?_)
    · exact hCalling
    · exact hUses
    · rw [hDiff]
      exact holds_pure hNone
  · have hNe : f0 ≠ f1 := fun hEq => h1 (hEq ▸ Multiset.mem_cons_self f0 y.files)
    have hDiff2 : insert f1 (insert f0 y.made) \ {f0} = insert f1 y.made := by
      rw [Set.insert_sdiff_of_notMem _ (fun hIn => hNe (Set.mem_singleton_iff.mp hIn).symm), hDiff]
    refine does_bind (does_kmallocPipe (hP _) ?_ ?_ fun pi => ?_)
    · exact hCalling
    · refine does_bind (does_fileclose (m := f1 ::ₘ y.files) hP ?_ (Multiset.cons_swap ..) ?_ ?_)
      · exact hCalling
      · exact hUses
      · refine does_bind (does_fileclose (m := y.files) hP ?_ rfl ?_ ?_)
        · exact hCalling
        · exact hUses
        · rw [hDiff2, hDiff]
          exact holds_pure hNone
    · refine does_bind (does_setPipeFile (e := (pi, .write) ::ₘ y.ends) (hP _) ?_ ?_ ?_ rfl ?_)
      · exact hCalling
      · exact Set.mem_insert_of_mem _ (Set.mem_insert f0 y.made)
      · exact hUses
      · refine does_bind (does_setPipeFile (e := y.ends) (hP _) ?_ ?_ ?_ rfl ?_)
        · exact hCalling
        · rw [hDiff2]
          exact Set.mem_insert f1 y.made
        · exact hUses
        · rw [hDiff2, hDiff, Multiset.cons_swap]
          exact holds_pure (hSome f0 f1)

theorem does_iputCwd (hP : ∀ y, P y) (hCalling : y.calling = true) (hi : y.inodes = cwdOf y.slots + m) {Q : Unit → Share → Prop}
    (hQ : Q () { y with inodes := m }) : Does P p (onFs (Fs.iputCwd p)) y Q := by
  rw [Fs.iputCwd, onFs_bind]
  refine does_bind (does_fsAct (hP y) hCalling fun w g a s h hg hEq => ?_)
  cases hEq
  refine ⟨g, h, .refl p g, ?_⟩
  dsimp only
  rw [hg, h.procs.slots p, hg]
  cases hCwd : y.slots.cwd with
  | none =>
    have hm : y.inodes = m := by rw [hi, cwdOf, hCwd, Option.elim_none, zero_add]
    rw [← hm] at hQ
    exact holds_pure hQ
  | some ip =>
    have hm : y.inodes = ip ::ₘ m := by rw [hi, cwdOf, hCwd, Option.elim_some, Multiset.singleton_add]
    have hL := Fs.shares_ledger (some p)
    refine does_onFs (R := fun _ i => i = m) hP hCalling ?_ fun _ i hi' => ?_
    · rw [hm]
      exact hL.iput rfl
    · rw [hi']
      exact hQ

end Steps

section Files

variable {P : Share → Prop} {p : Slot} {y : Share} {f pi ip fd : Nat}

theorem Rests.of_same {y' : Share} (h : Rests y) (hCalling : y'.calling = y.calling) (hFiles : y'.files = y.files) (hMade : y'.made = y.made)
    (hInodes : y'.inodes = y.inodes) (hEnds : y'.ends = y.ends) (hFrees : y'.frees = y.frees) (hChild : y'.child = y.child)
    (hSlots : y'.slots = y.slots) : Rests y' :=
  ⟨hCalling.trans h.calling, hFiles.trans (hSlots ▸ h.rest.files), hMade.trans h.rest.made, hInodes.trans (hSlots ▸ h.rest.inodes),
    hEnds.trans h.rest.ends, hFrees.trans h.rest.frees, hChild.trans h.rest.child⟩

/-- A program on inodes that gives back every reference that it takes. -/
theorem does_balanced (hP : ∀ y, P y) (h : Rests y) {x : FsM Int}
    (hx : ∀ m : Multiset Nat, Fs.Shares (some p) x m fun _ m' => m' = m) : Does P p (onFs x) y fun _ y' => Rests y' := by
  refine does_onFs hP h.calling (hx y.inodes) fun r m hm => ?_
  rw [hm]
  exact h

theorem does_sysRead (hP : ∀ y, Rests y → P y) (h : Rests y) {n : Option Nat} :
    Does P p (sysRead p fd n) y fun _ y' => Rests y' := by
  refine does_bind (does_argfd (hP y h) h.calling (holds_pure h) fun f hfd hf => ?_)
  cases n with
  | none => exact holds_pure h
  | some n =>
    have hMem : f ∈ y.files := by
      rw [h.rest.files]
      exact mem_held hfd hf
    have hRest : ∀ u, Rests { y with uses := u } := fun u => h.of_same rfl rfl rfl rfl rfl rfl rfl rfl
    refine does_bind (does_fileread (fun u => hP _ (hRest u)) h.calling hMem fun r u => ?_)
    cases r with
    | none => exact holds_pure (hRest u)
    | some bytes => exact holds_pure (hRest u)

theorem does_sysWrite (hP : ∀ y, Rests y → P y) (h : Rests y) {src : Option (List UInt8)} :
    Does P p (sysWrite p fd src) y fun _ y' => Rests y' := by
  refine does_bind (does_argfd (hP y h) h.calling (holds_pure h) fun f hfd hf => ?_)
  cases src with
  | none => exact holds_pure h
  | some src =>
    have hMem : f ∈ y.files := by
      rw [h.rest.files]
      exact mem_held hfd hf
    have hRest : ∀ u, Rests { y with uses := u } := fun u => h.of_same rfl rfl rfl rfl rfl rfl rfl rfl
    exact does_filewrite (fun u => hP _ (hRest u)) h.calling hMem fun r u => hRest u

theorem held_clear {v : ProcFiles} (hfd : fd < nofile) (hf : v.ofile fd = some f) :
    held v = f ::ₘ held { v with ofile := Function.update v.ofile fd none } := by
  have hSet := held_set v hfd none
  rw [hf] at hSet
  change _ + {f} = held v + 0 at hSet
  rw [add_zero, add_comm, Multiset.singleton_add] at hSet
  exact hSet.symm

theorem held_fill {v : ProcFiles} (hfd : fd < nofile) (hFree : v.ofile fd = none) (f : Nat) :
    held { v with ofile := Function.update v.ofile fd (some f) } = f ::ₘ held v := by
  have hSet := held_set v hfd (some f)
  rw [hFree] at hSet
  change _ + 0 = held v + {f} at hSet
  rw [add_zero, add_comm, Multiset.singleton_add] at hSet
  exact hSet

theorem does_sysClose (hP : ∀ y, P y) (h : Rests y) (hUses : y.uses = none) : Does P p (sysClose p fd) y fun _ y' => Rests y' := by
  refine does_bind (does_argfd (hP y) h.calling (holds_pure h) fun f hfd hf => ?_)
  refine does_bind (does_setOfile (hP y) h.calling ?_)
  let v : ProcFiles := { y.slots with ofile := Function.update y.slots.ofile fd none }
  refine does_bind (does_fileclose (m := held v) hP ?_ ?_ ?_ ?_)
  · exact h.calling
  · exact h.rest.files.trans (held_clear hfd hf)
  · exact hUses
  · refine holds_pure ⟨h.calling, rfl, ?_, h.rest.inodes, h.rest.ends, h.rest.frees, h.rest.child⟩
    change y.made \ {f} = ∅
    rw [h.rest.made, Set.empty_sdiff]

theorem does_sysDup (hP : ∀ y, P y) (h : Rests y) : Does P p (onFs (Fs.sysDup p fd)) y fun _ y' => Rests y' := by
  rw [Fs.sysDup, onFs_bind]
  refine does_bind (does_argfd (hP y) h.calling (holds_pure h) fun f hfd hf => ?_)
  rw [onFs_bind]
  refine does_bind (does_fdalloc (hP y) h.calling (holds_pure h) fun fd' hfd' hFree => ?_)
  rw [onFs_bind]
  refine does_bind (does_filedup (hP _) ?_ ?_ ?_ ?_)
  · exact h.calling
  · change f ∈ y.files
    rw [h.rest.files]
    exact mem_held hfd hf
  · change f ∉ y.made
    rw [h.rest.made]
    exact Set.notMem_empty f
  · refine holds_pure ⟨h.calling, ?_, h.rest.made, h.rest.inodes, h.rest.ends, h.rest.frees, h.rest.child⟩
    change f ::ₘ y.files = held { y.slots with ofile := Function.update y.slots.ofile fd' (some f) }
    rw [held_fill hfd' hFree, h.rest.files]

theorem does_openFile (hP : ∀ y, P y) (h : Rests y) (hUses : y.uses = none) {omode : Nat} :
    Does P p (openFile p ip omode) { y with inodes := ip ::ₘ y.inodes } fun _ y' => Rests y' := by
  have hL := Fs.shares_ledger (some p)
  have hDiff := insert_diff_of_empty h.rest.made
  have hPut : ∀ {Q : Unit → Share → Prop}, Q () y → Does P p (onFs (Fs.iunlockput ip)) { y with inodes := ip ::ₘ y.inodes } Q := by
    intro Q hQ
    refine does_onFs (R := fun _ i => i = y.inodes) hP ?_ (hL.iunlockput rfl) fun _ i hi => ?_
    · exact h.calling
    · rw [hi]
      exact hQ
  refine does_bind (does_filealloc (hP _) ?_ ?_ fun f hf => ?_)
  · exact h.calling
  · exact does_bind (hPut (holds_pure h))
  · refine does_bind (does_fdalloc (hP _) ?_ ?_ fun fd hfd hFree => ?_)
    · exact h.calling
    · refine does_bind (does_fileclose (m := y.files) hP ?_ rfl ?_ ?_)
      · exact h.calling
      · exact hUses
      · rw [hDiff]
        exact does_bind (hPut (holds_pure h))
    · refine does_bind (does_quiet (hP _) ?_ (Fs.quiet_iunlock ip) fun _ => ?_)
      · exact h.calling
      · refine does_bind (does_setInodeFile (m := y.inodes) (F := fun ff => { ff with
          type := .inode, ip := ip, off := 0, readable := !Fs.oWronly omode, writable := Fs.oWronly omode || Fs.oRdwr omode })
          (hP _) ?_ ?_ ?_ rfl (fun _ => rfl) (fun _ => ⟨rfl, rfl⟩) ?_)
        · exact h.calling
        · exact Set.mem_insert f y.made
        · exact hUses
        · refine holds_pure ⟨h.calling, ?_, (hDiff f).trans h.rest.made, h.rest.inodes, h.rest.ends, h.rest.frees, h.rest.child⟩
          change f ::ₘ y.files = held { y.slots with ofile := Function.update y.slots.ofile fd (some f) }
          rw [held_fill hfd hFree, h.rest.files]

theorem does_sysOpen (hP : ∀ y, P y) (h : Rests y) (hUses : y.uses = none) {path : Option (List UInt8)} {omode : Nat} :
    Does P p (sysOpen p path omode) y fun _ y' => Rests y' := by
  have hL := Fs.shares_ledger (some p)
  cases path with
  | none => exact holds_pure h
  | some path =>
    have hNamed : ∀ {x : FsM (Option Nat)} {Q : Option Nat → Share → Prop},
        Fs.Shares (some p) x y.inodes (fun r m => m = r.elim y.inodes (· ::ₘ y.inodes)) → Q none y →
        (∀ ip, Q (some ip) { y with inodes := ip ::ₘ y.inodes }) → Does P p (onFs x) y Q := by
      intro x Q hx hNone hSome
      refine does_onFs hP h.calling hx fun r m hm => ?_
      cases r with
      | none =>
        rw [hm]
        exact hNone
      | some ip =>
        rw [hm]
        exact hSome ip
    rw [sysOpen]
    split
    · refine does_bind (does_quiet (hP y) h.calling Fs.quiet_beginTransK fun _ => does_bind (hNamed (hL.create rfl fun ip => rfl) ?_ fun ip => ?_))
      · exact does_bind (does_quiet (hP y) h.calling Fs.quiet_commitTransK fun _ => holds_pure h)
      · refine does_bind (does_quiet (hP _) ?_ Fs.quiet_commitTransK fun _ => does_openFile hP h hUses)
        exact h.calling
    · refine does_bind (hNamed (hL.namei rfl fun ip => rfl) (holds_pure h) fun ip => ?_)
      refine does_bind (does_quiet (hP _) ?_ (Fs.quiet_ilock ip) fun _ => ?_)
      · exact h.calling
      · refine does_bind (does_quiet (hP _) ?_ (Fs.quiet_getInode ip) fun i => ?_)
        · exact h.calling
        · split
          · refine does_bind (does_onFs (R := fun _ i => i = y.inodes) hP ?_ (hL.iunlockput rfl) fun _ i hi => ?_)
            · exact h.calling
            · rw [hi]
              exact holds_pure h
          · exact does_openFile hP h hUses

theorem does_sysPipe (hP : ∀ y, P y) (h : Rests y) (hUses : y.uses = none) {arg : Bool} {mem : Option (Nat × (Nat → UInt8))} :
    Does P p (sysPipe p arg mem) y fun _ y' => Rests y' := by
  rw [sysPipe]
  split
  · exact holds_pure h
  · refine does_bind (does_pipealloc hP h.calling h.rest.made hUses (holds_pure h) fun rf wf => ?_)
    -- both files are closed again
    have hBoth : Does P p (do fileclose rf; fileclose wf; return -1 : WM Int) { y with files := rf ::ₘ wf ::ₘ y.files }
        fun _ y' => Rests y' := by
      have hDiff : (y.made \ {rf}) \ {wf} = y.made := by rw [h.rest.made, Set.empty_sdiff, Set.empty_sdiff]
      refine does_bind (does_fileclose (m := wf ::ₘ y.files) hP ?_ rfl ?_ (does_bind (does_fileclose (m := y.files) hP ?_ rfl ?_ ?_)))
      · exact h.calling
      · exact hUses
      · exact h.calling
      · exact hUses
      · rw [hDiff]
        exact holds_pure h
    refine does_bind (does_fdalloc (hP _) ?_ hBoth fun fd0 h0 hFree0 => ?_)
    · exact h.calling
    · refine does_bind (does_fdalloc (hP _) ?_ ?_ fun fd1 h1 hFree1 => ?_)
      · exact h.calling
      · refine does_bind (does_setOfile (hP _) ?_ ?_)
        · exact h.calling
        · rw [Function.update_idem, ← hFree0, Function.update_eq_self]
          exact hBoth
      · refine holds_pure ⟨h.calling, ?_, h.rest.made, h.rest.inodes, h.rest.ends, h.rest.frees, h.rest.child⟩
        let v : ProcFiles := { y.slots with ofile := Function.update y.slots.ofile fd0 (some rf) }
        have hv : held v = rf ::ₘ held y.slots := held_fill h0 hFree0 rf
        change rf ::ₘ wf ::ₘ y.files = held { v with ofile := Function.update v.ofile fd1 (some wf) }
        rw [held_fill (v := v) h1 hFree1, hv, h.rest.files, Multiset.cons_swap]

theorem does_sysChdir (hP : ∀ y, P y) (h : Rests y) {path : Option (List UInt8)} :
    Does P p (onFs (Fs.sysChdir p path)) y fun _ y' => Rests y' := by
  have hL := Fs.shares_ledger (some p)
  cases path with
  | none => exact holds_pure h
  | some path =>
    rw [Fs.sysChdir, onFs_bind]
    refine does_bind (does_onFs (R := fun r m => m = r.elim y.inodes (· ::ₘ y.inodes)) hP h.calling (hL.namei rfl fun ip => rfl)
      fun r m hm => ?_)
    rw [hm]
    cases r with
    | none => exact holds_pure h
    | some ip =>
      change Does P p (onFs (_ >>= _)) { y with inodes := ip ::ₘ y.inodes } _
      rw [onFs_bind]
      refine does_bind (does_quiet (hP _) ?_ (Fs.quiet_ilock ip) fun _ => ?_)
      · exact h.calling
      · rw [onFs_bind]
        refine does_bind (does_quiet (hP _) ?_ (Fs.quiet_getInode ip) fun i => ?_)
        · exact h.calling
        · split
          · rw [onFs_bind]
            refine does_bind (does_onFs (R := fun _ i => i = y.inodes) hP ?_ (hL.iunlockput rfl) fun _ i hi => ?_)
            · exact h.calling
            · rw [hi]
              exact holds_pure h
          · rw [onFs_bind]
            refine does_bind (does_quiet (hP _) ?_ (Fs.quiet_iunlock ip) fun _ => ?_)
            · exact h.calling
            · rw [onFs_bind]
              refine does_bind (does_iputCwd (m := {ip}) hP ?_ ?_ ?_)
              · exact h.calling
              · change ip ::ₘ y.inodes = cwdOf y.slots + {ip}
                rw [h.rest.inodes, add_comm, Multiset.singleton_add]
              · rw [onFs_bind]
                refine does_bind (does_setCwd (hP _) ?_ (fun j hj => ?_) ?_)
                · exact h.calling
                · cases hj
                  exact Multiset.mem_singleton_self ip
                · exact holds_pure ⟨h.calling, h.rest.files, h.rest.made, rfl, h.rest.ends, h.rest.frees, h.rest.child⟩

end Files

section Processes

variable {P : Share → Prop} {p np : Slot} {y : Share} {v : ProcFiles}

theorem does_ofile (hP : P y) (hCalling : y.calling = true) {fd : Nat} {Q : Option Nat → Share → Prop} (hQ : Q (y.slots.ofile fd) y) :
    Does P p (onFs (Fs.getK fun s => (s.proc p).ofile fd)) y Q := by
  refine does_fsAct hP hCalling fun w g a s h hg hEq => ?_
  cases hEq
  refine ⟨g, h, .refl p g, ?_⟩
  dsimp only
  rw [hg, h.procs.slots p, hg]
  exact hQ

/-- The loop of `fork` over the open files, with the descriptors from `nofile - k` on left. -/
theorem does_forkFiles (hP : ∀ y, P y) (hCalling : y.calling = true) (hMade : y.made = ∅) (hUses : y.uses = none)
    (hFiles : y.files = held y.slots) {k : Nat} (hk : k ≤ nofile) (hChild : y.child = some (np, v))
    (hLeft : ∀ fd, nofile - k ≤ fd → fd < nofile → v.ofile fd = none) (hCwd : v.cwd = none) {Q : Unit → Share → Prop}
    (hQ : ∀ v', v'.cwd = none → Q () { y with child := some (np, v') }) : Does P p (onFs (Fs.forkFiles p np k)) y Q := by
  induction k generalizing y v with
  | zero =>
    have hThis := hQ v hCwd
    rw [← hChild] at hThis
    exact holds_pure hThis
  | succ k ih =>
    have hfd : nofile - (k + 1) < nofile := by omega
    rw [Fs.forkFiles, onFs_bind]
    refine does_bind (does_ofile (hP y) hCalling ?_)
    cases hf : y.slots.ofile (nofile - (k + 1)) with
    | none => exact ih hCalling hMade hUses hFiles (by omega) hChild (fun fd h₁ h₂ => hLeft fd (by omega) h₂) hCwd hQ
    | some f =>
      change Does P p (onFs (_ >>= _)) y _
      have hMem : f ∈ y.files := by
        rw [hFiles]
        exact mem_held hfd hf
      rw [onFs_bind]
      refine does_bind (does_filedup (hP y) hCalling hMem (by rw [hMade]; exact Set.notMem_empty f) ?_)
      rw [onFs_bind]
      let v' : ProcFiles := { v with ofile := Function.update v.ofile (nofile - (k + 1)) (some f) }
      have hGiven : held v' + y.files = held v + f ::ₘ y.files := by
        rw [held_fill hfd (hLeft _ le_rfl hfd) f, Multiset.cons_add, Multiset.add_cons]
      refine does_bind (does_setChild (y := { y with files := f ::ₘ y.files }) (m := y.files) (i := y.inodes)
        (F := fun v => { v with ofile := Function.update v.ofile (nofile - (k + 1)) (some f) }) (hP _) ?_ ?_ ?_ ?_ hGiven rfl ?_)
      · exact hCalling
      · exact hChild
      · exact hMade
      · exact hUses
      · refine ih (y := { y with child := some (np, v') }) ?_ ?_ ?_ ?_ ?_ rfl (fun fd h₁ h₂ => ?_) hCwd hQ
        · exact hCalling
        · exact hMade
        · exact hUses
        · exact hFiles
        · omega
        · change Function.update v.ofile _ _ fd = none
          rw [Function.update_of_ne (by omega)]
          exact hLeft fd (by omega) h₂

theorem does_forkOpen (hP : ∀ y, P y) (h : Rests { y with child := none }) (hUses : y.uses = none)
    (hChild : y.child = some (np, v)) (hv : NoFiles v) :
    Does P p (onFs (Fs.fork p (some np))) y fun _ y' => ∃ v', y' = { y with child := some (np, v') } := by
  have hL := Fs.shares_ledger (some p)
  rw [Fs.fork, onFs_bind]
  refine does_bind (does_forkFiles (y := y) hP h.calling h.rest.made hUses h.rest.files le_rfl hChild (fun fd _ hfd => hv.ofile fd hfd) hv.cwd
    fun v' hCwd => ?_)
  rw [onFs_bind]
  refine does_bind (does_onFs (R := fun ip m => m = ip ::ₘ y.inodes) hP ?_ (hL.idupCwd fun ip => rfl) fun ip m hm => ?_)
  · exact h.calling
  · rw [hm, onFs_bind]
    refine does_bind (does_setChild (y := { y with inodes := ip ::ₘ y.inodes, child := some (np, v') }) (v := v') (m := y.files) (i := y.inodes)
      (F := fun v => { v with cwd := some ip }) (hP _) ?_ rfl ?_ ?_ rfl ?_ ?_)
    · exact h.calling
    · exact h.rest.made
    · exact hUses
    · change {ip} + y.inodes = cwdOf v' + ip ::ₘ y.inodes
      rw [cwdOf, hCwd, Option.elim_none, zero_add, Multiset.singleton_add]
    · exact holds_pure ⟨_, rfl⟩

theorem does_fork (hP : ∀ y, P y) (h : Rests y) (hUses : y.uses = none) {kstack pgdir : Nat} :
    Does P p (fork p kstack pgdir) y fun _ y' => Rests y' := by
  have hBack : Rests { y with child := none } := h.of_same rfl rfl rfl rfl rfl rfl h.rest.child.symm rfl
  refine does_bind (does_allocproc (hP y) h.calling (holds_pure h) fun np v hv => ?_)
  refine does_bind (does_allocKstack (hP _) ?_ rfl hv ?_ (holds_pure hBack))
  · exact h.calling
  · refine does_bind (does_forkCopy (hP _) ?_ rfl hv ?_ (holds_pure hBack))
    · exact h.calling
    · refine does_bind (does_setParent (hP _) ?_ (does_bind (Holds.mono (does_forkOpen hP ?_ ?_ rfl hv) fun _ y' hy' => ?_)))
      · exact h.calling
      · exact hBack
      · exact hUses
      · obtain ⟨v', hy'⟩ := hy'
        rw [hy']
        refine does_bind (does_getW (hP _) ?_ fun w g _ _ => does_bind (does_runnable (hP _) ?_ rfl (holds_pure hBack)))
        · exact h.calling
        · exact h.calling

theorem does_exitFiles (hP : ∀ y, P y) (hCalling : y.calling = true) (hMade : y.made = ∅) (hUses : y.uses = none)
    (hFiles : y.files = held y.slots) {k : Nat} (hk : k ≤ nofile)
    (hDone : ∀ fd < nofile - k, y.slots.ofile fd = none) {Q : Unit → Share → Prop}
    (hQ : ∀ o : Nat → Option Nat, (∀ fd < nofile, o fd = none) → Q () { y with files := 0, slots := { y.slots with ofile := o } }) :
    Does P p (exitFiles p k) y Q := by
  induction k generalizing y with
  | zero =>
    have hZero : y.files = 0 := by
      rw [hFiles]
      exact Finset.sum_eq_zero fun fd hfd => by rw [hDone fd (Finset.mem_range.mp hfd)]; rfl
    have hThis := hQ y.slots.ofile hDone
    rw [← hZero] at hThis
    exact holds_pure hThis
  | succ k ih =>
    have hfd : nofile - (k + 1) < nofile := by omega
    have hNext : ∀ o : Nat → Option Nat, (∀ fd < nofile - (k + 1), o fd = none) → o (nofile - (k + 1)) = none →
        ∀ fd < nofile - k, o fd = none := fun o hO hHere fd hLt => by
      by_cases hEq : fd = nofile - (k + 1)
      · rw [hEq]
        exact hHere
      · exact hO fd (by omega)
    rw [exitFiles]
    refine does_bind (does_getW (hP y) hCalling fun w g hw hg => ?_)
    rw [hw.procs.slots p, hg]
    cases hf : y.slots.ofile (nofile - (k + 1)) with
    | none => exact ih hCalling hMade hUses hFiles (by omega) (hNext _ hDone hf) hQ
    | some f =>
      let o : Nat → Option Nat := Function.update y.slots.ofile (nofile - (k + 1)) none
      have hSame : y.made \ {f} = y.made := by rw [hMade, Set.empty_sdiff]
      refine does_bind (does_fileclose hP hCalling (hFiles.trans (held_clear hfd hf)) hUses ?_)
      rw [hSame]
      refine does_bind (does_setOfile (hP _) ?_ ?_)
      · exact hCalling
      · refine ih (y := { y with files := held { y.slots with ofile := o }, slots := { y.slots with ofile := o } }) ?_ ?_ ?_ rfl ?_ ?_ hQ
        · exact hCalling
        · exact hMade
        · exact hUses
        · omega
        · refine hNext o (fun fd hLt => ?_) (Function.update_self ..)
          change Function.update y.slots.ofile _ _ fd = none
          rw [Function.update_of_ne (by omega)]
          exact hDone fd hLt

theorem does_exitCall (hP : ∀ y, P y) (h : Rests y) (hUses : y.uses = none) :
    Does P p (exit p) y fun _ y' => y'.calling = false := by
  refine does_bind (does_getW (hP y) h.calling fun w g _ _ => ?_)
  split
  · exact does_fsAct (hP y) h.calling fun w g a s _ _ hEq => by cases hEq
  · refine does_bind (does_exitFiles hP h.calling h.rest.made hUses h.rest.files le_rfl (fun fd hLt => absurd hLt (by omega)) fun o ho => ?_)
    refine does_bind (does_iputCwd (m := 0) hP ?_ ?_ (does_bind (does_setCwd (o := none) (hP _) ?_ (fun j hj => by cases hj) ?_)))
    · exact h.calling
    · exact h.rest.inodes.trans (add_zero _).symm
    · exact h.calling
    · have hNone : NoFiles ⟨o, none⟩ := ⟨ho, rfl⟩
      refine does_bind (does_exit (hP _) ?_ ?_ hNone (holds_pure rfl))
      · exact h.calling
      · exact ⟨hNone.held.symm, h.rest.made, hNone.cwdOf.symm, h.rest.ends, h.rest.frees, h.rest.child⟩

end Processes

end Xv6Rpi.Handles
