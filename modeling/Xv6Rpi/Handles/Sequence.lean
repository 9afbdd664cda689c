import Xv6Rpi.Handles.Runs
import Xv6Rpi.Handles.Steps

/-! # Calls one after another

Every call of every process leaves the inodes in order, and so does a run of calls of any processes, as long as each search for a
free block ends in the data area.
-/

namespace Xv6Rpi.Handles

open Fs (Kern FsM File ProcFiles LowBits Geom Fit Kept Keeping Filelike nfile nofile ninode rootino keeping_ledger)
open Pipes (Pipe Side)
open Prog
open Sched (Ptable Slot ProcState)

section Calls

variable {R : Rely Kern Fs.Stop Fs.Label} {sb : Fs.Superblock} {M : LowBits sb} {m : Multiset Nat} {w w' : World} {f ip fd : Nat}
  {p np : Slot} {path : Option (List UInt8)}

theorem Stands.wp_sysRead (hR : Fs.Allows R) (hG : Geom sb) (hStop : R.stop (.panic .ilockNoType)) (h : Stands M 0 w) {n : Option Nat} :
    wp (onWorld R) (sysRead p fd n) (fun _ w' => Stands M 0 w') w := by
  rw [sysRead, wp_bind]
  refine (redoes_argfd hR p fd).wp fun r s₁ hs => ?_
  have h₁ := h.redone hs
  cases r with
  | none => exact h₁
  | some f => cases n with
    | none => exact h₁
    | some n =>
      dsimp only
      rw [wp_bind]
      refine h₁.wp_fileread hR hG hStop fun r w' h' => ?_
      cases r with
      | none => exact h'
      | some bytes => exact h'

theorem Stands.wp_sysWrite [Fs.CommitsIn R (Fs.InOrder M)] (hR : Fs.Relies M R) (hG : Geom sb)
    (hStop : R.stop (.panic .ilockNoType)) (h : Stands M 0 w)
    {src : Option (List UInt8)} :
    wp (onWorld R) (sysWrite p fd src) (fun _ w' => Stands M 0 w' ∧ SameDirs sb w.fs w'.fs) w := by
  rw [sysWrite, wp_bind]
  refine (redoes_argfd hR.stop p fd).wp fun r s₁ hs => ?_
  have h₁ := h.redone hs
  have hDirs : SameDirs sb w.fs s₁ := fun k _ _ => by rw [Fs.files, Fs.files, Fs.eff_congr hs.inode (by rw [hs.home]), hs.home]
  cases r with
  | none => exact ⟨h₁, hDirs⟩
  | some f => cases src with
    | none => exact ⟨h₁, hDirs⟩
    | some src =>
      refine h₁.wp_filewrite hR hG hStop fun r w' h' hSame => ⟨h', fun k hk hDir => ?_⟩
      have hDir₁ : (Fs.files s₁ k).type = Fs.tDir := by rw [hDirs k hk hDir, hDir]
      exact (hSame k hk hDir₁).trans (hDirs k hk hDir)

theorem Stands.wp_setOfile (hR : Fs.Allows R) (h : Stands M m w) {o : Option Nat} {Q : Unit → World → Prop}
    (hQ : ∀ w', Stands M m w' → Q () w') : wp (onWorld R) (setOfile p fd o) Q w :=
  (redoes_setOfile hR p fd o).wp fun _ _ hs => hQ _ (h.redone hs)

theorem Stands.wp_sysClose [Fs.CommitsIn R (Fs.InOrder M)] (hR : Fs.Allows R) (hG : Geom sb) (h : Stands M 0 w) :
    wp (onWorld R) (sysClose p fd) (fun _ w' => Stands M 0 w') w := by
  rw [sysClose, wp_bind]
  refine (redoes_argfd hR p fd).wp fun r s₁ hs => ?_
  have h₁ := h.redone hs
  cases r with
  | none => exact h₁
  | some f =>
    dsimp only
    rw [wp_bind]
    refine h₁.wp_setOfile hR fun w₂ h₂ => ?_
    rw [wp_bind]
    exact h₂.wp_fileclose hR hG fun w' h' => h'

theorem Stands.wp_setPipeFile (hR : Fs.Allows R) (h : Stands M m w) (hNew : NewFile w f) {pi : Nat} {side : Side}
    {Q : Unit → World → Prop} (hQ : ∀ w', Stands M m w' → (∀ f', NewFile w f' → NewFile w' f') → Q () w') :
    wp (onWorld R) (setPipeFile f pi side) Q w := by
  refine wp_modifyW hR (hQ _ ?_ fun f' hNew' => ?_)
  · have hf : f < nfile := h.lt f hNew.ref
    refine h.putFile { w.fs.file f with readable := side == .read, writable := side == .write } hf
      (fun hZero => absurd hZero hNew.ref) (fun _ => hNew.type) (congrArg (m + ·) (inodeOf_congr rfl rfl)) fun hInode => ?_
    exact absurd (hNew.type.symm.trans hInode) (by decide)
  · by_cases hEq : f' = f
    · subst hEq
      refine ⟨?_, ?_⟩
      · rw [show (Fs.setFile w.fs f' _).file f' = _ from Function.update_self ..]
        exact hNew'.ref
      · rw [show (Fs.setFile w.fs f' _).file f' = _ from Function.update_self ..]
        exact hNew'.type
    · refine ⟨?_, ?_⟩
      · rw [show (Fs.setFile w.fs f _).file f' = _ from Function.update_of_ne hEq ..]
        exact hNew'.ref
      · rw [show (Fs.setFile w.fs f _).file f' = _ from Function.update_of_ne hEq ..]
        exact hNew'.type

theorem Stands.wp_pipealloc [Fs.CommitsIn R (Fs.InOrder M)] (hR : Fs.Allows R) (hG : Geom sb) (h : Stands M m w)
    {mem : Option (Nat × (Nat → UInt8))}
    {Q : Option (Nat × Nat) → World → Prop} (hQ : ∀ r w', Stands M m w' → Q r w') : wp (onWorld R) (pipealloc mem) Q w := by
  rw [pipealloc, wp_bind]
  refine h.wp_filealloc hR (hQ none w h) fun f0 w₁ h₁ hNew₁ _ _ _ _ => ?_
  dsimp only
  rw [wp_bind]
  refine h₁.wp_filealloc hR ?_ fun f1 w₂ h₂ hNew₂ _ _ _ hKeep => ?_
  · dsimp only
    rw [wp_bind]
    exact h₁.wp_fileclose hR hG fun w' h' => hQ none w' h'
  · dsimp only
    rw [wp_bind]
    refine (onlyPipes_kmallocPipe hR mem).wp fun r q => ?_
    have h₃ := h₂.setPipe q
    cases r with
    | none =>
      dsimp only
      rw [wp_bind]
      refine h₃.wp_fileclose hR hG fun w₄ h₄ => ?_
      rw [wp_bind]
      exact h₄.wp_fileclose hR hG fun w' h' => hQ none w' h'
    | some pi =>
      dsimp only
      rw [wp_bind]
      refine h₃.wp_setPipeFile hR ((hKeep f0 hNew₁).of_file rfl) fun w₄ h₄ hKeep₄ => ?_
      rw [wp_bind]
      exact h₄.wp_setPipeFile hR (hKeep₄ f1 (hNew₂.of_file rfl)) fun w' h' _ => hQ _ w' h'

theorem Stands.wp_sysPipe [Fs.CommitsIn R (Fs.InOrder M)] (hR : Fs.Allows R) (hG : Geom sb) (h : Stands M 0 w)
    {arg : Bool} {mem : Option (Nat × (Nat → UInt8))} :
    wp (onWorld R) (sysPipe p arg mem) (fun _ w' => Stands M 0 w') w := by
  rw [sysPipe]
  split
  · exact h
  · rw [wp_bind]
    refine h.wp_pipealloc hR hG fun r w₁ h₁ => ?_
    cases r with
    | none => exact h₁
    | some r =>
      obtain ⟨rf, wf⟩ := r
      dsimp only
      rw [wp_bind]
      refine (redoes_fdalloc hR p rf).wp fun r s₂ hs₂ => ?_
      have h₂ := h₁.redone hs₂
      cases r with
      | none =>
        dsimp only
        rw [wp_bind]
        refine h₂.wp_fileclose hR hG fun w₃ h₃ => ?_
        rw [wp_bind]
        exact h₃.wp_fileclose hR hG fun w' h' => h'
      | some fd0 =>
        dsimp only
        rw [wp_bind]
        refine (redoes_fdalloc hR p wf).wp fun r s₃ hs₃ => ?_
        have h₃ := h₂.redone hs₃
        cases r with
        | some fd1 => exact h₃
        | none =>
          dsimp only
          rw [wp_bind]
          refine h₃.wp_setOfile hR fun w₄ h₄ => ?_
          rw [wp_bind]
          refine h₄.wp_fileclose hR hG fun w₅ h₅ => ?_
          rw [wp_bind]
          exact h₅.wp_fileclose hR hG fun w' h' => h'

/-- The end of `sys_open`; a file that can be written is not opened on a directory. -/
theorem Stands.wp_openFile [Fs.CommitsIn R (Fs.InOrder M)] (hR : Fs.Allows R) (hG : Geom sb) (h : Stands M {ip} w)
    {omode : Nat}
    (hPlain : (Fs.oWronly omode || Fs.oRdwr omode) = true → Filelike w.fs ip) :
    wp (onWorld R) (openFile p ip omode) (fun _ w' => Stands M 0 w') w := by
  rw [openFile, wp_bind]
  refine h.wp_filealloc hR ?_ fun f w₁ h₁ hNew hPipe hInode _ _ => ?_
  · dsimp only
    rw [wp_bind]
    exact h.wp_iunlockput hR hG fun w' h' => h'
  · dsimp only
    rw [wp_bind]
    refine (redoes_fdalloc hR p f).wp fun r s₂ hs₂ => ?_
    have h₂ := h₁.redone hs₂
    have hNew₂ := hNew.redone hs₂
    cases r with
    | none =>
      dsimp only
      rw [wp_bind]
      refine h₂.wp_fileclose hR hG fun w₃ h₃ => ?_
      rw [wp_bind]
      exact h₃.wp_iunlockput hR hG fun w' h' => h'
    | some fd =>
      dsimp only
      rw [wp_bind]
      have hMem : ip ∈ {ip} + worldRefs (setFs s₂ w₁) := Multiset.mem_add.mpr (Or.inl (Multiset.mem_singleton_self ip))
      refine h₂.wp_quiet (Fs.quiet_iunlock ip) (h₂.fit.wp_iunlock hR hMem fun s₃ h₃ _ _ _ => ⟨h₃, fun hStill hStands => ?_⟩)
      rw [wp_bind]
      refine Handles.wp_onFs (Fs.wp_modifyK hR ?_)
      have hFile : (setFs s₃ (setFs s₂ w₁)).fs.file = (setFs s₂ w₁).fs.file := hStill.file
      have hNew₃ : NewFile (setFs s₃ (setFs s₂ w₁)) f := hNew₂.of_file hFile
      let ff : File := { s₃.file f with
        type := .inode, ip := ip, off := 0, readable := !Fs.oWronly omode, writable := Fs.oWronly omode || Fs.oRdwr omode }
      have hPut : setFs (Fs.setFile s₃ f ff) (setFs s₃ (setFs s₂ w₁)) =
          Handles.putFile (setFs s₃ (setFs s₂ w₁)) f ff (w₁.pipeOf f) :=
        setFs_setFile (setFs s₃ (setFs s₂ w₁)) f ff
      change Stands M 0 (setFs (Fs.setFile s₃ f ff) (setFs s₃ (setFs s₂ w₁)))
      rw [hPut]
      refine hStands.putFile _ (hStands.lt f hNew₃.ref) (fun hZero => absurd hZero hNew₃.ref) (fun hNo => absurd hPipe hNo) ?_
        fun _ hWrite => ?_
      · rw [inodeOf_none hNew₃.type, inodeOf, if_pos rfl, zero_add, add_zero]
      · have hFile₂ : Filelike (setFs s₂ w₁).fs ip := (hPlain hWrite).congr (hs₂.inode.trans hInode)
        exact (hStill.entry ip).filelike hFile₂

theorem Stands.wp_sysOpen [Fs.CommitsIn R (Fs.InOrder M)] (hR : Fs.Relies M R) (hG : Geom sb)
    (hStop : R.stop (.panic .ilockNoType)) (hRoot : rootino < sb.ninodes)
    (h : Stands M 0 w) {omode : Nat} : wp (onWorld R) (sysOpen p path omode) (fun _ w' => Stands M 0 w') w := by
  cases path with
  | none => exact h
  | some path =>
    rw [sysOpen]
    split
    · rw [wp_bind]
      refine h.wp_quiet Fs.quiet_beginTransK (h.fit.wp_beginTransK hR.stop fun s₁ h₁ _ _ _ => ⟨h₁, fun _ h₁ => ?_⟩)
      have hFit := h₁.fit
      rw [zero_add] at hFit
      rw [wp_bind]
      refine h₁.wp_onFs (keeping_ledger.create trivial fun _ => trivial) ?_
      refine hFit.wp_create hR hG hStop hRoot (fun j hj => mem_worldRefs_of_cwd hj) (by decide) (fun s₂ h₂ _ hKept => ?_)
        fun ip s₂ h₂ _ hMine hType hKept => ?_
      · have hStands : Stands M 0 (setFs s₂ (setFs s₁ w)) := h₁.after (by rwa [zero_add]) hKept
        rw [wp_bind]
        exact hStands.wp_quiet Fs.quiet_commitTransK
          (hStands.fit.wp_commitTransK hR.stop fun s₃ h₃ _ _ _ => ⟨h₃, fun _ h' => h'⟩)
      · have hStands : Stands M {ip} (setFs s₂ (setFs s₁ w)) := h₁.after (by rwa [Multiset.singleton_add]) hKept
        have hPlain : Filelike s₂ ip := ⟨hMine.live.valid, by rw [hType]; decide⟩
        rw [wp_bind]
        refine hStands.wp_quiet Fs.quiet_commitTransK
          (hStands.fit.wp_commitTransK hR.stop fun s₃ h₃ _ _ _ => ⟨h₃, fun hStill h' => ?_⟩)
        exact h'.wp_openFile hR.stop hG fun _ => (hStill.entry ip).filelike hPlain
    · have hFit := h.fit
      rw [zero_add] at hFit
      rw [wp_bind]
      refine h.wp_onFs (keeping_ledger.namei trivial fun _ => trivial) ?_
      refine hFit.wp_namei hR.stop hG hStop hRoot (fun j hj => mem_worldRefs_of_cwd hj) (fun s₁ h₁ _ _ hKept => ?_)
        fun ip s₁ h₁ _ _ hKept => ?_
      · exact h.after (by rwa [zero_add]) hKept
      · have hStands : Stands M {ip} (setFs s₁ w) := h.after (by rwa [Multiset.singleton_add]) hKept
        have hMem : ip ∈ {ip} + worldRefs (setFs s₁ w) := Multiset.mem_add.mpr (Or.inl (Multiset.mem_singleton_self ip))
        dsimp only
        rw [wp_bind]
        refine hStands.wp_quiet (Fs.quiet_ilock ip)
          (hStands.fit.wp_ilock hR.stop hG hStop hMem fun s₂ h₂ _ _ hLock => ⟨h₂, fun _ hStands₂ => ?_⟩)
        rw [wp_bind]
        refine Handles.wp_onFs (Fs.wp_getK hR.stop ?_)
        by_cases hDir : ((setFs s₂ (setFs s₁ w)).fs.inode ip).di.type = Fs.tDir ∧ omode ≠ 0
        · rw [if_pos hDir, wp_bind]
          exact hStands₂.wp_iunlockput hR.stop hG fun w' h' => h'
        · rw [if_neg hDir]
          refine hStands₂.wp_openFile hR.stop hG fun hWrite => ⟨hLock.live.valid, fun hType => hDir ⟨hType, ?_⟩⟩
          rintro rfl
          exact absurd hWrite (by decide)

theorem Stands.wp_replaceCwd (hR : Fs.Allows R) (hG : Geom sb) {o : Option Nat} (h : Stands M (atMost o) w)
    (hGone : (w.tbl.proc p).state = .unused ∨ (w.tbl.proc p).state = .zombie → o = none) {Q : Unit → World → Prop}
    (hQ : ∀ w', Stands M 0 w' → w'.tbl = w.tbl → (w'.fs.proc p).cwd = o → Q () w') :
    wp (onWorld R) (onFs (Fs.iputCwd p)) (fun _ w₁ => wp (onWorld R) (onFs (Fs.modifyK fun s => Fs.setCwd s p o)) Q w₁) w := by
  have hIn : ∀ j, o = some j → j < ninode := fun j hj => by
    refine h.fit.lt j (Multiset.mem_add.mpr (Or.inl ?_))
    rw [hj]
    exact Multiset.mem_singleton_self j
  refine Handles.wp_onFs ?_
  rw [Fs.iputCwd, wp_bind]
  apply Fs.wp_getK hR
  cases hCwd : (w.fs.proc p).cwd with
  | none =>
    have hNone : cwdOf (w.fs.proc p) = 0 := by
      rw [cwdOf, hCwd]
      rfl
    refine Handles.wp_onFs (Fs.wp_modifyK hR (hQ _ (h.setCwd 0 p o (by rw [hNone, zero_add, add_zero]) hIn hGone) rfl ?_))
    exact congrArg ProcFiles.cwd (Function.update_self (p : Nat) _ w.fs.proc)
  | some j =>
    let w₀ : World := setFs (Fs.setCwd w.fs p none) w
    have hOne : cwdOf (w.fs.proc p) = {j} := by
      rw [cwdOf, hCwd]
      rfl
    have h₀ : Stands M (j ::ₘ atMost o) w₀ := by
      refine h.setCwd _ p none ?_ (fun _ hNo => by cases hNo) fun _ => rfl
      rw [hOne, Multiset.add_comm (atMost o), Multiset.singleton_add]
      exact add_zero (j ::ₘ atMost o)
    have hSplit : worldRefs w₀ + {j} = worldRefs w := by
      have hEq := worldRefs_setCwd w p none
      rw [hOne] at hEq
      exact hEq.trans (add_zero (worldRefs w))
    have hAll : atMost o + worldRefs w = j ::ₘ (atMost o + worldRefs w₀) := by
      rw [← hSplit, ← Multiset.singleton_add, ← add_assoc, Multiset.add_comm _ {j}]
    have hFit : Fit M (j ::ₘ (atMost o + worldRefs w₀)) w.fs := hAll ▸ h.fit
    have hRefs : Fs.RefsOf w.fs (w.fs.file, w.fs.proc) (fun mine : Bool => bif mine then j ::ₘ atMost o else worldRefs w₀) := by
      have hSum : ∑ mine : Bool, (bif mine then j ::ₘ atMost o else worldRefs w₀) = j ::ₘ (atMost o + worldRefs w₀) :=
        (Fintype.sum_bool _).trans (Multiset.cons_add ..)
      refine ⟨rfl, fun i hi => ?_, fun i hi => ?_, h.cwd⟩
      · rw [hSum, hFit.refs i hi]
      · rw [hSum] at hi
        exact hFit.lt i hi
    have hKeep : Keeping (Fs.iput j) (j ::ₘ atMost o) fun _ _ => True := keeping_ledger.iput trivial
    refine wp_mono (wp_and (hFit.wp_iput hR hG (Q := fun _ s₁ => Fit M (atMost o + worldRefs w₀) s₁) fun _ h₁ _ _ => h₁)
      (hKeep w.fs _ _ hRefs rfl)) fun _ s₁ hs => ?_
    obtain ⟨h₁, g', -, -, -, hKept⟩ := hs
    have hKept₀ : Kept (worldRefs w₀) w₀.fs (Fs.setCwd s₁ p none) := by
      have hKept' : Kept (worldRefs w₀) w.fs s₁ := hKept
      exact ⟨hKept'.file, by rw [Fs.setCwd, hKept'.proc]; rfl, hKept'.devsw, hKept'.inum, hKept'.valid⟩
    have hStands : Stands M (atMost o) (setFs (Fs.setCwd s₁ p none) w₀) := h₀.after (h₁.setCwd p none).1 hKept₀
    have hOld : ((setFs (Fs.setCwd s₁ p none) w₀).fs.proc p).cwd = none :=
      congrArg ProcFiles.cwd (Function.update_self (p : Nat) _ s₁.proc)
    have hEnd := hStands.setCwd 0 p o (by rw [cwdOf, hOld, zero_add]; exact (add_zero _).symm) hIn hGone
    have hSame : Fs.setCwd (Fs.setCwd s₁ p none) p o = Fs.setCwd s₁ p o := by
      simp only [Fs.setCwd, Function.update_self, Function.update_idem]
    have hEq : setFs (Fs.setCwd (setFs (Fs.setCwd s₁ p none) w₀).fs p o) (setFs (Fs.setCwd s₁ p none) w₀) =
        setFs (Fs.setCwd s₁ p o) (setFs s₁ w) := congrArg (fun s => setFs s w) hSame
    rw [hEq] at hEnd
    refine Handles.wp_onFs (Fs.wp_modifyK hR (hQ _ hEnd rfl ?_))
    exact congrArg ProcFiles.cwd (Function.update_self (p : Nat) _ s₁.proc)

theorem Stands.wp_sysChdir (hR : Fs.Allows R) (hG : Geom sb) (hStop : R.stop (.panic .ilockNoType)) (hRoot : rootino < sb.ninodes)
    (h : Stands M 0 w) (hLive : Live (w.tbl.proc p).state) : wp (onWorld R) (onFs (Fs.sysChdir p path)) (fun _ w' => Stands M 0 w') w := by
  cases path with
  | none => exact h
  | some path =>
    have hFit := h.fit
    rw [zero_add] at hFit
    rw [Fs.sysChdir, onFs_bind, wp_bind]
    refine h.wp_onFs (keeping_ledger.namei trivial fun _ => trivial) ?_
    refine hFit.wp_namei hR hG hStop hRoot (fun j hj => mem_worldRefs_of_cwd hj) (fun s₁ h₁ _ _ hKept => ?_)
      fun ip s₁ h₁ _ _ hKept => ?_
    · exact h.after (by rwa [zero_add]) hKept
    · have hStands : Stands M {ip} (setFs s₁ w) := h.after (by rwa [Multiset.singleton_add]) hKept
      have hMem : ip ∈ {ip} + worldRefs (setFs s₁ w) := Multiset.mem_add.mpr (Or.inl (Multiset.mem_singleton_self ip))
      dsimp only
      rw [onFs_bind, wp_bind]
      refine hStands.wp_quiet (Fs.quiet_ilock ip)
        (hStands.fit.wp_ilock hR hG hStop hMem fun s₂ h₂ _ _ _ => ⟨h₂, fun _ hStands₂ => ?_⟩)
      rw [onFs_bind, wp_bind]
      refine Handles.wp_onFs (Fs.wp_getK hR ?_)
      split
      · rw [onFs_bind, wp_bind]
        exact hStands₂.wp_iunlockput hR hG fun w' h' => h'
      · have hMem₂ : ip ∈ {ip} + worldRefs (setFs s₂ (setFs s₁ w)) := Multiset.mem_add.mpr (Or.inl (Multiset.mem_singleton_self ip))
        rw [onFs_bind, wp_bind]
        refine hStands₂.wp_quiet (Fs.quiet_iunlock ip) (hStands₂.fit.wp_iunlock hR hMem₂ fun s₃ h₃ _ _ _ => ⟨h₃, fun _ hStands₃ => ?_⟩)
        rw [onFs_bind, wp_bind]
        refine wp_mono (hStands₃.wp_replaceCwd (p := p) (o := some ip) (Q := fun _ w' => Stands M 0 w') hR hG (fun hDead => ?_) fun w' h' _ _ => h')
          fun _ w₄ h₄ => ?_
        · exact absurd hLive (not_live_of_dead hDead)
        · rw [onFs_bind, wp_bind]
          exact wp_mono h₄ fun _ _ h' => h'

/-- The open files of a process are closed, with the descriptors from `nofile - k` on left. -/
theorem Stands.wp_exitFiles [Fs.CommitsIn R (Fs.InOrder M)] (hR : Fs.Allows R) (hG : Geom sb) (h : Stands M m w)
    {k : Nat} {Q : Unit → World → Prop}
    (hQ : ∀ w', Stands M m w' → Q () w') : wp (onWorld R) (exitFiles p k) Q w := by
  induction k generalizing w with
  | zero => exact hQ w h
  | succ k ih =>
    rw [exitFiles, wp_bind]
    refine wp_getW hR ?_
    cases (w.fs.proc p).ofile (nofile - (k + 1)) with
    | none => exact ih h
    | some f =>
      dsimp only
      rw [wp_bind]
      refine h.wp_fileclose hR hG fun w₁ h₁ => ?_
      rw [wp_bind]
      exact h₁.wp_setOfile hR fun w₂ h₂ => ih h₂

theorem wakes_dead {s s' : ProcState} (h : Ptable.Wakes s s') (hDead : s' = .unused ∨ s' = .zombie) : s = .unused ∨ s = .zombie := by
  rcases h with rfl | ⟨-, rfl⟩
  · exact hDead
  · rcases hDead with hDead | hDead <;> cases hDead

theorem Stands.wp_exit [Fs.CommitsIn R (Fs.InOrder M)] (hR : Fs.Allows R) (hG : Geom sb) (h : Stands M 0 w) :
    wp (onWorld R) (exit p) (fun _ w' => Stands M 0 w') w := by
  rw [exit, wp_bind]
  refine wp_getW hR ?_
  split
  · exact Handles.wp_onFs (Fs.wp_panic hR (by simp) (by simp))
  · rw [wp_bind]
    refine h.wp_exitFiles hR hG fun w₁ h₁ => ?_
    rw [wp_bind]
    refine wp_mono (h₁.wp_replaceCwd (o := none) (Q := fun _ w₂ => Stands M 0 w₂ ∧ (w₂.fs.proc p).cwd = none) hR hG (fun _ => rfl)
      fun w₂ h₂ _ hCwd => ⟨h₂, hCwd⟩) fun _ w₂ h₂ => ?_
    rw [wp_bind]
    refine wp_mono h₂ fun _ w₃ h₃ => ?_
    rw [wp_bind]
    refine wp_modifyW hR (h₃.1.setTbl fun q hq => ?_)
    obtain ⟨s, hWakes, hEq, -⟩ := Ptable.exit_proc w₃.tbl p q
    rw [hEq] at hq
    dsimp only at hq
    by_cases hSelf : q = p
    · rw [hSelf]
      exact Or.inr (Or.inr h₃.2)
    · rw [if_neg hSelf] at hq
      exact or_assoc.mp (Or.inl (wakes_dead hWakes hq))

theorem Stands.wp_wait (hR : Fs.Allows R) (h : Stands M 0 w) : wp (onWorld R) (wait p) (fun _ w' => Stands M 0 w') w := by
  refine wp_actW hR ?_
  rcases Ptable.wait_cases w.tbl p with ⟨q, -, hZombie, hEq⟩ | ⟨-, hEq | hEq⟩
  · rw [hEq]
    refine h.setTbl fun r hr => ?_
    by_cases hSelf : r = q
    · rw [hSelf]
      exact Or.inr (Or.inl hZombie)
    · rw [Ptable.set_proc_of_ne w.tbl _ hSelf] at hr
      exact or_assoc.mp (Or.inl hr)
  · rw [hEq]
    exact h
  · rw [hEq]
    exact hR.stop _ (by simp) (by simp)

theorem Stands.wp_kill (hR : Fs.Allows R) (h : Stands M 0 w) {pid : Sched.Pid} :
    wp (onWorld R) (kill pid) (fun _ w' => Stands M 0 w') w := by
  refine wp_actW hR (h.setTbl fun q hq => ?_)
  obtain ⟨s, k, hWakes, hEq⟩ := Ptable.kill_proc w.tbl pid q
  rw [hEq] at hq
  exact or_assoc.mp (Or.inl (wakes_dead hWakes hq))

theorem Stands.wp_forkOpen (hR : Fs.Allows R) (h : Stands M 0 w) (hEmbryo : (w.tbl.proc np).state = .embryo)
    (hCwd : (w.fs.proc np).cwd = none) {Q : Int → World → Prop} (hQ : ∀ r w', Stands M 0 w' → Q r w') :
    wp (onWorld R) (onFs (Fs.fork p (some np))) Q w := by
  rw [Fs.fork, onFs_bind, wp_bind]
  refine (redoes_forkFiles hR p np nofile).wp fun _ s₁ hs => ?_
  have h₁ := h.redone hs
  have hFit := h₁.fit
  rw [zero_add] at hFit
  rw [onFs_bind, wp_bind]
  refine h₁.wp_onFs (keeping_ledger.idupCwd fun _ => trivial) ?_
  refine hFit.wp_idupCwd hR (fun j hj => mem_worldRefs_of_cwd hj) fun ip s₂ h₂ _ _ hKept => ?_
  have hStands : Stands M {ip} (setFs s₂ (setFs s₁ w)) := h₁.after (by rwa [Multiset.singleton_add]) hKept
  have hNone : (s₂.proc np).cwd = none := by
    rw [hKept.proc]
    exact (hs.cwd np).trans hCwd
  rw [onFs_bind, wp_bind]
  refine Handles.wp_onFs (Fs.wp_modifyK hR (hQ _ _ (hStands.setCwd 0 np (some ip) ?_ (fun j hj => ?_) fun hDead => ?_)))
  · rw [cwdOf, show ((setFs s₂ (setFs s₁ w)).fs.proc np).cwd = none from hNone, zero_add]
    exact (add_zero _).symm
  · cases hj
    exact h₂.lt ip (Multiset.mem_cons_self ip _)
  · rw [show (setFs s₂ (setFs s₁ w)).tbl = w.tbl from rfl, hEmbryo] at hDead
    rcases hDead with hDead | hDead <;> cases hDead

/-- A change of the process table in which only the child goes on to another state. -/
theorem Stands.setChild (h : Stands M m w) {t : Ptable} (hCwd : (w.fs.proc np).cwd = none)
    (hNe : ∀ q, q ≠ np → (t.proc q).state = (w.tbl.proc q).state) : Stands M m { w with tbl := t } := by
  refine h.setTbl fun q hq => ?_
  by_cases hSelf : q = np
  · rw [hSelf]
    exact Or.inr (Or.inr hCwd)
  · rw [hNe q hSelf] at hq
    exact or_assoc.mp (Or.inl hq)

theorem Stands.setSlot (h : Stands M m w) (hCwd : (w.fs.proc np).cwd = none) (F : Sched.Proc → Sched.Proc) :
    Stands M m { w with tbl := w.tbl.set np F } :=
  h.setChild hCwd fun _ hq => congrArg Sched.Proc.state (Ptable.set_proc_of_ne w.tbl F hq)

structure Making (w : World) (np : Slot) : Prop where
  embryo : (w.tbl.proc np).state = .embryo
  cwd : (w.fs.proc np).cwd = none

def SetsSlot (t : Ptable) (np : Slot) (r : Bool × Ptable) : Prop :=
  ∃ F : Sched.Proc → Sched.Proc, r.2 = t.set np F ∧ (r.1 = true → ∀ q, (F q).state = q.state)

theorem setsSlot_allocKstack (t : Ptable) (np : Slot) (kstack : Nat) : SetsSlot t np (t.allocKstack np kstack) := by
  rw [Ptable.allocKstack]
  by_cases hk : kstack = 0
  · rw [if_pos hk]
    exact ⟨fun q => { q with kstack := kstack, state := .unused }, rfl, fun hNo => by cases hNo⟩
  · rw [if_neg hk]
    exact ⟨fun q => { q with kstack := kstack, context := ⟨.forkret, q.context.intena⟩ }, rfl, fun _ _ => rfl⟩

theorem setsSlot_forkCopy (t : Ptable) (np : Slot) (pgdir : Nat) : SetsSlot t np (t.forkCopy np pgdir) := by
  rw [Ptable.forkCopy]
  by_cases hk : pgdir = 0
  · rw [if_pos hk]
    exact ⟨fun q => { q with pgdir := pgdir, kstack := 0, state := .unused }, rfl, fun hNo => by cases hNo⟩
  · rw [if_neg hk]
    exact ⟨fun q => { q with pgdir := pgdir }, rfl, fun _ _ => rfl⟩

theorem Stands.wp_making (hR : Fs.Allows R) (h : Stands M 0 w) (hMaking : Making w np) {T : World → Bool × Ptable}
    (hSet : SetsSlot w.tbl np (T w))
    {Q : Bool → World → Prop} (hTrue : ∀ w', Stands M 0 w' → Making w' np → Q true w') (hFalse : ∀ w', Stands M 0 w' → Q false w') :
    wp (onWorld R) (act fun w => .ok ((T w).1, { w with tbl := (T w).2 })) Q w := by
  obtain ⟨F, hTbl, hState⟩ := hSet
  have h' : Stands M 0 { w with tbl := (T w).2 } := by
    rw [hTbl]
    exact h.setSlot hMaking.cwd F
  refine wp_actW hR ?_
  dsimp only
  cases hDone : (T w).1 with
  | false => exact hFalse _ h'
  | true =>
    refine hTrue _ h' ⟨?_, hMaking.cwd⟩
    change ((T w).2.proc np).state = _
    rw [hTbl, Ptable.set_proc, hState hDone, hMaking.embryo]

theorem Stands.wp_fork (hR : Fs.Allows R) (h : Stands M 0 w) {kstack pgdir : Nat} :
    wp (onWorld R) (fork p kstack pgdir) (fun _ w' => Stands M 0 w') w := by
  rw [fork, wp_bind]
  refine wp_actW hR ?_
  cases hAlloc : w.tbl.allocproc with
  | none => exact h
  | some r =>
    obtain ⟨np, t⟩ := r
    obtain ⟨hUnused, ht⟩ := Ptable.allocproc_eq_some hAlloc
    have hCwd := h.gone np (Or.inl hUnused)
    let made : Sched.Proc → Sched.Proc := fun q => { q with state := .embryo, pid := w.tbl.nextpid }
    have h₁ : Stands M 0 { w with tbl := t } := h.setChild hCwd fun q hq => by
      rw [ht]
      exact congrArg Sched.Proc.state (Ptable.set_proc_of_ne w.tbl made hq)
    have hMaking : Making { w with tbl := t } np := by
      refine ⟨?_, hCwd⟩
      rw [ht]
      exact congrArg Sched.Proc.state (Ptable.set_proc w.tbl np made)
    dsimp only
    rw [wp_bind]
    refine h₁.wp_making hR hMaking (T := fun w => w.tbl.allocKstack np kstack) (setsSlot_allocKstack t np kstack)
      (fun w₂ h₂ hMaking₂ => ?_) fun w₂ h₂ => ?_
    · rw [if_pos rfl, wp_bind]
      refine h₂.wp_making hR hMaking₂ (T := fun w => w.tbl.forkCopy np pgdir) (setsSlot_forkCopy w₂.tbl np pgdir)
        (fun w₃ h₃ hMaking₃ => ?_) fun w₃ h₃ => ?_
      · rw [if_pos rfl, wp_bind]
        refine wp_modifyW hR ?_
        have h₄ := h₃.setSlot hMaking₃.cwd fun q => { q with parent := some p }
        have hEmbryo : ((w₃.tbl.setParent np p).proc np).state = .embryo := by
          rw [Ptable.setParent, Ptable.set_proc]
          exact hMaking₃.embryo
        rw [wp_bind]
        refine h₄.wp_forkOpen hR hEmbryo hMaking₃.cwd fun r w₅ h₅ => ?_
        rw [wp_bind]
        refine wp_getW hR ?_
        rw [wp_bind]
        refine wp_modifyW hR (h₅.setTbl fun q hq => ?_)
        by_cases hSelf : q = np
        · rw [hSelf, Ptable.setState, Ptable.set_proc] at hq
          rcases hq with hq | hq <;> cases hq
        · rw [Ptable.setState, Ptable.set_proc_of_ne _ _ hSelf] at hq
          exact or_assoc.mp (Or.inl hq)
      · rw [if_neg Bool.false_ne_true]
        exact h₃
    · rw [if_neg Bool.false_ne_true]
      exact h₂

theorem Stands.wp_call [Fs.CommitsIn R (Fs.InOrder M)] (hR : Fs.Relies M R) (hG : Geom sb)
    (hStop : R.stop (.panic .ilockNoType)) (hRoot : rootino < sb.ninodes)
    (h : Stands M 0 w) (hLive : Live (w.tbl.proc p).state) (k : Call) : wp (onWorld R) (k.prog p) (fun _ w' => Stands M 0 w') w := by
  have hFit := h.fit
  rw [zero_add] at hFit
  have hCwd : ∀ j, (w.fs.proc p).cwd = some j → j ∈ worldRefs w := fun j hj => mem_worldRefs_of_cwd hj
  cases k with
  | dup fd => exact (redoes_sysDup hR.stop p fd).wp fun _ _ hs => h.redone hs
  | read fd n => exact h.wp_sysRead hR.stop hG hStop
  | write fd src => exact wp_mono (h.wp_sysWrite hR hG hStop) fun _ _ h' => h'.1
  | close fd => exact h.wp_sysClose hR.stop hG
  | pipe arg mem => exact h.wp_sysPipe hR.stop hG
  | link old new =>
    exact h.wp_balanced (keeping_ledger.sysLink fun _ => trivial) fun Q hQ =>
      hFit.wp_sysLink hR hG hStop hRoot hCwd fun r s' h' _ => hQ r s' h'
  | unlink path =>
    exact h.wp_balanced (keeping_ledger.sysUnlink fun _ => trivial) fun Q hQ =>
      hFit.wp_sysUnlink hR hG hStop hRoot hCwd fun r s' h' _ => hQ r s' h'
  | «open» path omode => exact h.wp_sysOpen hR hG hStop hRoot
  | mkdir path =>
    exact h.wp_balanced (keeping_ledger.makeNode fun _ => trivial) fun Q hQ =>
      hFit.wp_makeNode hR hG hStop hRoot hCwd (by decide) hQ
  | mknod path major minor =>
    exact h.wp_balanced (keeping_ledger.makeNode fun _ => trivial) fun Q hQ =>
      hFit.wp_makeNode hR hG hStop hRoot hCwd (by decide) hQ
  | chdir path => exact h.wp_sysChdir hR.stop hG hStop hRoot hLive
  | exec path mem =>
    exact h.wp_balanced (keeping_ledger.exec fun _ => trivial) fun Q hQ => hFit.wp_exec hR.stop hG hStop hRoot hCwd hQ
  | fork kstack pgdir => exact h.wp_fork hR.stop
  | exit => exact h.wp_exit hR.stop hG
  | wait => exact h.wp_wait hR.stop
  | kill pid => exact h.wp_kill hR.stop
  | sleep done => exact wp_getW hR.stop h

end Calls

end Xv6Rpi.Handles
