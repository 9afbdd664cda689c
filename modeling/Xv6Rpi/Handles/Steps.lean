import Xv6Rpi.Handles.Calls
import Xv6Rpi.Handles.Stands

/-! # Every call leaves the inodes in order

One rule for each function of file.c and sysfile.c that works on the tables, and from these the calls. A call that is over has no
reference left but those of the tables.
-/

namespace Xv6Rpi.Handles

open Fs (Kern FsM File ProcFiles LowBits Geom Fit Kept Keeping Filelike nfile nofile ninode rootino keeping_ledger)
open Pipes (Pipe Side)
open Prog
open Sched (Ptable Slot ProcState)

variable {R : Rely Kern Fs.Stop Fs.Label} {sb : Fs.Superblock} {M : LowBits sb} {m m' : Multiset Nat} {w w' : World} {f ip fd : Nat}
  {p np : Slot} {α β : Type}

section Pipes

def OnlyPipes (R : Rely Kern Fs.Stop Fs.Label) (x : WM α) : Prop :=
  ∀ w, wp (onWorld R) x (fun _ w' => ∃ q, w' = { w with pipe := q }) w

theorem OnlyPipes.wp {x : WM α} (hx : OnlyPipes R x) {Q : α → World → Prop} (hQ : ∀ a q, Q a { w with pipe := q }) :
    wp (onWorld R) x Q w := wp_mono (hx w) fun a w' hw' => by
  obtain ⟨q, rfl⟩ := hw'
  exact hQ a q

theorem onlyPipes_bind {x : WM β} {k : β → WM α} (hx : OnlyPipes R x) (hk : ∀ b, OnlyPipes R (k b)) : OnlyPipes R (x >>= k) :=
  fun w => by
    rw [wp_bind]
    exact hx.wp fun b q => wp_mono (hk b _) fun a w' hw' => hw'

theorem onlyPipes_pure (a : α) : OnlyPipes R (Pure.pure a : WM α) := fun w => ⟨w.pipe, rfl⟩

theorem onlyPipes_act (hR : Fs.Allows R) {f : World → Except Halt (α × World)} (h : ∀ w, match f w with
    | .error e => e = .freed ∨ e = .stop .sleep
    | .ok (_, w') => ∃ q, w' = { w with pipe := q }) : OnlyPipes R (act f) := fun w => by
  refine wp_actW hR ?_
  have hThis := h w
  revert hThis
  cases f w with
  | error e =>
    rintro (rfl | rfl)
    · exact trivial
    · exact hR.stop _ (by simp) (by simp)
  | ok r => exact id

theorem onlyPipes_pipeclose (hR : Fs.Allows R) (pi : Nat) (side : Side) : OnlyPipes R (pipeclose pi side) := by
  refine onlyPipes_bind (onlyPipes_act hR fun w => ?_) fun both => ?_
  · cases w.pipe pi with
    | none => exact Or.inl rfl
    | some q => exact ⟨_, rfl⟩
  · split
    · refine onlyPipes_act hR fun w => ?_
      cases w.pipe pi with
      | none => exact Or.inl rfl
      | some q => exact ⟨_, rfl⟩
    · exact onlyPipes_pure ()

theorem onlyPipes_piperead (hR : Fs.Allows R) (p : Slot) (pi n : Nat) : OnlyPipes R (piperead p pi n) := by
  refine onlyPipes_act hR fun w => ?_
  cases w.pipe pi with
  | none => exact Or.inl rfl
  | some q =>
    dsimp only
    by_cases hWait : q.nread = q.nwrite ∧ q.writeopen = true
    · rw [if_pos hWait]
      cases (w.tbl.proc p).killed with
      | true => exact ⟨w.pipe, rfl⟩
      | false => exact Or.inr rfl
    · rw [if_neg hWait]
      exact ⟨_, rfl⟩

theorem onlyPipes_pipewriteFrom (hR : Fs.Allows R) (pi fuel : Nat) (src : List UInt8) : OnlyPipes R (pipewriteFrom pi fuel src) := by
  induction fuel generalizing src with
  | zero => exact onlyPipes_pure _
  | succ fuel ih =>
    refine onlyPipes_bind (onlyPipes_act hR fun w => ?_) fun r => ?_
    · cases w.pipe pi with
      | none => exact Or.inl rfl
      | some q =>
        dsimp only
        obtain ⟨r, out, q'⟩ := q.write src
        cases r with
        | done => exact ⟨_, rfl⟩
        | broken => exact ⟨_, rfl⟩
        | sleeps left =>
          dsimp only
          split
          · rename_i hEq
            split at hEq
            · cases hEq
              exact Or.inr rfl
            · cases hEq
          · rename_i hEq
            split at hEq
            · cases hEq
            · cases hEq
              exact ⟨_, rfl⟩
    · cases r with
      | done => exact onlyPipes_pure true
      | broken => exact onlyPipes_pure false
      | sleeps left => exact ih left

theorem onlyPipes_pipewrite (hR : Fs.Allows R) (pi : Nat) (src : List UInt8) : OnlyPipes R (pipewrite pi src) := by
  refine onlyPipes_bind (onlyPipes_pipewriteFrom hR pi _ src) fun done => ?_
  split
  · exact onlyPipes_pure _
  · exact onlyPipes_pure _

theorem onlyPipes_kmallocPipe (hR : Fs.Allows R) (mem : Option (Nat × (Nat → UInt8))) : OnlyPipes R (kmallocPipe mem) := by
  refine onlyPipes_act hR fun w => ?_
  cases mem with
  | none => exact ⟨w.pipe, rfl⟩
  | some r =>
    obtain ⟨pi, data⟩ := r
    dsimp only
    cases w.pipe pi with
    | none => exact ⟨_, rfl⟩
    | some q => exact Or.inr rfl

end Pipes

section Tables

def Redoes (R : Rely Kern Fs.Stop Fs.Label) (x : FsM α) : Prop := ∀ s, wp R x (fun _ s' => Redone s s') s

theorem redoes_pure (a : α) : Redoes R (Pure.pure a : FsM α) := fun s => .refl s

theorem redoes_bind {x : FsM β} {k : β → FsM α} (hx : Redoes R x) (hk : ∀ b, Redoes R (k b)) : Redoes R (x >>= k) := fun s => by
  rw [wp_bind]
  exact wp_mono (hx s) fun b s₁ h₁ => wp_mono (hk b s₁) fun _ _ h' => h₁.trans h'

theorem redoes_getK (hR : Fs.Allows R) (f : Kern → α) : Redoes R (Fs.getK f) := fun s => Fs.wp_getK hR (.refl s)

/-- A file gets another number of references, and none is free that was not. -/
theorem redone_ref (s : Kern) {f n : Nat} (hRef : n = 0 ↔ (s.file f).ref = 0) : Redone s (Fs.setFile s f { s.file f with ref := n }) := by
  have hFile : ∀ f', (Fs.setFile s f { s.file f with ref := n }).file f' = if f' = f then { s.file f with ref := n } else s.file f' :=
    fun f' => Function.update_apply ..
  refine ⟨rfl, rfl, fun _ hM => ⟨hM.start, hM.size, hM.super, hM.log⟩, fun f' => ?_, fun f' => ?_, fun _ => rfl⟩
  all_goals
    rw [hFile]
    split
  · rename_i hEq
    rw [hEq]
    exact hRef
  · rfl
  · rename_i hEq
    rw [hEq]
    exact ⟨rfl, rfl, rfl⟩
  · exact ⟨rfl, rfl, rfl⟩

theorem redone_setOfile (s : Kern) (p fd : Nat) (o : Option Nat) : Redone s (Fs.setOfile s p fd o) := by
  refine ⟨rfl, rfl, fun _ hM => ⟨hM.start, hM.size, hM.super, hM.log⟩, fun _ => Iff.rfl, fun _ => ⟨rfl, rfl, rfl⟩, fun n => ?_⟩
  simp only [Fs.setOfile, Function.update_apply]
  split
  · rename_i hEq
    rw [hEq]
  · rfl

theorem redoes_setOfile (hR : Fs.Allows R) (p fd : Nat) (o : Option Nat) : Redoes R (Fs.modifyK fun s => Fs.setOfile s p fd o) :=
  fun s => Fs.wp_modifyK hR (redone_setOfile s p fd o)

theorem redoes_argfd (hR : Fs.Allows R) (p fd : Nat) : Redoes R (Fs.argfd p fd) := redoes_getK hR _

theorem redoes_fdalloc (hR : Fs.Allows R) (p f : Nat) : Redoes R (Fs.fdalloc p f) := fun s => by
  refine Fs.wp_act hR ?_
  cases (List.range nofile).find? fun fd => (s.proc p).ofile fd == none with
  | none => exact .refl s
  | some fd => exact redone_setOfile s p fd (some f)

theorem redoes_filedup (hR : Fs.Allows R) (f : Nat) : Redoes R (Fs.filedup f) := fun s => by
  refine Fs.wp_act hR ?_
  by_cases hRef : (s.file f).ref < 1
  · rw [if_pos hRef]
    exact hR.stop _ (by simp) (by simp)
  · rw [if_neg hRef]
    exact redone_ref s (by omega)

theorem redoes_sysDup (hR : Fs.Allows R) (p fd : Nat) : Redoes R (Fs.sysDup p fd) := by
  refine redoes_bind (redoes_argfd hR p fd) fun r => ?_
  cases r with
  | none => exact redoes_pure (-1)
  | some f =>
    refine redoes_bind (redoes_fdalloc hR p f) fun r => ?_
    cases r with
    | none => exact redoes_pure (-1)
    | some fd' => exact redoes_bind (redoes_filedup hR f) fun _ => redoes_pure _

theorem redoes_forkFiles (hR : Fs.Allows R) (p np k : Nat) : Redoes R (Fs.forkFiles p np k) := by
  induction k with
  | zero => exact redoes_pure ()
  | succ k ih =>
    refine redoes_bind (redoes_getK hR _) fun r => ?_
    cases r with
    | none => exact ih
    | some f => exact redoes_bind (redoes_filedup hR f) fun f => redoes_bind (redoes_setOfile hR np _ (some f)) fun _ => ih

theorem Redoes.wp {x : FsM α} (hx : Redoes R x) {Q : α → World → Prop} (hQ : ∀ a s', Redone w.fs s' → Q a (setFs s' w)) :
    wp (onWorld R) (onFs x) Q w := wp_onFs (wp_mono (hx w.fs) hQ)

structure NewFile (w : World) (f : Nat) : Prop where
  ref : (w.fs.file f).ref ≠ 0
  type : (w.fs.file f).type = .none

theorem NewFile.redone {s' : Kern} (h : NewFile w f) (hs : Redone w.fs s') : NewFile (setFs s' w) f :=
  ⟨fun hZero => h.ref ((hs.ref f).mp hZero), (hs.file f).1.trans h.type⟩

theorem NewFile.of_file (h : NewFile w f) (hFile : w'.fs.file = w.fs.file) : NewFile w' f := by
  refine ⟨?_, ?_⟩
  · rw [hFile]
    exact h.ref
  · rw [hFile]
    exact h.type

theorem Stands.wp_filealloc (hR : Fs.Allows R) (h : Stands M m w) {Q : Option Nat → World → Prop} (hNone : Q none w)
    (hSome : ∀ f w', Stands M m w' → NewFile w' f → w'.pipeOf f = none → w'.fs.inode = w.fs.inode → w'.tbl = w.tbl →
      (∀ f', NewFile w f' → NewFile w' f') → Q (some f) w') : wp (onWorld R) (onFs Fs.filealloc) Q w := by
  refine wp_onFs (Fs.wp_act hR ?_)
  cases hFind : (List.range nfile).find? fun f => (w.fs.file f).ref == 0 with
  | none => exact hNone
  | some f =>
    have hf : f < nfile := List.mem_range.mp (List.mem_of_find?_eq_some hFind)
    have hZero : (w.fs.file f).ref = 0 := beq_iff_eq.mp (List.find?_some (p := fun f => (w.fs.file f).ref == 0) hFind)
    obtain ⟨hType, hPipe⟩ := h.unused f hZero
    have hPut : setFs (Fs.setFile w.fs f { w.fs.file f with ref := 1 }) w =
        Handles.putFile w f { w.fs.file f with ref := 1 } (w.pipeOf f) :=
      setFs_setFile w f _
    dsimp only
    rw [hPut]
    refine hSome f _ (h.putFile _ hf (fun hNo => absurd hNo Nat.one_ne_zero) (fun _ => hType) ?_ fun hInode => ?_) ?_ ?_ rfl rfl fun f' hNew => ?_
    · exact congrArg (m + ·) (inodeOf_congr rfl rfl)
    · exact absurd (hType.symm.trans hInode) (by decide)
    · refine ⟨?_, ?_⟩
      · rw [putFile_file]
        exact Nat.one_ne_zero
      · rw [putFile_file]
        exact hType
    · rw [putFile_pipe]
      exact hPipe
    · by_cases hEq : f' = f
      · exact absurd (hEq ▸ hZero) hNew.ref
      · refine ⟨?_, ?_⟩
        · rw [(putFile_set w f _ _).file f' hEq]
          exact hNew.ref
        · rw [(putFile_set w f _ _).file f' hEq]
          exact hNew.type

end Tables

section Inodes

theorem Stands.wp_onFs (h : Stands M m w) {x : FsM α} (hKeep : Keeping x m fun _ _ => True) {Q : α → World → Prop}
    (hx : wp R x (fun a s' => Kept (worldRefs w) w.fs s' → Q a (setFs s' w)) w.fs) : wp (onWorld R) (onFs x) Q w := by
  refine Handles.wp_onFs (wp_mono (wp_and hx (hKeep w.fs _ _ h.refsOf rfl)) fun a s' hs => ?_)
  obtain ⟨hQ, g', -, -, -, hKept⟩ := hs
  exact hQ hKept

theorem Stands.wp_quiet (h : Stands M m w) {x : FsM α} (hQuiet : Fs.Quiet x) {Q : α → World → Prop}
    (hx : wp R x (fun a s' => Fit M (m + worldRefs w) s' ∧ (Fs.Still w.fs s' → Stands M m (setFs s' w) → Q a (setFs s' w))) w.fs) :
    wp (onWorld R) (onFs x) Q w := by
  refine Handles.wp_onFs (wp_mono (wp_and hx (hQuiet.leads w.fs)) fun a s' hs => ?_)
  obtain ⟨⟨hFit, hQ⟩, hStill⟩ := hs
  exact hQ hStill (h.after hFit (hStill.kept _))

theorem Stands.wp_balanced (h : Stands M 0 w) {x : FsM Int} (hKeep : Keeping x 0 fun _ _ => True)
    (hx : ∀ Q : Int → Kern → Prop, (∀ r s', Fit M (worldRefs w) s' → Q r s') → wp R x Q w.fs) :
    wp (onWorld R) (onFs x) (fun _ w' => Stands M 0 w') w := by
  refine h.wp_onFs hKeep (hx _ fun r s' hFit hKept => h.after ?_ hKept)
  rwa [zero_add]

theorem Stands.wp_iunlockput (hR : Fs.Allows R) (hG : Geom sb) (h : Stands M (ip ::ₘ m) w) {Q : Unit → World → Prop}
    (hQ : ∀ w', Stands M m w' → Q () w') : wp (onWorld R) (onFs (Fs.iunlockput ip)) Q w := by
  refine h.wp_onFs (keeping_ledger.iunlockput trivial) ?_
  have hFit := h.fit
  rw [Multiset.cons_add] at hFit
  exact hFit.wp_iunlockput hR hG fun s' h' _ _ _ hKept => hQ _ (h.after h' hKept)

theorem Stands.wp_fileclose [Fs.CommitsIn R (Fs.InOrder M)] (hR : Fs.Allows R) (hG : Geom sb) (h : Stands M m w)
    {Q : Unit → World → Prop}
    (hQ : ∀ w', Stands M m w' → Q () w') : wp (onWorld R) (fileclose f) Q w := by
  rw [fileclose, wp_bind]
  refine wp_actW hR ?_
  by_cases hRef : (w.fs.file f).ref < 1
  · rw [if_pos hRef]
    exact hR.stop _ (by simp) (by simp)
  rw [if_neg hRef]
  by_cases hMore : 0 < (w.fs.file f).ref - 1
  · rw [if_pos hMore]
    exact hQ _ (h.redone (redone_ref w.fs (by omega)))
  rw [if_neg hMore]
  have hf : f < nfile := h.lt f (by omega)
  have hPut : ∀ m', m' = m + inodeOf (w.fs.file f) → Stands M m' (Handles.putFile w f { w.fs.file f with ref := 0, type := .none } none) :=
    fun m' hm => h.putFile _ hf (fun _ => ⟨rfl, rfl⟩) (fun hNo => absurd rfl hNo)
      (by rw [inodeOf_none rfl, add_zero, hm]) fun hNo => by cases hNo
  dsimp only
  cases hPi : w.pipeOf f with
  | some pi =>
    have hType : (w.fs.file f).type = .none := h.pipe f (by rw [hPi]; exact Option.some_ne_none pi)
    have hStands := hPut m (by rw [inodeOf_none hType, add_zero])
    exact (onlyPipes_pipeclose hR pi _).wp fun _ q => hQ _ (hStands.setPipe q)
  | none =>
    dsimp only
    cases hType : (w.fs.file f).type with
    | none => exact hQ _ (hPut m (by rw [inodeOf_none hType, add_zero]))
    | inode =>
      have hStands := hPut ((w.fs.file f).ip ::ₘ m) (by
        rw [inodeOf, if_pos hType, Multiset.add_comm, Multiset.singleton_add])
      have hKeep : Keeping (do Fs.beginTransK; Fs.iput (w.fs.file f).ip; Fs.commitTransK : FsM Unit) ((w.fs.file f).ip ::ₘ m)
          fun _ _ => True :=
        keeping_ledger.after Fs.quiet_beginTransK fun _ => keeping_ledger.bind (keeping_ledger.iput
          (keeping_ledger.quiet Fs.quiet_commitTransK fun _ => trivial))
      refine hStands.wp_onFs hKeep ?_
      have hFit := hStands.fit
      rw [Multiset.cons_add] at hFit
      rw [wp_bind]
      refine hFit.wp_beginTransK hR fun s₁ h₁ _ _ _ => ?_
      rw [wp_bind]
      refine h₁.wp_iput hR hG fun s₂ h₂ _ _ => ?_
      exact h₂.wp_commitTransK hR fun s₃ h₃ _ _ _ hKept => hQ _ (hStands.after h₃ hKept)

def SameDirs (sb : Fs.Superblock) (s s' : Kern) : Prop :=
  ∀ k < sb.ninodes, (Fs.files s k).type = Fs.tDir → Fs.files s' k = Fs.files s k

theorem Stands.mem_of_file (h : Stands M m w) (hType : (w.fs.file f).type = .inode) : f < nfile ∧ (w.fs.file f).ip ∈ m + worldRefs w := by
  have hf : f < nfile := h.lt f fun hZero => by
    rw [(h.unused f hZero).1] at hType
    cases hType
  exact ⟨hf, Multiset.mem_add.mpr (Or.inr (mem_worldRefs_of_file hf hType))⟩

theorem Stands.wp_fileread (hR : Fs.Allows R) (hG : Geom sb) (hStop : R.stop (.panic .ilockNoType)) (h : Stands M m w) {n : Nat}
    {Q : Option (List UInt8) → World → Prop} (hQ : ∀ r w', Stands M m w' → Q r w') : wp (onWorld R) (fileread p f n) Q w := by
  rw [fileread, wp_bind]
  refine wp_getW hR ?_
  split
  · exact hQ none w h
  · rw [wp_bind]
    refine wp_getW hR ?_
    cases w.pipeOf f with
    | some pi => exact (onlyPipes_piperead hR p pi n).wp fun r q => hQ r _ (h.setPipe q)
    | none =>
      refine Handles.wp_onFs (wp_mono (wp_and (h.fit.wp_fileread hR hG hStop (fun hType => (h.mem_of_file hType).2)
        (Q := fun _ s' => Fit M (m + worldRefs w) s') fun _ _ h' => h') (Fs.moves_fileread f n w.fs)) fun r s' hs => ?_)
      exact hQ r _ (h.moved hs.1 hs.2)

theorem Stands.wp_filewrite [Fs.CommitsIn R (Fs.InOrder M)] (hR : Fs.Relies M R) (hG : Geom sb)
    (hStop : R.stop (.panic .ilockNoType)) (h : Stands M m w)
    {src : List UInt8} {Q : Int → World → Prop} (hQ : ∀ r w', Stands M m w' → SameDirs sb w.fs w'.fs → Q r w') :
    wp (onWorld R) (filewrite f src) Q w := by
  rw [filewrite, wp_bind]
  refine wp_getW hR.stop ?_
  split
  · exact hQ (-1) w h fun _ _ _ => rfl
  · rw [wp_bind]
    refine wp_getW hR.stop ?_
    cases w.pipeOf f with
    | some pi => exact (onlyPipes_pipewrite hR.stop pi src).wp fun r q => hQ r _ (h.setPipe q) fun _ _ _ => rfl
    | none =>
      have hIp : (w.fs.file f).type = .inode → (w.fs.file f).writable = true →
          (w.fs.file f).ip ∈ m + worldRefs w ∧ Filelike w.fs (w.fs.file f).ip := fun hType hWrite => by
        obtain ⟨hf, hMem⟩ := h.mem_of_file hType
        exact ⟨hMem, h.plain f hf hType hWrite⟩
      refine Handles.wp_onFs (wp_mono (wp_and (h.fit.wp_filewrite hR hG hStop hIp (Q := fun _ s' => Fit M (m + worldRefs w) s' ∧
        SameDirs sb w.fs s') fun _ s' h' hCase => ⟨h', ?_⟩) (Fs.moves_filewrite f src w.fs)) fun r s' hs => ?_)
      · rcases hCase with ⟨-, rfl⟩ | ⟨hMem, hPlain, hElse⟩
        · exact fun _ _ _ => rfl
        · intro k hk hDir
          refine hElse.files k hk fun hEq => hPlain.type ?_
          have hl : Fs.LiveSlot w.fs (w.fs.file f).ip := ⟨h.fit.lt _ hMem, h.fit.ref_pos hMem, hPlain.valid⟩
          rw [hEq, Fs.files, h.fit.cache.eff_live hl, Fs.fileOf_type] at hDir
          exact hDir
      · exact hQ r _ (h.moved hs.1.1 hs.2) hs.1.2

end Inodes

end Xv6Rpi.Handles
