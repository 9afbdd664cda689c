import Xv6Rpi.Handles.Table

/-! # Reading, writing and closing files

A process that has a file uses what the file stands for: as long as it has the file, a pipe is there. What it reads or
writes changes nothing of what belongs to it.
-/

namespace Xv6Rpi.Handles

open Fs (Kern FsM File ProcFiles nfile nofile ninode)
open Pipes (Pipe Side)
open Prog Sharing
open Sched (Slot)

section Pipes

variable {w : World} {g : Slot → Share} {P : Share → Prop} {p : Slot} {y : Share} {f pi : Nat} {q q' : Pipe} {α : Type}

theorem Owned.used (h : Owned w g) (hg : g p = y) (hUses : y.uses = some (f, pi)) : ∃ q, w.pipe pi = some q := by
  have hKnows := h.knows p
  rw [hg] at hKnows
  obtain ⟨hIn, hPipe⟩ := hKnows.uses f pi hUses
  have hMem : f ∈ Share.files (g p) := by rwa [hg]
  have hEnd : (pi, sideOf (w.fs.file f)) ∈ fileEnds w := by
    refine Multiset.mem_sum.mpr ⟨f, Finset.mem_range.mpr (h.files.lt f (mem_all hMem)), ?_⟩
    rw [hPipe]
    exact Multiset.mem_singleton_self (pi, sideOf (w.fs.file f))
  have hPos := Multiset.count_pos.mpr hEnd
  have hWas := h.pipes.ends pi (sideOf (w.fs.file f))
  rw [Multiset.count_add] at hWas
  cases hPi : w.pipe pi with
  | some q => exact ⟨q, rfl⟩
  | none =>
    rw [hPi, Option.any_none, if_neg Bool.false_ne_true] at hWas
    omega

theorem Owned.useSame (h : Owned w g) (hPi : w.pipe pi = some q) (hRead : q'.readopen = q.readopen) (hWrite : q'.writeopen = q.writeopen) :
    Owned (Handles.setPipe w pi (some q')) g := by
  have hAny : ∀ {φ : Pipe → Bool}, φ q' = φ q → ∀ pi', ((Handles.setPipe w pi (some q')).pipe pi').any φ = (w.pipe pi').any φ := by
    intro φ hφ pi'
    change (Function.update w.pipe pi (some q') pi').any φ = _
    by_cases hEq : pi' = pi
    · rw [hEq, hPi, Function.update_self]
      exact hφ
    · rw [Function.update_of_ne hEq]
  refine h.congr (fun _ => rfl) (fun _ => rfl) (fun _ => rfl) (fun _ => rfl) rfl (fun _ => rfl) rfl rfl (fun pi' side => hAny ?_ pi')
    (hAny ?_)
  · cases side with
    | read => exact hRead
    | write => exact hWrite
  · rw [bothClosed, bothClosed, hRead, hWrite]

theorem read_open (q : Pipe) (n : Nat) : (q.read n).2.readopen = q.readopen ∧ (q.read n).2.writeopen = q.writeopen := by
  induction n generalizing q with
  | zero => exact ⟨rfl, rfl⟩
  | succ n ih =>
    rw [Pipe.read]
    by_cases hEmpty : q.nread = q.nwrite
    · rw [if_pos hEmpty]
      exact ⟨rfl, rfl⟩
    · rw [if_neg hEmpty]
      exact ih { q with nread := q.nread + 1#32 }

theorem write_open (q : Pipe) (src : List UInt8) : (q.write src).2.2.readopen = q.readopen ∧ (q.write src).2.2.writeopen = q.writeopen := by
  induction src generalizing q with
  | nil => exact ⟨rfl, rfl⟩
  | cons b left ih =>
    rw [Pipe.write]
    by_cases hFull : q.nwrite = q.nread + BitVec.ofNat 32 Pipes.pipesize
    · rw [if_pos hFull]
      exact ⟨rfl, rfl⟩
    · rw [if_neg hFull]
      exact ih (q.put b)

theorem does_usePipe (hP : P y) (hCalling : y.calling = true) (hf : f ∈ y.files) {Q : Option Nat → Share → Prop} (hNone : Q none y)
    (hSome : ∀ pi, Q (some pi) { y with uses := some (f, pi) }) : Does P p (getW fun w => w.pipeOf f) y Q := by
  refine does_act hP hCalling fun w g h hg => ?_
  dsimp only
  cases hPi : w.pipeOf f with
  | none => exact ⟨g, h, .refl p g, by rw [hg]; exact hNone⟩
  | some pi =>
    let y' : Share := { y with uses := some (f, pi) }
    have hProcs : ProcsInv w (Function.update g p y') := by
      refine h.procs.update ?_ ?_ ?_ ?_
      · rw [hg]
        exact hCalling
      · exact hCalling
      · rw [hg]
      · rw [hg]
    have hKnows : KnowsInv w y' := by
      have hMine := h.knows p
      rw [hg] at hMine
      refine ⟨hMine.made, fun f' pi' hf' => ?_⟩
      obtain ⟨hEq, hEq'⟩ := Prod.mk.inj (Option.some.inj hf')
      rw [← hEq, ← hEq']
      exact ⟨hf, hPi⟩
    have hOwned : Owned w (Function.update g p y') := h.moved rfl rfl rfl rfl (all_same (by rw [hg])) (all_same (by rw [hg]))
      (all_same (by rw [hg])) (all_same (by rw [hg])) hProcs (knows_update (fun q _ => h.knows q) hKnows)
    refine ⟨_, hOwned, others_update p g _, ?_⟩
    rw [Function.update_self]
    exact hSome pi

theorem does_piperead (hP : P y) (hCalling : y.calling = true) (hUses : y.uses = some (f, pi)) {n : Nat}
    {Q : Option (List UInt8) → Share → Prop} (hQ : ∀ r, Q r y) : Does P p (piperead p pi n) y Q := by
  refine does_act hP hCalling fun w g h hg => ?_
  obtain ⟨q, hPi⟩ := h.used hg hUses
  rw [hPi]
  dsimp only
  by_cases hEmpty : q.nread = q.nwrite ∧ q.writeopen = true
  · rw [if_pos hEmpty]
    cases (w.tbl.proc p).killed with
    | true => exact ⟨g, h, .refl p g, by rw [hg]; exact hQ _⟩
    | false => exact fun hEq => by cases hEq
  · rw [if_neg hEmpty]
    exact ⟨g, h.useSame hPi (read_open q n).1 (read_open q n).2, .refl p g, by rw [hg]; exact hQ _⟩

theorem does_pipewriteFrom (hP : P y) (hCalling : y.calling = true) (hUses : y.uses = some (f, pi)) (fuel : Nat) (src : List UInt8)
    {Q : Bool → Share → Prop} (hQ : ∀ r, Q r y) : Does P p (pipewriteFrom pi fuel src) y Q := by
  induction fuel generalizing src with
  | zero => exact holds_pure (hQ _)
  | succ fuel ih =>
    refine does_bind (does_act hP hCalling fun w g h hg => ?_)
    obtain ⟨q, hPi⟩ := h.used hg hUses
    rw [hPi]
    dsimp only
    have hSame : ∀ r s q', q.write src = (r, s, q') → Owned (setPipe w pi (some q')) g := fun r s q' hEq => by
      have hOpen := write_open q src
      rw [hEq] at hOpen
      exact h.useSame hPi hOpen.1 hOpen.2
    cases hWrite : q.write src with
    | mk r rest =>
      obtain ⟨s, q'⟩ := rest
      cases r with
      | done => exact ⟨g, hSame _ _ _ hWrite, .refl p g, by rw [hg]; exact holds_pure (hQ _)⟩
      | broken => exact ⟨g, hSame _ _ _ hWrite, .refl p g, by rw [hg]; exact holds_pure (hQ _)⟩
      | sleeps left =>
        dsimp only
        by_cases hNothing : left.length = src.length
        · rw [if_pos hNothing]
          exact fun hEq => by cases hEq
        · rw [if_neg hNothing]
          exact ⟨g, hSame _ _ _ hWrite, .refl p g, by rw [hg]; exact ih left⟩

theorem does_pipewrite (hP : P y) (hCalling : y.calling = true) (hUses : y.uses = some (f, pi)) {src : List UInt8}
    {Q : Int → Share → Prop} (hQ : ∀ r, Q r y) : Does P p (pipewrite pi src) y Q := by
  refine does_bind (does_pipewriteFrom hP hCalling hUses _ src fun r => ?_)
  cases r with
  | true => exact holds_pure (hQ _)
  | false => exact holds_pure (hQ _)

end Pipes

section Files

variable {P : Share → Prop} {p : Slot} {y : Share} {f pi : Nat} {m : Multiset Nat}

theorem keeps_addOff (f r : Nat) : (Fs.addOff f r).Keeps tied := by
  refine keeps_single fun s b s' hEq => ?_
  cases hEq
  refine congrArg (fun files => (files, s.proc, fun j => (s.inode j).ref)) (funext fun f' => ?_)
  have hFile : ∀ x, (Fs.setFile s f x).file f' = Function.update s.file f x f' := fun _ => rfl
  rw [hFile]
  by_cases hf : f' = f
  · rw [hf, Function.update_self]
  · rw [Function.update_of_ne hf]

theorem keeps_getK {β : Type} (f : Kern → β) : (Fs.getK f).Keeps tied := keeps_tied (Fs.quiet_getK f)

/-- Reading moves the offset, and changes nothing that is accounted for. -/
theorem keeps_fileread (f n : Nat) : (Fs.fileread f n).Keeps tied := by
  refine keeps_bind (keeps_getK _) fun ff => ?_
  split
  · exact keeps_pure none
  · cases ff.type with
    | none => exact keeps_tied (Fs.quiet_panic _)
    | inode =>
      refine keeps_bind (keeps_tied (Fs.quiet_ilock _)) fun _ => keeps_bind (keeps_getK _) fun off =>
        keeps_bind (keeps_tied (Fs.quiet_readi _ _ _)) fun r => ?_
      have hEnd : (do Fs.iunlock ff.ip; return r : FsM (Option (List UInt8))).Keeps tied :=
        keeps_bind (keeps_tied (Fs.quiet_iunlock _)) fun _ => keeps_pure r
      split
      · exact keeps_bind (keeps_addOff f _) fun _ => hEnd
      · exact hEnd

theorem keeps_filewriteChunk (f ip : Nat) (src : List UInt8) : (Fs.filewriteChunk f ip src).Keeps tied := by
  refine keeps_bind (keeps_tied Fs.quiet_beginTransK) fun _ => keeps_bind (keeps_tied (Fs.quiet_ilock ip)) fun _ =>
    keeps_bind (keeps_getK _) fun off => keeps_bind (keeps_tied (Fs.quiet_writei ip src off)) fun r => ?_
  have hEnd : (do Fs.iunlock ip; Fs.commitTransK; return r : FsM (Option Nat)).Keeps tied :=
    keeps_bind (keeps_tied (Fs.quiet_iunlock ip)) fun _ => keeps_bind (keeps_tied Fs.quiet_commitTransK) fun _ => keeps_pure r
  split
  · exact keeps_bind (keeps_addOff f _) fun _ => hEnd
  · exact hEnd

theorem keeps_filewriteFrom (f ip fuel : Nat) (src : List UInt8) : (Fs.filewriteFrom f ip fuel src).Keeps tied := by
  induction fuel generalizing src with
  | zero => exact keeps_pure _
  | succ fuel ih =>
    rw [Fs.filewriteFrom]
    split
    · exact keeps_pure true
    · refine keeps_bind (keeps_filewriteChunk f ip _) fun r => ?_
      cases r with
      | none => exact keeps_pure false
      | some r =>
        dsimp only
        split
        · exact keeps_tied (Fs.quiet_panic _)
        · exact ih _

theorem keeps_filewrite (f : Nat) (src : List UInt8) : (Fs.filewrite f src).Keeps tied := by
  refine keeps_bind (keeps_getK _) fun ff => ?_
  split
  · exact keeps_pure (-1)
  · cases ff.type with
    | none => exact keeps_tied (Fs.quiet_panic _)
    | inode =>
      refine keeps_bind (keeps_filewriteFrom f ff.ip _ src) fun r => ?_
      cases r with
      | true => exact keeps_pure _
      | false => exact keeps_pure _

theorem does_fileread (hP : ∀ u, P { y with uses := u }) (hCalling : y.calling = true) (hf : f ∈ y.files) {n : Nat}
    {Q : Option (List UInt8) → Share → Prop} (hQ : ∀ r u, Q r { y with uses := u }) : Does P p (fileread p f n) y Q := by
  refine does_bind (does_getW (hP y.uses) hCalling fun w g _ _ => ?_)
  split
  · exact holds_pure (hQ _ y.uses)
  · refine does_bind (does_usePipe (hP y.uses) hCalling hf ?_ fun pi => ?_)
    · exact does_keeps (hP y.uses) hCalling (keeps_fileread f n) fun r => hQ r y.uses
    · have hUses : ({ y with uses := some (f, pi) } : Share).uses = some (f, pi) := rfl
      refine does_piperead (hP _) ?_ hUses fun r => hQ r _
      exact hCalling

theorem does_filewrite (hP : ∀ u, P { y with uses := u }) (hCalling : y.calling = true) (hf : f ∈ y.files) {src : List UInt8}
    {Q : Int → Share → Prop} (hQ : ∀ r u, Q r { y with uses := u }) : Does P p (filewrite f src) y Q := by
  refine does_bind (does_getW (hP y.uses) hCalling fun w g _ _ => ?_)
  split
  · exact holds_pure (hQ _ y.uses)
  · refine does_bind (does_usePipe (hP y.uses) hCalling hf ?_ fun pi => ?_)
    · exact does_keeps (hP y.uses) hCalling (keeps_filewrite f src) fun r => hQ r y.uses
    · have hUses : ({ y with uses := some (f, pi) } : Share).uses = some (f, pi) := rfl
      refine does_pipewrite (hP _) ?_ hUses fun r => hQ r _
      exact hCalling

theorem does_fileclose (hP : ∀ y, P y) (hCalling : y.calling = true) (hf : y.files = f ::ₘ m) (hUses : y.uses = none)
    {Q : Unit → Share → Prop} (hQ : Q () { y with files := m, made := y.made \ {f} }) : Does P p (fileclose f) y Q := by
  refine does_bind (does_closing (hP y) hCalling hf hUses (fun hNot => ?_) (fun ff pi => ?_) (fun ff hType => ?_) fun ff hType => ?_)
  · have hMade : y.made \ {f} = y.made := Set.sdiff_singleton_eq_self hNot
    rw [hMade] at hQ
    exact holds_pure hQ
  · refine does_pipeclose (e := y.ends) hP ?_ rfl hQ
    exact hCalling
  · dsimp only
    rw [hType]
    exact holds_pure hQ
  · dsimp only
    rw [hType]
    have hL := Fs.shares_ledger (some p)
    refine does_onFs (R := fun _ i => i = y.inodes) hP ?_ ?_ fun _ i hi => ?_
    · exact hCalling
    · exact hL.after Fs.quiet_beginTransK fun _ => hL.bind (hL.iput (hL.quiet Fs.quiet_commitTransK fun _ => rfl))
    · rw [hi]
      exact hQ

end Files

end Xv6Rpi.Handles
