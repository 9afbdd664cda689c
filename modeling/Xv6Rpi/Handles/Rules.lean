import Xv6Rpi.Handles.Share

/-! # What the actions do to the shares

One rule for each action of the calls that takes, gives on or drops something.
-/

namespace Xv6Rpi.Handles

open Fs (Kern FsM File ProcFiles nfile nofile ninode refSharing RefsOf)
open Pipes (Pipe Side)
open Prog Sharing
open Sched (Ptable Slot ProcState)

/-- What a program of process `p` does with its share. -/
abbrev Does (P : Share → Prop) (p : Slot) {α : Type} (x : WM α) (y : Share) (Q : α → Share → Prop) : Prop :=
  worldSharing.Holds P p x y Q

section Lift

variable {P : Share → Prop} {p : Slot} {y : Share} {w : World} {g : Slot → Share} {α β : Type}

def inodeShare (w : World) (g : Slot → Share) : Option Slot → Multiset Nat
  | none => fileInodes w
  | some p => (g p).inodes

theorem sum_inodeShare (w : World) (g : Slot → Share) : ∑ h, inodeShare w g h = fileInodes w + all Share.inodes g :=
  Fintype.sum_option (inodeShare w g)

theorem Owned.refsOf (h : Owned w g) : RefsOf w.fs (w.fs.file, w.fs.proc) (inodeShare w g) := by
  refine ⟨rfl, ?_, ?_, h.procs.cwd⟩
  · rw [sum_inodeShare]
    exact h.inodes.ref
  · rw [sum_inodeShare]
    exact h.inodes.lt

theorem contains_inodes (hCalling : y.calling = true) :
    (refSharing (Option Slot)).Contains worldSharing World.fs setFs (some p) p fun m => { y with inodes := m } := by
  intro w c g m h hg
  refine ⟨(w.fs.file, w.fs.proc), inodeShare w g, h.refsOf, congrArg Share.inodes hg, fun s₁ g₁ h₁ hOthers => ?_⟩
  have hFile : s₁.file = w.fs.file := congrArg Prod.fst h₁.tables
  have hProc : s₁.proc = w.fs.proc := congrArg Prod.snd h₁.tables
  have hSame : ∀ r, r ≠ some p → g₁ r = inodeShare w g r := fun r hr => (hOthers r hr).elim id fun hIdle => hIdle.1.elim
  let y' : Share := { y with inodes := g₁ (some p) }
  have hInodes : fileInodes (setFs s₁ w) = fileInodes w := Finset.sum_congr rfl fun f _ => congrArg inodeOf (congrFun hFile f)
  have hEnds : fileEnds (setFs s₁ w) = fileEnds w :=
    Finset.sum_congr rfl fun f _ => congrArg (fun ff => endOf ff (w.pipeOf f)) (congrFun hFile f)
  have hSum : fileInodes (setFs s₁ w) + all Share.inodes (Function.update g p y') = ∑ r, g₁ r := by
    rw [Fintype.sum_option, hSame none (Option.some_ne_none p).symm, hInodes, all]
    refine congrArg (fileInodes w + ·) (Finset.sum_congr rfl fun q _ => ?_)
    by_cases hq : q = p
    · rw [hq, Function.update_self]
    · rw [Function.update_of_ne hq, hSame (some q) fun hEq => hq (Option.some.inj hEq)]
      rfl
  refine ⟨Function.update g p y', ⟨?_, ?_, ?_, ?_, ?_⟩, others_update p g y', Function.update_self ..⟩
  · rw [all_same (show y'.files = (g p).files by rw [hg])]
    exact h.files.congr (fun f => congrArg File.ref (congrFun hFile f)) (fun f => congrArg File.type (congrFun hFile f)) rfl
  · rw [hSum]
    exact ⟨h₁.refs, h₁.lt⟩
  · rw [hEnds, all_same (show y'.ends = (g p).ends by rw [hg]), all_same (show y'.frees = (g p).frees by rw [hg])]
    exact h.pipes.congr rfl
  · have hProcs : ProcsInv (setFs s₁ w) g := h.procs.congr hProc rfl
    exact hProcs.update (by rw [hg]; exact hCalling) hCalling (by rw [hg]) (by rw [hg])
  · have hKnows : ∀ {z : Share}, KnowsInv w z → KnowsInv (setFs s₁ w) z := fun hz =>
      hz.congr (fun f _ => ⟨congrArg File.ref (congrFun hFile f), congrArg File.type (congrFun hFile f)⟩) fun _ _ => rfl
    refine knows_update (fun q _ => hKnows (h.knows q)) ?_
    have hp := hKnows (h.knows p)
    rw [hg] at hp
    exact ⟨hp.made, hp.uses⟩

theorem calling_not_idle (hCalling : y.calling = true) : ¬worldSharing.idle y := by
  intro hIdle
  have hNot : y.calling = false := hIdle
  rw [hCalling] at hNot
  cases hNot

theorem stop_not_bad (e : Fs.Stop) : ¬worldSharing.bad (.stop e) := fun he => by cases he

theorem does_onFs (hP : ∀ y, P y) (hCalling : y.calling = true) {x : FsM α} {R : α → Multiset Nat → Prop}
    {Q : α → Share → Prop} (hx : Fs.Shares (some p) x y.inodes R) (hQ : ∀ a m, R a m → Q a { y with inodes := m }) :
    Does P p (onFs x) y Q :=
  holds_lift (contains_inodes hCalling) (fun _ => hP _) (fun _ => calling_not_idle hCalling) stop_not_bad hx hQ

def tied (s : Kern) : (Nat → Nat × Fs.FdType × Nat × Bool) × (Nat → ProcFiles) × (Nat → Int) :=
  (fun f => ((s.file f).ref, (s.file f).type, (s.file f).ip, (s.file f).writable), s.proc, fun j => (s.inode j).ref)

theorem Owned.tied {s : Kern} (h : Owned w g) (hs : tied s = tied w.fs) : Owned (setFs s w) g := by
  simp only [Handles.tied, Prod.mk.injEq] at hs
  obtain ⟨hFile, hProc, hInode⟩ := hs
  have hf := fun f => congrFun hFile f
  simp only [Prod.mk.injEq] at hf
  exact h.congr (fun f => (hf f).1) (fun f => (hf f).2.1) (fun f => (hf f).2.2.1) (fun f => (hf f).2.2.2) hProc
    (fun j => congrFun hInode j) rfl rfl (fun _ _ => rfl) fun _ => rfl

theorem does_keeps (hP : P y) (hCalling : y.calling = true) {x : FsM α} (hx : x.Keeps tied) {Q : α → Share → Prop}
    (hQ : ∀ a, Q a y) : Does P p (onFs x) y Q := by
  have hInv : ∀ (w : World) (s : Kern) (c : Unit) (g : Slot → Share), tied s = tied w.fs → worldSharing.inv w c g →
      worldSharing.inv (setFs s w) c g := fun _ _ _ _ hs h => Owned.tied h hs
  exact holds_lift_keeps hInv stop_not_bad hP (calling_not_idle hCalling) hx hQ

theorem keeps_tied {x : FsM α} (hx : Fs.Quiet x) : x.Keeps tied :=
  hx.keeps.of_keeps fun s s' hs => by
    simp only [Fs.accounts, Prod.mk.injEq] at hs
    simp only [tied, hs.1, hs.2.1, hs.2.2]

theorem does_quiet (hP : P y) (hCalling : y.calling = true) {x : FsM α} (hx : Fs.Quiet x) {Q : α → Share → Prop}
    (hQ : ∀ a, Q a y) : Does P p (onFs x) y Q := does_keeps hP hCalling (keeps_tied hx) hQ

end Lift

section Actions

variable {P : Share → Prop} {p : Slot} {y : Share} {α β : Type}

theorem does_act (hP : P y) (hCalling : y.calling = true) {f : World → Except Halt (α × World)} {Q : α → Share → Prop}
    (hf : ∀ w g, Owned w g → g p = y → match f w with
      | .error e => e ≠ .freed
      | .ok (a, w') => ∃ g', Owned w' g' ∧ worldSharing.Others p g g' ∧ Q a (g' p)) : Does P p (act f) y Q := by
  refine holds_single hP (calling_not_idle hCalling) fun w _ g h hg => ?_
  have hThis := hf w g h hg
  revert hThis
  cases f w with
  | error e => exact id
  | ok r => exact id

theorem does_getW (hP : P y) (hCalling : y.calling = true) {f : World → α} {Q : α → Share → Prop}
    (hQ : ∀ w g, Owned w g → g p = y → Q (f w) y) : Does P p (getW f) y Q :=
  does_act hP hCalling fun w g h hg => ⟨g, h, .refl p g, by rw [hg]; exact hQ w g h hg⟩

theorem does_fsAct (hP : P y) (hCalling : y.calling = true) {f : Kern → Except Fs.Stop (α × Kern)} {Q : α → Share → Prop}
    (hf : ∀ w g a s, Owned w g → g p = y → f w.fs = .ok (a, s) →
      ∃ g', Owned (setFs s w) g' ∧ worldSharing.Others p g g' ∧ Q a (g' p)) : Does P p (onFs (Fs.act f)) y Q := by
  refine holds_single hP (calling_not_idle hCalling) fun w _ g h hg => ?_
  cases hEq : f w.fs with
  | error e =>
    dsimp only
    exact stop_not_bad e
  | ok r =>
    exact hf w g r.1 r.2 h hg hEq

theorem does_bind {x : WM β} {k : β → WM α} {Q : α → Share → Prop} (hx : Does P p x y fun b y' => Does P p (k b) y' Q) :
    Does P p (x >>= k) y Q := holds_bind hx

end Actions

end Xv6Rpi.Handles
