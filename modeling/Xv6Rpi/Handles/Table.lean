import Xv6Rpi.Handles.Slots

/-! # Processes come and go

The rules for the actions on the process table. A slot that `allocproc` gives out is empty, since `exit` has closed everything;
it belongs to the process that forks until it can run.
-/

namespace Xv6Rpi.Handles

open Fs (Kern FsM File ProcFiles nfile nofile ninode)
open Prog Sharing
open Sched (Ptable Slot ProcState Pid)

section Procs

variable {w w' : World} {g : Slot → Share} {p np : Slot} {y : Share} {v : ProcFiles} {c : Option (Slot × ProcFiles)}

theorem ProcsInv.states (h : ProcsInv w g) (hProc : w'.fs.proc = w.fs.proc)
    (hState : ∀ q, (w'.tbl.proc q).state = (w.tbl.proc q).state ∨ Live (w.tbl.proc q).state ∧ Live (w'.tbl.proc q).state) :
    ProcsInv w' g where
  slots q := by
    rw [hProc]
    exact h.slots q
  rest := h.rest
  live q hq := by
    rcases hState q with hSame | hBoth
    · rw [hSame]
      exact h.live q hq
    · exact hBoth.2
  dead q hq := by
    rcases hState q with hSame | hBoth
    · exact h.dead q (by rwa [hSame] at hq)
    · exact absurd hBoth.2 (not_live_of_dead hq)
  child q r u hq := by
    obtain ⟨hEmbryo, hSlots⟩ := h.child q r u hq
    rcases hState r with hSame | hBoth
    · exact ⟨hSame.trans hEmbryo, hSlots⟩
    · exact absurd hBoth.1 (not_live_of_embryo hEmbryo)
  one := h.one
  cwd n j hj := h.cwd n j (by rwa [hProc] at hj)

/-- The state of a slot without a running process changes, and with it what child a process is making. -/
theorem ProcsInv.setState (h : ProcsInv w g) (np : Slot) (hg : g p = y) (hCalling : y.calling = true) (hProc : w'.fs.proc = w.fs.proc)
    (hNe : ∀ q, q ≠ np → (w'.tbl.proc q).state = (w.tbl.proc q).state) (hNot : ¬Live (w.tbl.proc np).state)
    (hDead : (w'.tbl.proc np).state = .unused ∨ (w'.tbl.proc np).state = .zombie → NoFiles (g np).slots)
    (hOther : ∀ q u, q ≠ p → (g q).child ≠ some (np, u))
    (hChild : ∀ q u, c = some (q, u) → (w'.tbl.proc q).state = .embryo ∧ (g q).slots = u ∧ q ≠ p ∧
      ∀ r u', r ≠ p → (g r).child ≠ some (q, u')) : ProcsInv w' (Function.update g p { y with child := c }) := by
  have hCalling' : (g p).calling = true := by rw [hg]; exact hCalling
  have hSlots : ∀ q, (Function.update g p { y with child := c } q).slots = (g q).slots := fun q => by
    by_cases hq : q = p
    · rw [hq, Function.update_self, hg]
    · rw [Function.update_of_ne hq]
  have hSelf : (Function.update g p { y with child := c } p).child = c := by rw [Function.update_self]
  refine ⟨fun q => ?_, fun q hq => ?_, fun q hq => ?_, fun q hq => ?_, fun q r u hq => ?_, fun q q' r u u' hq hq' => ?_, fun n j hj => ?_⟩
  · rw [hProc, hSlots]
    exact h.slots q
  · by_cases hqp : q = p
    · rw [hqp, Function.update_self] at hq
      exact absurd (hCalling.symm.trans hq) (by decide)
    · rw [Function.update_of_ne hqp] at hq ⊢
      exact h.rest q hq
  · have hWas : (g q).calling = true := by
      by_cases hqp : q = p
      · rw [hqp]
        exact hCalling'
      · rwa [Function.update_of_ne hqp] at hq
    have hLive := h.live q hWas
    rw [hNe q fun hEq => hNot (hEq ▸ hLive)]
    exact hLive
  · rw [hSlots]
    by_cases hqn : q = np
    · rw [hqn] at hq ⊢
      exact hDead hq
    · rw [hNe q hqn] at hq
      exact h.dead q hq
  · rw [hSlots]
    by_cases hqp : q = p
    · rw [hqp, hSelf] at hq
      exact ⟨(hChild r u hq).1, (hChild r u hq).2.1⟩
    · rw [Function.update_of_ne hqp] at hq
      rw [hNe r fun hEq => hOther q u hqp (hEq ▸ hq)]
      exact h.child q r u hq
  · by_cases hqp : q = p
    · by_cases hqp' : q' = p
      · rw [hqp, hqp']
      · rw [hqp, hSelf] at hq
        rw [Function.update_of_ne hqp'] at hq'
        exact absurd hq' ((hChild r u hq).2.2.2 q' u' hqp')
    · rw [Function.update_of_ne hqp] at hq
      by_cases hqp' : q' = p
      · rw [hqp', hSelf] at hq'
        exact absurd hq ((hChild r u' hq').2.2.2 q u hqp)
      · rw [Function.update_of_ne hqp'] at hq'
        exact h.one q q' r u u' hq hq'
  · exact h.cwd n j (by rwa [hProc] at hj)

/-- A process ends its call; one that has nothing open can be gone then. -/
theorem ProcsInv.leave (h : ProcsInv w g) (hg : g p = y) (hCalling : y.calling = true) (hRest : AtRest y)
    (hDead : (w'.tbl.proc p).state = .unused ∨ (w'.tbl.proc p).state = .zombie → NoFiles y.slots) (hProc : w'.fs.proc = w.fs.proc)
    (hState : ∀ q, q ≠ p → (w'.tbl.proc q).state = (w.tbl.proc q).state ∨ Live (w.tbl.proc q).state ∧ Live (w'.tbl.proc q).state) :
    ProcsInv w' (Function.update g p { y with calling := false, uses := none }) := by
  have hCalling' : (g p).calling = true := by rw [hg]; exact hCalling
  let y' : Share := { y with calling := false, uses := none }
  have hSlots : ∀ q, (Function.update g p y' q).slots = (g q).slots := fun q => by
    by_cases hq : q = p
    · rw [hq, Function.update_self, hg]
    · rw [Function.update_of_ne hq]
  have hKid : ∀ q, (Function.update g p y' q).child = (g q).child := fun q => by
    by_cases hq : q = p
    · rw [hq, Function.update_self, hg]
    · rw [Function.update_of_ne hq]
  refine ⟨fun q => ?_, fun q hq => ?_, fun q hq => ?_, fun q hq => ?_, fun q r u hq => ?_, fun q q' r u u' hq hq' => ?_, fun n j hj => ?_⟩
  · rw [hProc, hSlots]
    exact h.slots q
  · by_cases hqp : q = p
    · rw [hqp, Function.update_self]
      exact ⟨⟨hRest.files, hRest.made, hRest.inodes, hRest.ends, hRest.frees, hRest.child⟩, rfl⟩
    · rw [Function.update_of_ne hqp] at hq ⊢
      exact h.rest q hq
  · by_cases hqp : q = p
    · rw [hqp, Function.update_self] at hq
      cases hq
    · rw [Function.update_of_ne hqp] at hq
      rcases hState q hqp with hSame | hBoth
      · rw [hSame]
        exact h.live q hq
      · exact hBoth.2
  · rw [hSlots]
    by_cases hqp : q = p
    · rw [hqp] at hq ⊢
      rw [hg]
      exact hDead hq
    · rcases hState q hqp with hSame | hBoth
      · exact h.dead q (by rwa [hSame] at hq)
      · exact absurd hBoth.2 (not_live_of_dead hq)
  · rw [hKid] at hq
    rw [hSlots]
    obtain ⟨hEmbryo, hThis⟩ := h.child q r u hq
    have hrp : r ≠ p := fun hEq => h.not_child hCalling' (hEq ▸ hq)
    rcases hState r hrp with hSame | hBoth
    · exact ⟨hSame.trans hEmbryo, hThis⟩
    · exact absurd hBoth.1 (not_live_of_embryo hEmbryo)
  · rw [hKid] at hq hq'
    exact h.one q q' r u u' hq hq'
  · exact h.cwd n j (by rwa [hProc] at hj)

theorem ProcsInv.enter (h : ProcsInv w g) (hg : g p = y) (hLive : Live (w.tbl.proc p).state) :
    ProcsInv w (Function.update g p { y with calling := true }) := by
  let y' : Share := { y with calling := true }
  have hSlots : ∀ q, (Function.update g p y' q).slots = (g q).slots := fun q => by
    by_cases hq : q = p
    · rw [hq, Function.update_self, hg]
    · rw [Function.update_of_ne hq]
  have hKid : ∀ q, (Function.update g p y' q).child = (g q).child := fun q => by
    by_cases hq : q = p
    · rw [hq, Function.update_self, hg]
    · rw [Function.update_of_ne hq]
  refine ⟨fun q => ?_, fun q hq => ?_, fun q hq => ?_, fun q hq => ?_, fun q r u hq => ?_, fun q q' r u u' hq hq' => ?_, h.cwd⟩
  · rw [hSlots]
    exact h.slots q
  · by_cases hqp : q = p
    · rw [hqp, Function.update_self] at hq
      cases hq
    · rw [Function.update_of_ne hqp] at hq ⊢
      exact h.rest q hq
  · by_cases hqp : q = p
    · rw [hqp]
      exact hLive
    · rw [Function.update_of_ne hqp] at hq
      exact h.live q hq
  · rw [hSlots]
    exact h.dead q hq
  · rw [hKid] at hq
    rw [hSlots]
    exact h.child q r u hq
  · rw [hKid] at hq hq'
    exact h.one q q' r u u' hq hq'

theorem Owned.setTable (h : Owned w g) (hg : g p = y) {t : Ptable} {y' : Share} (hFiles : y'.files = y.files) (hMade : y'.made = y.made)
    (hInodes : y'.inodes = y.inodes) (hEnds : y'.ends = y.ends) (hFrees : y'.frees = y.frees) (hUses : y'.uses = y.uses ∨ y'.uses = none)
    (hProcs : ProcsInv { w with tbl := t } (Function.update g p y')) : Owned { w with tbl := t } (Function.update g p y') := by
  refine h.moved rfl rfl rfl rfl (all_same (by rw [hg, hFiles])) (all_same (by rw [hg, hInodes])) (all_same (by rw [hg, hEnds]))
    (all_same (by rw [hg, hFrees])) hProcs (knows_update (fun q _ => h.knows q) ?_)
  have hMine := h.knows p
  rw [hg] at hMine
  refine ⟨fun f hf => ?_, fun f pi hf => ?_⟩
  · rw [hMade] at hf
    rw [hFiles]
    exact hMine.made f hf
  · rw [hFiles]
    rcases hUses with hSame | hNone
    · exact hMine.uses f pi (hSame ▸ hf)
    · rw [hNone] at hf
      cases hf

end Procs

section Rules

variable {P : Share → Prop} {p np : Slot} {y : Share} {v : ProcFiles} {α : Type}

theorem does_states (hP : P y) (hCalling : y.calling = true) {r : World → α} {T : World → Ptable}
    (hState : ∀ w q, ((T w).proc q).state = (w.tbl.proc q).state ∨ Live (w.tbl.proc q).state ∧ Live ((T w).proc q).state)
    {Q : α → Share → Prop} (hQ : ∀ w, Q (r w) y) : Does P p (act fun w => .ok (r w, { w with tbl := T w })) y Q := by
  refine does_act hP hCalling fun w g h hg => ?_
  have hProcs : ProcsInv { w with tbl := T w } g := h.procs.states rfl (hState w)
  have hOwned : Owned { w with tbl := T w } g := h.moved rfl rfl rfl rfl rfl rfl rfl rfl hProcs h.knows
  exact ⟨g, hOwned, .refl p g, by rw [hg]; exact hQ w⟩

theorem does_childState (hP : P y) (hCalling : y.calling = true) (hChild : y.child = some (np, v)) {r : World → α} {T : World → Ptable}
    (hNe : ∀ w q, q ≠ np → ((T w).proc q).state = (w.tbl.proc q).state)
    (hDead : ∀ w, ((T w).proc np).state = .unused ∨ ((T w).proc np).state = .zombie → NoFiles v) {Q : α → Share → Prop}
    (hQ : ∀ w, Q (r w) { y with child := none }) : Does P p (act fun w => .ok (r w, { w with tbl := T w })) y Q := by
  refine does_act hP hCalling fun w g h hg => ?_
  have hChild' : (g p).child = some (np, v) := by rw [hg]; exact hChild
  obtain ⟨hEmbryo, hSlots⟩ := h.procs.child p np v hChild'
  have hProcs : ProcsInv { w with tbl := T w } (Function.update g p { y with child := none }) := by
    refine h.procs.setState np hg hCalling rfl (hNe w) (not_live_of_embryo hEmbryo) (fun hd => ?_) (fun q u hq hEq => ?_) fun q u hEq => ?_
    · rw [hSlots]
      exact hDead w hd
    · exact hq (h.procs.one q p np u v hEq hChild')
    · cases hEq
  have hOwned : Owned { w with tbl := T w } (Function.update g p { y with child := none }) :=
    h.setTable hg rfl rfl rfl rfl rfl (Or.inl rfl) hProcs
  refine ⟨_, hOwned, others_update p g _, ?_⟩
  rw [Function.update_self]
  exact hQ w

theorem does_allocproc (hP : P y) (hCalling : y.calling = true) {Q : Option Slot → Share → Prop}
    (hNone : Q none y) (hSome : ∀ np v, NoFiles v → Q (some np) { y with child := some (np, v) }) :
    Does P p (act fun w => match w.tbl.allocproc with
      | none => .ok (none, w)
      | some (np, t) => .ok (some np, { w with tbl := t })) y Q := by
  refine does_act hP hCalling fun w g h hg => ?_
  cases hAlloc : w.tbl.allocproc with
  | none => exact ⟨g, h, .refl p g, by rw [hg]; exact hNone⟩
  | some r =>
    obtain ⟨np, t⟩ := r
    obtain ⟨hUnused, ht⟩ := Ptable.allocproc_eq_some hAlloc
    have hEmpty := h.procs.dead np (Or.inl hUnused)
    have hCalling' : (g p).calling = true := by rw [hg]; exact hCalling
    have hNotLive : ¬Live (w.tbl.proc np).state := not_live_of_dead (Or.inl hUnused)
    have hNe : np ≠ p := fun hEq => hNotLive (hEq ▸ h.procs.live p hCalling')
    let made : Sched.Proc → Sched.Proc := fun q => { q with state := .embryo, pid := w.tbl.nextpid }
    have hNobody : ∀ q u, (g q).child ≠ some (np, u) := fun q u hEq => by
      have hEmbryo := (h.procs.child q np u hEq).1
      rw [hUnused] at hEmbryo
      cases hEmbryo
    have hProcs : ProcsInv { w with tbl := t } (Function.update g p { y with child := some (np, (g np).slots) }) := by
      refine h.procs.setState np hg hCalling rfl (fun q hq => ?_) hNotLive (fun _ => hEmpty) (fun q u _ => hNobody q u) fun q u hEq => ?_
      · rw [ht]
        exact congrArg Sched.Proc.state (Ptable.set_proc_of_ne w.tbl made hq)
      · obtain ⟨hq, hu⟩ := Prod.mk.inj (Option.some.inj hEq)
        rw [← hq, ← hu, ht]
        exact ⟨congrArg Sched.Proc.state (Ptable.set_proc w.tbl np made), rfl, hNe, fun r u' _ => hNobody r u'⟩
    have hOwned : Owned { w with tbl := t } (Function.update g p { y with child := some (np, (g np).slots) }) :=
      h.setTable hg rfl rfl rfl rfl rfl (Or.inl rfl) hProcs
    refine ⟨_, hOwned, others_update p g _, ?_⟩
    rw [Function.update_self]
    exact hSome np _ hEmpty

theorem does_allocKstack (hP : P y) (hCalling : y.calling = true) (hChild : y.child = some (np, v)) (hv : NoFiles v) {kstack : Nat}
    {Q : Bool → Share → Prop} (hTrue : Q true y) (hFalse : Q false { y with child := none }) :
    Does P p (act fun w => .ok ((w.tbl.allocKstack np kstack).1, { w with tbl := (w.tbl.allocKstack np kstack).2 })) y Q := by
  by_cases hk : kstack = 0
  · refine does_childState hP hCalling hChild (fun w q hq => ?_) (fun _ _ => hv) fun w => ?_
    · rw [Ptable.allocKstack, if_pos hk, Ptable.set_proc_of_ne w.tbl _ hq]
    · rw [Ptable.allocKstack, if_pos hk]
      exact hFalse
  · refine does_states hP hCalling (fun w q => Or.inl ?_) fun w => ?_
    · rw [Ptable.allocKstack, if_neg hk, Ptable.set_proc_eq]
      by_cases hq : q = np
      · rw [if_pos hq]
      · rw [if_neg hq]
    · rw [Ptable.allocKstack, if_neg hk]
      exact hTrue

theorem does_forkCopy (hP : P y) (hCalling : y.calling = true) (hChild : y.child = some (np, v)) (hv : NoFiles v) {pgdir : Nat}
    {Q : Bool → Share → Prop} (hTrue : Q true y) (hFalse : Q false { y with child := none }) :
    Does P p (act fun w => .ok ((w.tbl.forkCopy np pgdir).1, { w with tbl := (w.tbl.forkCopy np pgdir).2 })) y Q := by
  by_cases hk : pgdir = 0
  · refine does_childState hP hCalling hChild (fun w q hq => ?_) (fun _ _ => hv) fun w => ?_
    · rw [Ptable.forkCopy, if_pos hk, Ptable.set_proc_of_ne w.tbl _ hq]
    · rw [Ptable.forkCopy, if_pos hk]
      exact hFalse
  · refine does_states hP hCalling (fun w q => Or.inl ?_) fun w => ?_
    · rw [Ptable.forkCopy, if_neg hk, Ptable.set_proc_eq]
      by_cases hq : q = np
      · rw [if_pos hq]
      · rw [if_neg hq]
    · rw [Ptable.forkCopy, if_neg hk]
      exact hTrue

theorem does_setParent (hP : P y) (hCalling : y.calling = true) {Q : Unit → Share → Prop} (hQ : Q () y) :
    Does P p (modifyW fun w => { w with tbl := w.tbl.setParent np p }) y Q := by
  refine does_states (r := fun _ => ()) (T := fun w => w.tbl.setParent np p) hP hCalling (fun w q => Or.inl ?_) fun _ => hQ
  rw [Ptable.setParent, Ptable.set_proc_eq]
  by_cases hq : q = np
  · rw [if_pos hq]
  · rw [if_neg hq]

theorem does_runnable (hP : P y) (hCalling : y.calling = true) (hChild : y.child = some (np, v)) {Q : Unit → Share → Prop}
    (hQ : Q () { y with child := none }) : Does P p (modifyW fun w => { w with tbl := w.tbl.setState np .runnable }) y Q := by
  refine does_childState (r := fun _ => ()) (T := fun w => w.tbl.setState np .runnable) hP hCalling hChild (fun w q hq => ?_)
    (fun w hDead => ?_) fun _ => hQ
  · exact congrArg Sched.Proc.state (Ptable.set_proc_of_ne w.tbl _ hq)
  · have hRunnable : ((w.tbl.setState np .runnable).proc np).state = .runnable := congrArg Sched.Proc.state (Ptable.set_proc w.tbl np _)
    rw [hRunnable] at hDead
    rcases hDead with hDead | hDead <;> cases hDead

theorem live_of_wakes {s s' : ProcState} (h : Ptable.Wakes s s') : s' = s ∨ Live s ∧ Live s' := by
  rcases h with hSame | ⟨hs, hs'⟩
  · exact Or.inl hSame
  · rw [hs, hs']
    exact Or.inr ⟨Or.inl rfl, Or.inr (Or.inl rfl)⟩

theorem does_exit (hP : P y) (hCalling : y.calling = true) (hRest : AtRest y) (hNone : NoFiles y.slots) {Q : Unit → Share → Prop}
    (hQ : Q () { y with calling := false, uses := none }) : Does P p (modifyW fun w => { w with tbl := w.tbl.exit p }) y Q := by
  refine does_act hP hCalling fun w g h hg => ?_
  have hProcs : ProcsInv { w with tbl := w.tbl.exit p } (Function.update g p { y with calling := false, uses := none }) := by
    refine h.procs.leave hg hCalling hRest (fun _ => hNone) rfl fun q hq => ?_
    obtain ⟨s, hWakes, hEq, -⟩ := Ptable.exit_proc w.tbl p q
    dsimp only
    rw [hEq, if_neg hq]
    exact live_of_wakes hWakes
  have hOwned : Owned { w with tbl := w.tbl.exit p } (Function.update g p { y with calling := false, uses := none }) :=
    h.setTable hg rfl rfl rfl rfl rfl (Or.inr rfl) hProcs
  refine ⟨_, hOwned, others_update p g _, ?_⟩
  rw [Function.update_self]
  exact hQ

theorem does_wait (hP : P y) (hCalling : y.calling = true) (hChild : y.child = none) {Q : Int → Share → Prop} (hQ : ∀ r, Q r y) :
    Does P p (wait p) y Q := by
  refine does_act hP hCalling fun w g h hg => ?_
  rcases Ptable.wait_cases w.tbl p with ⟨q, -, hZombie, hEq⟩ | ⟨-, hEq | hEq⟩
  · rw [hEq]
    have hProcs : ProcsInv { w with tbl := w.tbl.set q Ptable.reapSlot } (Function.update g p { y with child := none }) := by
      refine h.procs.setState q hg hCalling rfl (fun r hr => ?_) (not_live_of_dead (Or.inr hZombie))
        (fun _ => h.procs.dead q (Or.inr hZombie)) (fun r u _ hr => ?_) fun r u hr => ?_
      · exact congrArg Sched.Proc.state (Ptable.set_proc_of_ne w.tbl _ hr)
      · have hEmbryo := (h.procs.child r q u hr).1
        rw [hZombie] at hEmbryo
        cases hEmbryo
      · cases hr
    have hOwned : Owned { w with tbl := w.tbl.set q Ptable.reapSlot } (Function.update g p { y with child := none }) :=
      h.setTable hg rfl rfl rfl rfl rfl (Or.inl rfl) hProcs
    refine ⟨_, hOwned, others_update p g _, ?_⟩
    rw [Function.update_self, ← hChild]
    exact hQ _
  · rw [hEq]
    exact ⟨g, h, .refl p g, by rw [hg]; exact hQ _⟩
  · rw [hEq]
    exact fun hFreed => by cases hFreed

theorem does_kill (hP : P y) (hCalling : y.calling = true) {pid : Pid} {Q : Int → Share → Prop} (hQ : ∀ r, Q r y) :
    Does P p (kill pid) y Q := by
  refine does_states (r := fun w => if (w.tbl.kill pid).1 then 0 else -1) (T := fun w => (w.tbl.kill pid).2) hP hCalling
    (fun w q => ?_) fun _ => hQ _
  obtain ⟨s, k, hWakes, hEq⟩ := Ptable.kill_proc w.tbl pid q
  rw [hEq]
  exact live_of_wakes hWakes

end Rules

end Xv6Rpi.Handles
