import Xv6Rpi.Lib.Run
import Xv6Rpi.Sched.Step

/-! # Traps

The way of a process into the kernel and back: `trap_swi` and `trap_irq` save a trap frame
and call `swi_handler` or `irq_handler`, and `trapret` restores what the innermost frame
holds. A new process comes to `trapret` from `forkret`. The kernel code in between is that of
the processors; neither handler reads `killed`.
-/

namespace Xv6Rpi.Sched

def sysFork : Int := 1
def sysExit : Int := 2
def sysWait : Int := 3
def sysKill : Int := 6

def nelemSyscalls : Int := 23

inductive Trap where
  /-- `swi_handler`, for the system call with the number in `r0`. -/
  | swi (num : Int)
  | irq
  | forkret
  deriving DecidableEq

/-- What the code of a trap may call in `proc.c`. `exit`, `wait` and `kill` have one caller
each, `allocproc` is called by `fork`, and `yield` by nothing. -/
def Trap.invokes : Trap → Call → Bool
  | _, .wakeup _ _ => true
  | .irq, .sleep _ _ => false
  | _, .sleep _ _ => true
  | .swi num, .allocproc => num = sysFork
  | .swi num, .exit => num = sysExit
  | .swi num, .wait => num = sysWait
  | .swi num, .kill _ => num = sysKill
  | _, _ => false

/-- A trap frame: whose handler runs on top of it, and whether the saved status register has
interrupts enabled. -/
structure Frame where
  trap : Trap
  spsr : Bool
  deriving DecidableEq

/-- The processors with the trap frames of every process, the innermost first; there are none
in user mode. `doomed` is kept for the statements only: the slots whose process `kill`
returned 0 for. -/
structure Traps (C : Type) where
  sched : Machine C
  frames : Slot → List Frame
  doomed : Slot → Bool

inductive TrapAct (C : Type) where
  /-- The kernel code of the processor goes on. -/
  | kernel (a : Act C)
  /-- The program makes a system call. -/
  | swi (num : Int)
  | irq
  /-- The handler returns, and the frame is restored. -/
  | trapret
  deriving DecidableEq

namespace Traps

variable {C : Type} [DecidableEq C]

/-- The kernel code that a processor can execute: any outside of a process, and else what the
innermost trap does. -/
def allows (m : Traps C) (c : C) (a : Act C) : Bool :=
  match (m.sched.cpu c).proc with
  | none => true
  | some p =>
    match m.frames p, a with
    | [], _ => false
    | _, .mode _ => false
    | f :: _, .invoke g => f.trap.invokes g
    | _ :: _, _ => true

/-- The frames after a piece of kernel code: `fork` copies the caller's frame for the child,
which starts in `forkret`. -/
def framesAfter (m : Traps C) (c : C) : Act C → Slot → List Frame
  | .page a =>
    match (m.sched.cpu c).pc, (m.sched.cpu c).proc.bind fun p => (m.frames p).head? with
    | .copy q, some f => if a = 0 then m.frames else Function.update m.frames q [⟨.forkret, f.spsr⟩]
    | _, _ => m.frames
  | _ => m.frames

/-- A `kill` that finds its pid dooms a slot; the next process in the slot starts anew. -/
def doomedBody (m : Traps C) (c : C) : Call → Slot → Bool
  | .kill pid => fun p => m.doomed p || slots.find? (fun q => (m.sched.tbl.proc q).pid = pid) = some p
  | .allocproc =>
    match m.sched.tbl.allocproc with
    | some (p, _) => Function.update m.doomed p false
    | none => m.doomed
  | .wait =>
    match (m.sched.cpu c).proc.map fun p => (m.sched.tbl.wait p).1 with
    | some (.reaped p _) => Function.update m.doomed p false
    | _ => m.doomed
  | _ => m.doomed

def doomedAfter (m : Traps C) (c : C) : Slot → Bool :=
  match (m.sched.cpu c).pc with
  | .body f => m.doomedBody c f
  | _ => m.doomed

def Frame.returns (f : Frame) : Bool := f.trap ≠ .swi sysExit

/-- A trap saves the interrupt flag and clears it. For the number `NELEM(syscalls)` the handler
reads the table `syscalls` beyond its end. -/
def trap (m : Traps C) (c : C) (t : Trap) : Option (Traps C) :=
  (m.sched.cpu c).proc.bind fun p =>
    (m.sched.step c (.mode false)).map fun s =>
      { m with sched := s, frames := Function.update m.frames p (⟨t, (m.sched.cpu c).irq⟩ :: m.frames p) }

def trapret (m : Traps C) (c : C) : Option (Traps C) :=
  (m.sched.cpu c).proc.bind fun p =>
    match m.frames p with
    | [] => none
    | f :: fs =>
      if Frame.returns f then
        (m.sched.step c (.mode f.spsr)).map fun s =>
          { m with sched := s, frames := Function.update m.frames p fs }
      else none

def inUser (m : Traps C) (c : C) : Bool :=
  match (m.sched.cpu c).proc with
  | none => false
  | some p => m.frames p = []

def step (m : Traps C) : C × TrapAct C → Option (Traps C)
  | (c, .kernel a) =>
    if m.allows c a then
      (m.sched.step c a).map fun s => ⟨s, m.framesAfter c a, m.doomedAfter c⟩
    else none
  | (c, .swi num) => if m.inUser c ∧ num ≠ nelemSyscalls then m.trap c (.swi num) else none
  | (c, .irq) => if (m.sched.cpu c).irq then m.trap c .irq else none
  | (c, .trapret) => m.trapret c

/-- After `userinit`, which crafts the frame of the first process. -/
def boot (kstack pgdir : Nat) (enabled : C → Bool) (spsr : Bool) : Traps C where
  sched := Machine.boot kstack pgdir enabled
  frames := Function.update (fun _ => []) 0 [⟨.forkret, spsr⟩]
  doomed _ := false

/-! ## What the law says of a step -/

/-- The frame that a step takes off the stack of a process, when it is the last one: the
process returns to user mode. -/
def Leaves (m : Traps C) (c : C) (a : TrapAct C) (p : Slot) (f : Frame) : Prop :=
  a = .trapret ∧ (m.sched.cpu c).proc = some p ∧ m.frames p = [f]

/-- When a handler returns to user mode in a process with `killed` set, the process goes to
`exit` instead; and no process returns to user mode that `kill` returned 0 for. -/
def Obeyed (m : Traps C) (x : C × TrapAct C) (m' : Traps C) : Prop :=
  ∀ p f, m.Leaves x.1 x.2 p f →
    (f.trap ≠ .forkret → (m.sched.tbl.proc p).killed = true →
      m'.frames p ≠ [] ∧ (m'.sched.cpu x.1).pc = .call .exit) ∧
    (m.doomed p = true → m'.frames p ≠ [])

/-- No process with `killed` set is at the end of a handler that leads back to user mode, nor is
a new process at the end of `forkret` that `kill` returned 0 for. -/
def NoneKilled (m : Traps C) (x : C × TrapAct C) (_ : Traps C) : Prop :=
  ∀ p f, m.Leaves x.1 x.2 p f →
    (f.trap ≠ .forkret → (m.sched.tbl.proc p).killed = false) ∧ (f.trap = .forkret → m.doomed p = false)

/-- A doomed slot has `killed` set. -/
def Marked (m : Traps C) : Prop := ∀ p, m.doomed p = true → (m.sched.tbl.proc p).killed = true

end Traps

theorem Machine.Step.killed {C : Type} [DecidableEq C] {m m' : Machine C} {c : C} (hs : m.Step c m')
    (hKill : ∀ pid, (m.cpu c).pc ≠ .body (.kill pid)) (hWait : (m.cpu c).pc ≠ .body .wait) (p : Slot) :
    (m'.tbl.proc p).killed = (m.tbl.proc p).killed := by
  cases hs with
  | quiet m' hq => cases hq <;> rfl
  | kill pid hpc => exact absurd hpc (hKill pid)
  | reaped q r hpc hProc hr hz => exact absurd hpc hWait
  | waitSleeps q hpc hProc hNone => exact absurd hpc hWait
  | wakeup chan irq hpc =>
    obtain ⟨s, -, he, -⟩ := m.tbl.wakeup1_proc (some chan) p
    simp [he]
  | exit q hpc hProc =>
    obtain ⟨s, -, he, -⟩ := m.tbl.exit_proc q p
    simp [he]
  | forked q pid hpc hProc => rfl
  | _ =>
    -- the other stores are to one slot each, and to other fields
    simp only [Machine.logs_tbl, Machine.goto_tbl, Machine.setCpu_tbl, Machine.withTbl_tbl, Ptable.setState,
      Ptable.setParent, Ptable.set_proc_eq]
    split <;> rfl

namespace Traps

variable {C : Type} [DecidableEq C]

theorem step_of_body {m m' : Machine C} {c : C} {a : Act C} {f : Call} (hpc : (m.cpu c).pc = .body f)
    (h : m.step c a = some m') : m.body c f = some m' := by
  cases a with
  | next => simpa [Machine.step, Machine.next, hpc] using h
  | invoke g => simp [Machine.step, Machine.invoke, hpc] at h
  | _ => simp [Machine.step, hpc] at h

theorem kill_killed (t : Ptable) (pid : Pid) {p : Slot}
    (hp : (t.proc p).killed = true ∨ slots.find? (fun q => (t.proc q).pid = pid) = some p) :
    ((t.kill pid).2.proc p).killed = true := by
  rw [Ptable.kill]
  cases hf : slots.find? fun q => (t.proc q).pid = pid with
  | none => simpa [hf] using hp
  | some q =>
    rcases eq_or_ne p q with rfl | hne
    · simp
    · have hKilled : (t.proc p).killed = true := by simpa [hf, hne.symm] using hp
      simpa [Ptable.set_proc_of_ne _ _ hne] using hKilled

omit [DecidableEq C] in
theorem doomedBody_kill (m : Traps C) (c : C) (pid : Pid) (p : Slot) : m.doomedBody c (.kill pid) p =
    (m.doomed p || slots.find? (fun q => (m.sched.tbl.proc q).pid = pid) = some p) := rfl

omit [DecidableEq C] in
theorem doomedBody_wait {m : Traps C} {c : C} {p : Slot} (hProc : (m.sched.cpu c).proc = some p) :
    m.doomedBody c .wait = match (m.sched.tbl.wait p).1 with
      | .reaped q _ => Function.update m.doomed q false
      | _ => m.doomed := by
  change (match (m.sched.cpu c).proc.map fun p => (m.sched.tbl.wait p).1 with
    | some (.reaped q _) => Function.update m.doomed q false
    | _ => m.doomed) = _
  rw [hProc]
  cases hw : (m.sched.tbl.wait p).1 <;> simp [hw]

omit [DecidableEq C] in
theorem doomedBody_allocproc (m : Traps C) (c : C) :
    m.doomedBody c .allocproc = m.doomed ∨ ∃ q, m.doomedBody c .allocproc = Function.update m.doomed q false := by
  change (match m.sched.tbl.allocproc with
    | some (p, _) => Function.update m.doomed p false
    | none => m.doomed) = _ ∨ ∃ q, (match m.sched.tbl.allocproc with
    | some (p, _) => Function.update m.doomed p false
    | none => m.doomed) = _
  cases m.sched.tbl.allocproc with
  | none => exact .inl rfl
  | some r => exact .inr ⟨r.1, rfl⟩

theorem update_false {f : Slot → Bool} {p q : Slot} (h : Function.update f q false p = true) :
    p ≠ q ∧ f p = true := by
  rcases eq_or_ne p q with rfl | hne
  · simp at h
  · exact ⟨hne, by rwa [Function.update_of_ne hne] at h⟩

omit [DecidableEq C] in
theorem doomedAfter_eq {m : Traps C} {c : C} {f : Call} (hpc : (m.sched.cpu c).pc = .body f) :
    m.doomedAfter c = m.doomedBody c f := by
  simp [doomedAfter, hpc]

theorem Marked.body {m : Traps C} (h : m.Marked) {c : C} {f : Call} {s : Machine C}
    (hs : m.sched.Step c s) (hpc : (m.sched.cpu c).pc = .body f) (hf : m.sched.body c f = some s) {p : Slot}
    (hp : m.doomedBody c f p = true) : (s.tbl.proc p).killed = true := by
  have hSame (hKill : ∀ pid, f ≠ .kill pid) (hWait : f ≠ .wait) :
      (s.tbl.proc p).killed = (m.sched.tbl.proc p).killed :=
    hs.killed (fun pid he => hKill pid (Pc.body.inj (hpc.symm.trans he)))
      (fun he => hWait (Pc.body.inj (hpc.symm.trans he))) p
  cases f with
  | kill pid =>
    obtain rfl := Option.some.inj hf
    rw [doomedBody_kill, Bool.or_eq_true, decide_eq_true_eq] at hp
    exact kill_killed m.sched.tbl pid (hp.imp_left (h p))
  | wait =>
    obtain ⟨q, hProc, rfl⟩ := Option.map_eq_some_iff.mp hf
    rw [doomedBody_wait hProc] at hp
    obtain ⟨r, -, -, hw⟩ | ⟨-, hw | hw⟩ := m.sched.tbl.wait_cases q
    · simp only [hw] at hp ⊢
      obtain ⟨hne, hp⟩ := update_false hp
      simpa [Machine.log, Ptable.set_proc_of_ne _ _ hne] using h p hp
    · simp only [hw] at hp ⊢
      exact h p hp
    · simp only [hw] at hp ⊢
      rcases eq_or_ne p q with rfl | hne
      · simpa [Machine.log] using h p hp
      · simpa [Machine.log, Ptable.set_proc_of_ne _ _ hne] using h p hp
  | allocproc =>
    rw [hSame (by simp) (by simp)]
    obtain he | ⟨q, he⟩ := m.doomedBody_allocproc c
    · exact h p (he ▸ hp)
    · exact h p (update_false (he ▸ hp)).2
  | _ =>
    rw [hSame (by simp) (by simp)]
    exact h p hp

theorem Marked.kernel {m : Traps C} (h : m.Marked) {c : C} {a : Act C} {s : Machine C}
    (hs : m.sched.step c a = some s) : Marked ⟨s, m.framesAfter c a, m.doomedAfter c⟩ := by
  intro p hp
  have hStep := Machine.step_cases hs
  by_cases hBody : ∃ f, (m.sched.cpu c).pc = .body f
  · obtain ⟨f, hpc⟩ := hBody
    exact h.body hStep hpc (step_of_body hpc hs) (congrFun (doomedAfter_eq hpc) p ▸ hp)
  · have hpc (f : Call) : (m.sched.cpu c).pc ≠ .body f := fun he => hBody ⟨f, he⟩
    have hDoomed : m.doomedAfter c = m.doomed := by
      rw [doomedAfter]
      split
      · exact absurd ‹_› (hpc _)
      · rfl
    exact (hStep.killed (fun pid => hpc (.kill pid)) (hpc .wait) p).trans (h p (congrFun hDoomed p ▸ hp))

theorem mode_tbl {m m' : Machine C} {c : C} {on : Bool} (h : m.step c (.mode on) = some m') :
    m'.tbl = m.tbl := by
  obtain ⟨-, he⟩ := Option.ite_none_right_eq_some.mp h
  obtain rfl := Option.some.inj he
  rfl

theorem trap_cases {m m' : Traps C} {c : C} {t : Trap} (h : m.trap c t = some m') :
    m'.sched.tbl = m.sched.tbl ∧ m'.doomed = m.doomed := by
  obtain ⟨p, -, h⟩ := Option.bind_eq_some_iff.mp h
  obtain ⟨s, hs, rfl⟩ := Option.map_eq_some_iff.mp h
  exact ⟨mode_tbl hs, rfl⟩

/-- `trapret` takes one frame off, whatever `killed` says. -/
theorem trapret_cases {m m' : Traps C} {c : C} (h : m.trapret c = some m') :
    ∃ p f fs, (m.sched.cpu c).proc = some p ∧ m.frames p = f :: fs ∧ Frame.returns f = true ∧
      m'.frames = Function.update m.frames p fs ∧ m'.sched.tbl = m.sched.tbl ∧ m'.doomed = m.doomed := by
  obtain ⟨p, hProc, h⟩ := Option.bind_eq_some_iff.mp h
  cases hf : m.frames p with
  | nil => simp [hf] at h
  | cons f fs =>
    rw [hf] at h
    obtain ⟨hReturns, h⟩ := Option.ite_none_right_eq_some.mp h
    obtain ⟨s, hs, rfl⟩ := Option.map_eq_some_iff.mp h
    exact ⟨p, f, fs, hProc, hf, hReturns, rfl, mode_tbl hs, rfl⟩

theorem Marked.step {m m' : Traps C} (h : m.Marked) {x : C × TrapAct C} (hs : m.step x = some m') :
    m'.Marked := by
  obtain ⟨c, a⟩ := x
  have hSame (hTbl : m'.sched.tbl = m.sched.tbl) (hDoomed : m'.doomed = m.doomed) : m'.Marked := by
    intro p hp
    rw [hTbl]
    exact h p (hDoomed ▸ hp)
  cases a with
  | kernel a =>
    obtain ⟨-, hs⟩ := Option.ite_none_right_eq_some.mp hs
    obtain ⟨s, hKernel, rfl⟩ := Option.map_eq_some_iff.mp hs
    exact h.kernel hKernel
  | swi num =>
    obtain ⟨-, hs⟩ := Option.ite_none_right_eq_some.mp hs
    obtain ⟨hTbl, hDoomed⟩ := trap_cases hs
    exact hSame hTbl hDoomed
  | irq =>
    obtain ⟨-, hs⟩ := Option.ite_none_right_eq_some.mp hs
    obtain ⟨hTbl, hDoomed⟩ := trap_cases hs
    exact hSame hTbl hDoomed
  | trapret =>
    obtain ⟨-, -, -, -, -, -, -, hTbl, hDoomed⟩ := trapret_cases hs
    exact hSame hTbl hDoomed

/-- The last frame of a process taken off, the process is in user mode. -/
theorem Leaves.frames {m m' : Traps C} {c : C} {a : TrapAct C} {p : Slot} {f : Frame} (h : m.Leaves c a p f)
    (hs : m.step (c, a) = some m') : m'.frames p = [] := by
  obtain ⟨rfl, hProc, hFrames⟩ := h
  obtain ⟨q, g, gs, hq, hg, -, hAfter, -⟩ := trapret_cases hs
  obtain rfl := Option.some.inj (hProc.symm.trans hq)
  obtain ⟨-, rfl⟩ := List.cons.inj (hFrames.symm.trans hg)
  simp [hAfter]

omit [DecidableEq C] in
theorem NoneKilled.obeyed {m m' : Traps C} (hm : m.Marked) {x : C × TrapAct C} (h : m.NoneKilled x m') :
    m.Obeyed x m' := by
  intro p f hLeaves
  obtain ⟨hKilled, hDoomed⟩ := h p f hLeaves
  refine ⟨fun hf hk => ?_, fun hd => ?_⟩
  · simp [hKilled hf] at hk
  · by_cases hf : f.trap = .forkret
    · simp [hDoomed hf] at hd
    · simpa [hKilled hf] using hm p hd

theorem Obeyed.noneKilled {m m' : Traps C} {x : C × TrapAct C} (hs : m.step x = some m')
    (h : m.Obeyed x m') : m.NoneKilled x m' := by
  intro p f hLeaves
  have hUser := hLeaves.frames hs
  obtain ⟨hKilled, hDoomed⟩ := h p f hLeaves
  refine ⟨fun hf => ?_, fun _ => ?_⟩
  · by_contra hk
    exact (hKilled hf (by simpa using hk)).1 hUser
  · by_contra hd
    exact hDoomed (by simpa using hd) hUser

omit [DecidableEq C] in
theorem boot_marked (kstack pgdir : Nat) (enabled : C → Bool) (spsr : Bool) :
    (boot kstack pgdir enabled spsr).Marked := by
  intro p hp
  cases hp

/-- In every run the law holds of every step exactly if no handler that leads back to user mode
ends with `killed` set. -/
theorem killed_stays_in_kernel_iff (kstack pgdir : Nat) (enabled : C → Bool) (spsr : Bool)
    (as : List (C × TrapAct C)) :
    Along step Obeyed (boot kstack pgdir enabled spsr) as ↔
      Along step NoneKilled (boot kstack pgdir enabled spsr) as := by
  have hKeep (m : Traps C) (x : C × TrapAct C) (m' : Traps C) (hs : m.step x = some m') (hm : m.Marked) :
      m'.Marked := hm.step hs
  constructor
  · exact Along.imp hKeep (fun _ _ _ hs _ h => h.noneKilled hs) (boot_marked kstack pgdir enabled spsr)
  · exact Along.imp hKeep (fun _ _ _ _ hm h => h.obeyed hm) (boot_marked kstack pgdir enabled spsr)

def forkRun : List (Fin 2 × TrapAct (Fin 2)) :=
  [(0, .kernel .next), (0, .kernel .next), (0, .kernel .next), (0, .trapret),
    (0, .swi sysFork), (0, .kernel (.invoke .allocproc)), (0, .kernel .next), (0, .kernel .next),
    (0, .kernel .next), (0, .kernel (.page 1)), (0, .kernel (.page 1)), (0, .kernel .next),
    (0, .kernel .next), (0, .kernel .next), (0, .trapret),
    (1, .kernel .next), (1, .kernel .next), (1, .kernel .next), (1, .kernel .next), (1, .trapret)]

/-- The parent kills the child, which a timer interrupt then takes out of user mode. -/
def killRun : List (Fin 2 × TrapAct (Fin 2)) :=
  forkRun ++ [(0, .swi sysKill), (0, .kernel (.invoke (.kill 2))), (0, .kernel .next),
    (0, .kernel .next), (0, .kernel .next), (0, .trapret), (1, .irq)]

def bootTwo : Traps (Fin 2) := boot 1 1 (fun _ => true) true

theorem killRun_last : ((execute step bootTwo killRun).any fun m =>
    decide ((m.sched.cpu 1).proc = some 1 ∧ m.frames 1 = [⟨.irq, true⟩] ∧
      (m.sched.tbl.proc 1).killed = true) && (m.step (1, .trapret)).isSome) = true := by
  decide +kernel

/-- `irq_handler` returns to the killed child, and the child goes on in user mode. -/
theorem killed_child_goes_on : ¬ Along step Obeyed bootTwo (killRun ++ [(1, .trapret)]) := by
  intro h
  obtain ⟨m, hRun, hm⟩ := (Option.any_eq_true _ _).mp killRun_last
  obtain ⟨hm, hStep⟩ := Bool.and_eq_true_iff.mp hm
  obtain ⟨hProc, hFrames, hKilled⟩ := of_decide_eq_true hm
  obtain ⟨m', hStep⟩ := Option.isSome_iff_exists.mp hStep
  have hLeaves : m.Leaves 1 .trapret 1 ⟨.irq, true⟩ := ⟨rfl, hProc, hFrames⟩
  have hObeyed := h.at hRun hStep 1 _ hLeaves
  exact (hObeyed.1 (by decide) hKilled).1 (hLeaves.frames hStep)

end Traps

end Xv6Rpi.Sched
