import Xv6Rpi.Sched.Table

/-! # Processors and locks

A processor of type `C` runs the loop of `scheduler`, or the kernel code of the process it
switched to. Each step below is one processor executing its next piece of code: a piece
ends at every `acquire`, `release` and `swtch`, and at each of the stores `fork` makes
without the lock. Code outside `proc.c` may do anything that leaves the table alone; here
it takes and gives locks, and calls `proc.c`.

The list of events is kept for the statements only. No step reads it.
-/

namespace Xv6Rpi.Sched

/-- The functions that start with `acquire(&ptable.lock)`. A `wakeup` may also come from an
interrupt that an idle processor handles. Only `wait` sleeps on a slot of the table, and
with this lock; the other callers of `sleep` have a channel and a lock of their own. -/
inductive Call where
  | allocproc
  | exit
  | wait
  | yield
  | wakeup (chan : Chan) (irq : Bool)
  | kill (pid : Pid)
  | sleep (chan lk : Nat)
  deriving DecidableEq

/-- What follows `release(&ptable.lock)`. -/
inductive Next where
  | run
  | handler
  | kstack (p : Slot)
  | relock (lk : Nat)
  deriving DecidableEq

inductive Pc where
  -- scheduler(): before `acquire`, at slot `i` of the loop, and where `swtch` returns
  | idle
  | scan (i : Nat)
  | swtched (i : Nat)
  -- an interrupt handler on an idle processor
  | handler
  -- user code and kernel code outside proc.c
  | run
  -- a call before `acquire` and after it, `sched`, the return of `swtch`, `release`
  | call (f : Call)
  | body (f : Call)
  | sleep (chan lk : Nat)
  | sched (k : Resume)
  | back (k : Resume)
  | leave (n : Next)
  | relock (lk : Nat)
  -- fork() after the lock of allocproc() is released
  | kstack (p : Slot)
  | copy (p : Slot)
  | parent (p : Slot)
  | ready (p : Slot)
  | forked (pid : Pid)
  | panic (e : Panic)
  deriving DecidableEq

def Next.pc : Next → Pc
  | .run => .run
  | .handler => .handler
  | .kstack p => .kstack p
  | .relock lk => .relock lk

structure Cpu where
  pc : Pc
  proc : Option Slot
  /-- The turn of the scheduler's loop in which it called `swtch`. -/
  scheduler : Nat
  ncli : Int
  intena : Bool
  /-- Whether interrupts are enabled. -/
  irq : Bool
  enabled : Bool
  deriving DecidableEq

inductive Event (C : Type) where
  | acquired (c : C) (p : Option Slot) (lk : Lock)
  | woke (c : C) (p : Option Slot) (chan : Option Chan)
  | slept (p : Slot) (chan : Chan)
  | allocated (pid : Pid)
  | forked (parent child : Pid)
  | exited (pid : Pid)
  | reaped (parent child : Pid) (p : Slot)
  deriving DecidableEq

structure Machine (C : Type) where
  tbl : Ptable
  cpu : C → Cpu
  /-- The processor that holds a lock, as `locked` and `cpu` of the lock say. -/
  locks : Lock → Option C
  trace : List (Event C)

def pushcli (k : Cpu) : Cpu :=
  { k with irq := false, intena := if k.ncli = 0 then k.irq else k.intena, ncli := k.ncli + 1 }

def popcli (k : Cpu) (pc : Pc) : Cpu :=
  if k.irq then { k with pc := .panic .popcliInterruptible }
  else if k.ncli - 1 < 0 then { k with ncli := k.ncli - 1, pc := .panic .popcliNcli }
  else { k with ncli := k.ncli - 1, irq := k.ncli - 1 = 0 && k.intena, pc := pc }

namespace Machine

variable {C : Type} [DecidableEq C]

def setCpu (m : Machine C) (c : C) (k : Cpu) : Machine C :=
  { m with cpu := Function.update m.cpu c k }

def goto (m : Machine C) (c : C) (pc : Pc) : Machine C := m.setCpu c { m.cpu c with pc := pc }

def withTbl (m : Machine C) (t : Ptable) : Machine C := { m with tbl := t }

def logs (m : Machine C) (es : List (Event C)) : Machine C := { m with trace := es ++ m.trace }

def log (m : Machine C) (e : Event C) : Machine C := m.logs [e]

/-- `acquire(lk)`, then on at `pc`; no step while another processor holds it. -/
def acquire (m : Machine C) (c : C) (lk : Lock) (pc : Pc) : Option (Machine C) :=
  if m.locks lk = none then
    some <| ({ m with locks := Function.update m.locks lk (some c) }.setCpu c
      { pushcli (m.cpu c) with pc := pc }).log (.acquired c (m.cpu c).proc lk)
  else none

def release (m : Machine C) (c : C) (lk : Lock) (pc : Pc) : Machine C :=
  { m with locks := Function.update m.locks lk none }.setCpu c (popcli (m.cpu c) pc)

/-- `sched` up to `swtch` for the process in slot `p`, which will go on at `k`. -/
def sched (m : Machine C) (c : C) (p : Slot) (k : Resume) : Machine C :=
  if m.locks .ptable ≠ some c then m.goto c (.panic .schedPtable)
  else if (m.cpu c).ncli ≠ 1 then m.goto c (.panic .schedLocks)
  else if (m.tbl.proc p).state = .running then m.goto c (.panic .schedRunning)
  else if (m.cpu c).irq then m.goto c (.panic .schedInterruptible)
  else (m.withTbl (m.tbl.set p fun q => { q with context := ⟨k, (m.cpu c).intena⟩ })).goto c
    (.swtched (m.cpu c).scheduler)

/-- The turn of the scheduler's loop for slot `p`, up to `swtch`, which hands `ptable.lock` to
the process. -/
def switch (m : Machine C) (c : C) (p : Slot) : Machine C :=
  if (m.tbl.proc p).pgdir = 0 then
    m.setCpu c { m.cpu c with proc := some p, pc := .panic .switchuvmNoPgdir }
  else ((m.withTbl (m.tbl.setState p .running)).setCpu c
    { m.cpu c with proc := some p, scheduler := p, pc := .back (m.tbl.proc p).context.resume }).log
    (.acquired c (some p) .ptable)

/-- Slot `p` goes on after `swtch` came back to it. The first time this is in `forkret`;
else it is in `sched`, which restores `intena`. -/
def resume (m : Machine C) (c : C) (p : Slot) : Resume → Machine C
  | .forkret => m.release c .ptable .run
  | .yield => (restore m).release c .ptable .run
  | .sleep lk => (clear (restore m)).goto c (.leave (.relock lk))
  | .wait => (clear (restore m)).goto c (.body .wait)
  | .exit => m.goto c (.panic .zombieExit)
where
  restore (m : Machine C) : Machine C :=
    m.setCpu c { m.cpu c with intena := (m.tbl.proc p).context.intena }
  clear (m : Machine C) : Machine C := m.withTbl (m.tbl.set p fun q => { q with chan := none })

/-- What `exit` of slot `p` adds to the events: its calls of `wakeup1`, and the end of the
process. -/
def exitEvents (m : Machine C) (c : C) (p : Slot) : List (Event C) :=
  .exited (m.tbl.proc p).pid ::
    ((if slots.any fun q => (m.tbl.proc q).parent = some p ∧ (m.tbl.proc q).state = .zombie then
        [.woke c (some p) (some (.proc m.tbl.initproc))] else []) ++
      [.woke c (some p) ((m.tbl.proc p).parent.map .proc)])

/-- The bodies of the calls, with `ptable.lock` held. -/
def body (m : Machine C) (c : C) : Call → Option (Machine C)
  | .wakeup chan irq =>
    some <| ((m.withTbl (m.tbl.wakeup1 (some chan))).goto c (.leave (if irq then .handler else .run))).log
      (.woke c (m.cpu c).proc (some chan))
  | .kill pid => some <| (m.withTbl (m.tbl.kill pid).2).goto c (.leave .run)
  | .sleep chan lk => some <| m.release c (.other lk) (.sleep chan lk)
  | .allocproc =>
    match m.tbl.allocproc with
    | none => some <| m.goto c (.leave .run)
    | some (p, t) => some <| ((m.withTbl t).goto c (.leave (.kstack p))).log (.allocated m.tbl.nextpid)
  | .yield => (m.cpu c).proc.map fun p => (m.withTbl (m.tbl.setState p .runnable)).goto c (.sched .yield)
  | .exit => (m.cpu c).proc.map fun p =>
      ((m.withTbl (m.tbl.exit p)).goto c (.sched .exit)).logs (m.exitEvents c p)
  | .wait => (m.cpu c).proc.map fun p =>
      match m.tbl.wait p with
      | (.reaped q pid, t) =>
        ((m.withTbl t).goto c (.leave .run)).log (.reaped (m.tbl.proc p).pid pid q)
      | (.failed, _) => m.goto c (.leave .run)
      | (.sleeps, t) => ((m.withTbl t).goto c (.sched .wait)).log (.slept p (.proc p))

def next (m : Machine C) (c : C) : Option (Machine C) :=
  match (m.cpu c).pc with
  | .idle =>
    if (m.cpu c).enabled then (m.setCpu c { m.cpu c with irq := true }).acquire c .ptable (.scan 0)
    else none
  | .scan i =>
    if h : i < nproc then
      if (m.tbl.proc ⟨i, h⟩).state = .runnable then some (m.switch c ⟨i, h⟩)
      else some (m.goto c (.scan (i + 1)))
    else some (m.release c .ptable .idle)
  | .swtched i => some <| m.setCpu c { m.cpu c with proc := none, pc := .scan (i + 1) }
  | .call f => m.acquire c .ptable (.body f)
  | .body f => m.body c f
  | .sleep chan lk => (m.cpu c).proc.map fun p =>
      ((m.withTbl (m.tbl.set p fun q => { q with chan := some (.addr chan), state := .sleeping })).goto c
        (.sched (.sleep lk))).log (.slept p (.addr chan))
  | .sched k => (m.cpu c).proc.map fun p => m.sched c p k
  | .back k => (m.cpu c).proc.map fun p => m.resume c p k
  | .leave n => some (m.release c .ptable n.pc)
  | .relock lk => m.acquire c (.other lk) .run
  | .parent p => (m.cpu c).proc.map fun curr => (m.withTbl (m.tbl.setParent p curr)).goto c (.ready p)
  | .ready p =>
    some <| (m.withTbl (m.tbl.setState p .runnable)).goto c (.forked (m.tbl.proc p).pid)
  | .forked pid => (m.cpu c).proc.map fun p =>
      (m.goto c .run).log (.forked (m.tbl.proc p).pid pid)
  | .handler | .run | .kstack _ | .copy _ | .panic _ => none

end Machine

/-- What a processor does next, where the code alone does not decide it. -/
inductive Act (C : Type) where
  | next
  /-- `alloc_page` or `copyuvm` returns. -/
  | page (a : Nat)
  | acquire (lk : Nat)
  | release (lk : Nat)
  | invoke (f : Call)
  /-- The way into user mode or out of it sets the interrupt flag. -/
  | mode (on : Bool)
  | interrupt
  | iret
  | enable (c : C) (on : Bool)
  deriving DecidableEq

namespace Machine

variable {C : Type} [DecidableEq C]

/-- A call from code outside `proc.c`; `exit` refuses `init` before it takes the lock. -/
def invoke (m : Machine C) (c : C) (f : Call) : Option (Machine C) :=
  match (m.cpu c).pc, f with
  | .handler, .wakeup chan true => some <| m.goto c (.call (.wakeup chan true))
  | .run, .wakeup chan false => some <| m.goto c (.call (.wakeup chan false))
  | .run, .exit =>
    if (m.cpu c).proc = some m.tbl.initproc then some <| m.goto c (.panic .initExiting)
    else some <| m.goto c (.call .exit)
  | .run, .allocproc => some <| m.goto c (.call .allocproc)
  | .run, .wait => some <| m.goto c (.call .wait)
  | .run, .yield => some <| m.goto c (.call .yield)
  | .run, .kill pid => some <| m.goto c (.call (.kill pid))
  | .run, .sleep chan lk => some <| m.goto c (.call (.sleep chan lk))
  | _, _ => none

def step (m : Machine C) (c : C) : Act C → Option (Machine C)
  | .next => m.next c
  | .page a =>
    match (m.cpu c).pc with
    | .kstack p =>
      let r := m.tbl.allocKstack p a
      some <| (m.withTbl r.2).goto c (if r.1 then .copy p else .run)
    | .copy p =>
      let r := m.tbl.forkCopy p a
      some <| (m.withTbl r.2).goto c (if r.1 then .parent p else .run)
    | _ => none
  | .acquire lk =>
    if (m.cpu c).pc = .run ∨ (m.cpu c).pc = .handler then m.acquire c (.other lk) (m.cpu c).pc else none
  | .release lk =>
    if (m.cpu c).pc = .run ∨ (m.cpu c).pc = .handler then some <| m.release c (.other lk) (m.cpu c).pc
    else none
  | .invoke f => m.invoke c f
  | .mode on =>
    if (m.cpu c).pc = .run ∧ (m.cpu c).ncli = 0 then some <| m.setCpu c { m.cpu c with irq := on } else none
  | .interrupt =>
    if (m.cpu c).pc = .idle ∧ (m.cpu c).irq then
      some <| m.setCpu c { m.cpu c with irq := false, pc := .handler } else none
  | .iret =>
    if (m.cpu c).pc = .handler ∧ (m.cpu c).ncli = 0 then
      some <| m.setCpu c { m.cpu c with irq := true, pc := .idle } else none
  | .enable c' on =>
    if (m.cpu c).pc = .run then some <| m.setCpu c' { m.cpu c' with enabled := on } else none

def exec (m : Machine C) : List (C × Act C) → Option (Machine C)
  | [] => some m
  | (c, a) :: as => (m.step c a).bind fun m => m.exec as

theorem exec_keeps {P : Machine C → Prop} (hStep : ∀ m c a m', step m c a = some m' → P m → P m')
    {m m' : Machine C} {as : List (C × Act C)} (hExec : m.exec as = some m') (hm : P m) : P m' := by
  induction as generalizing m with
  | nil => exact Option.some.inj hExec ▸ hm
  | cons a as ih =>
    obtain ⟨c, a⟩ := a
    obtain ⟨m₁, hm₁, hExec⟩ := Option.bind_eq_some_iff.mp hExec
    exact ih hExec (hStep m c a m₁ hm₁ hm)

/-- After `userinit`: slot 0 is ready to run and every processor is in its scheduler. -/
def boot (kstack pgdir : Nat) (enabled : C → Bool) : Machine C where
  tbl := Ptable.userinit kstack pgdir
  cpu c := ⟨.idle, none, 0, 0, false, true, enabled c⟩
  locks _ := none
  trace := []

/-! ## The fields after an operation -/

section Fields

variable (m : Machine C) (c : C) (k : Cpu) (t : Ptable) (e : Event C) (es : List (Event C)) (pc : Pc) (lk : Lock)

@[simp] theorem setCpu_tbl : (m.setCpu c k).tbl = m.tbl := rfl
@[simp] theorem setCpu_locks : (m.setCpu c k).locks = m.locks := rfl
@[simp] theorem setCpu_trace : (m.setCpu c k).trace = m.trace := rfl
@[simp] theorem setCpu_cpu : (m.setCpu c k).cpu c = k := by simp [setCpu]

theorem setCpu_cpu_of_ne {c' : C} (hc : c' ≠ c) : (m.setCpu c k).cpu c' = m.cpu c' := by
  simp [setCpu, hc]

@[simp] theorem goto_tbl : (m.goto c pc).tbl = m.tbl := rfl
@[simp] theorem goto_locks : (m.goto c pc).locks = m.locks := rfl
@[simp] theorem goto_trace : (m.goto c pc).trace = m.trace := rfl
@[simp] theorem goto_cpu : (m.goto c pc).cpu c = { m.cpu c with pc := pc } := setCpu_cpu m c _

theorem goto_cpu_of_ne {c' : C} (hc : c' ≠ c) : (m.goto c pc).cpu c' = m.cpu c' := setCpu_cpu_of_ne m c _ hc

omit [DecidableEq C] in
@[simp] theorem withTbl_tbl : (m.withTbl t).tbl = t := rfl
omit [DecidableEq C] in
@[simp] theorem withTbl_cpu : (m.withTbl t).cpu = m.cpu := rfl
omit [DecidableEq C] in
@[simp] theorem withTbl_locks : (m.withTbl t).locks = m.locks := rfl
omit [DecidableEq C] in
@[simp] theorem withTbl_trace : (m.withTbl t).trace = m.trace := rfl

omit [DecidableEq C] in
@[simp] theorem logs_tbl : (m.logs es).tbl = m.tbl := rfl
omit [DecidableEq C] in
@[simp] theorem logs_cpu : (m.logs es).cpu = m.cpu := rfl
omit [DecidableEq C] in
@[simp] theorem logs_locks : (m.logs es).locks = m.locks := rfl
omit [DecidableEq C] in
@[simp] theorem logs_trace : (m.logs es).trace = es ++ m.trace := rfl

@[simp] theorem release_tbl : (m.release c lk pc).tbl = m.tbl := rfl
@[simp] theorem release_locks : (m.release c lk pc).locks = Function.update m.locks lk none := rfl
@[simp] theorem release_trace : (m.release c lk pc).trace = m.trace := rfl
@[simp] theorem release_cpu : (m.release c lk pc).cpu c = popcli (m.cpu c) pc := setCpu_cpu _ c _

theorem release_cpu_of_ne {c' : C} (hc : c' ≠ c) : (m.release c lk pc).cpu c' = m.cpu c' :=
  setCpu_cpu_of_ne _ c _ hc

end Fields

theorem acquire_eq_some {m m' : Machine C} {c : C} {lk : Lock} {pc : Pc} (h : m.acquire c lk pc = some m') :
    m.locks lk = none ∧ m' = ({ m with locks := Function.update m.locks lk (some c) }.setCpu c
      { pushcli (m.cpu c) with pc := pc }).logs [.acquired c (m.cpu c).proc lk] := by
  rw [acquire] at h
  split at h
  · exact ⟨‹_›, (Option.some.inj h).symm⟩
  · cases h

end Machine

@[simp]
theorem pushcli_proc (k : Cpu) : (pushcli k).proc = k.proc := rfl

@[simp]
theorem popcli_proc (k : Cpu) (pc : Pc) : (popcli k pc).proc = k.proc := by
  rw [popcli]
  split
  · rfl
  · split <;> rfl

theorem popcli_pc (k : Cpu) (pc : Pc) : (popcli k pc).pc = pc ∨ ∃ e, (popcli k pc).pc = .panic e := by
  rw [popcli]
  split
  · exact .inr ⟨_, rfl⟩
  · split
    · exact .inr ⟨_, rfl⟩
    · exact .inl rfl

end Xv6Rpi.Sched
