import Xv6Rpi.Sched.Machine

/-! # What one step can do

The inversion of `step`. A quiet step moves a processor on and may take or give a lock, but
leaves the table alone; every other step is one of the pieces of code that write to the
table, or the return of `fork`.
-/

namespace Xv6Rpi.Sched

/-- The code of a processor moves from one place to another without touching the table, the
locks or the current process. -/
inductive Pc.Moves : Pc → Pc → Prop where
  | stay (pc : Pc) : Moves pc pc
  | interrupt : Moves .idle .handler
  | iret : Moves .handler .idle
  | handlerCall (chan : Chan) : Moves .handler (.call (.wakeup chan true))
  | runCall (f : Call) (hf : ∀ chan, f ≠ .wakeup chan true) : Moves .run (.call f)
  | initExiting : Moves .run (.panic .initExiting)
  | scan (i : Nat) : Moves (.scan i) (.scan (i + 1))
  | allocNone : Moves (.body .allocproc) (.leave .run)
  | waitFailed : Moves (.body .wait) (.leave .run)
  | schedPanic (k : Resume) (e : Panic) : Moves (.sched k) (.panic e)
  | zombieExit : Moves (.back .exit) (.panic .zombieExit)

inductive Pc.Takes : Pc → Lock → Pc → Prop where
  | idle : Takes .idle .ptable (.scan 0)
  | call (f : Call) : Takes (.call f) .ptable (.body f)
  | relock (lk : Nat) : Takes (.relock lk) (.other lk) .run
  | run (lk : Nat) : Takes .run (.other lk) .run
  | handler (lk : Nat) : Takes .handler (.other lk) .handler

inductive Pc.Gives : Pc → Lock → Pc → Prop where
  | scan (i : Nat) : Gives (.scan i) .ptable .idle
  | forkret : Gives (.back .forkret) .ptable .run
  | yield : Gives (.back .yield) .ptable .run
  | leave (n : Next) : Gives (.leave n) .ptable n.pc
  | sleep (chan lk : Nat) : Gives (.body (.sleep chan lk)) (.other lk) (.sleep chan lk)
  | run (lk : Nat) : Gives .run (.other lk) .run
  | handler (lk : Nat) : Gives .handler (.other lk) .handler

namespace Machine

variable {C : Type} [DecidableEq C]

inductive Quiet (m : Machine C) (c : C) : Machine C → Prop where
  | enable (c' : C) (on : Bool) : Quiet m c (m.setCpu c' { m.cpu c' with enabled := on })
  | move (k : Cpu) (hProc : k.proc = (m.cpu c).proc) (hncli : k.ncli = (m.cpu c).ncli)
      (hpc : (m.cpu c).pc.Moves k.pc)
      (hExit : (m.cpu c).pc = .run → k.pc = .call .exit → (m.cpu c).proc ≠ some m.tbl.initproc) :
      Quiet m c (m.setCpu c k)
  | noPgdir (p : Slot) (hpc : (m.cpu c).pc = .scan p) (hp : (m.tbl.proc p).state = .runnable) :
      Quiet m c (m.setCpu c { m.cpu c with proc := some p, pc := .panic .switchuvmNoPgdir })
  | swtched (i : Nat) (hpc : (m.cpu c).pc = .swtched i) :
      Quiet m c (m.setCpu c { m.cpu c with proc := none, pc := .scan (i + 1) })
  | take (lk : Lock) (pc : Pc) (b : Bool) (hpc : (m.cpu c).pc.Takes lk pc) (hFree : m.locks lk = none) :
      Quiet m c (({ m with locks := Function.update m.locks lk (some c) }.setCpu c
        { pushcli { m.cpu c with irq := b } with pc := pc }).logs [.acquired c (m.cpu c).proc lk])
  | give (lk : Lock) (pc : Pc) (b : Bool) (hpc : (m.cpu c).pc.Gives lk pc) :
      Quiet m c ((m.setCpu c { m.cpu c with intena := b }).release c lk pc)

inductive Step (m : Machine C) (c : C) : Machine C → Prop where
  | quiet (m' : Machine C) (h : m.Quiet c m') : Step m c m'
  | switch (p : Slot) (hpc : (m.cpu c).pc = .scan p) (hp : (m.tbl.proc p).state = .runnable) :
      Step m c (((m.withTbl (m.tbl.setState p .running)).setCpu c
        { m.cpu c with proc := some p, scheduler := p, pc := .back (m.tbl.proc p).context.resume }).logs
        [.acquired c (some p) .ptable])
  | sched (p : Slot) (k : Resume) (hpc : (m.cpu c).pc = .sched k) (hProc : (m.cpu c).proc = some p)
      (hncli : (m.cpu c).ncli = 1) :
      Step m c ((m.withTbl (m.tbl.set p fun q => { q with context := ⟨k, (m.cpu c).intena⟩ })).goto c
        (.swtched (m.cpu c).scheduler))
  | sleepBack (p : Slot) (lk : Nat) (b : Bool) (hpc : (m.cpu c).pc = .back (.sleep lk))
      (hProc : (m.cpu c).proc = some p) :
      Step m c ((m.withTbl (m.tbl.set p fun q => { q with chan := none })).setCpu c
        { m.cpu c with intena := b, pc := .leave (.relock lk) })
  | waitBack (p : Slot) (b : Bool) (hpc : (m.cpu c).pc = .back .wait) (hProc : (m.cpu c).proc = some p) :
      Step m c ((m.withTbl (m.tbl.set p fun q => { q with chan := none })).setCpu c
        { m.cpu c with intena := b, pc := .body .wait })
  | wakeup (chan : Chan) (irq : Bool) (hpc : (m.cpu c).pc = .body (.wakeup chan irq)) :
      Step m c (((m.withTbl (m.tbl.wakeup1 (some chan))).goto c
        (.leave (if irq then .handler else .run))).logs [.woke c (m.cpu c).proc (some chan)])
  | kill (pid : Pid) (hpc : (m.cpu c).pc = .body (.kill pid)) :
      Step m c ((m.withTbl (m.tbl.kill pid).2).goto c (.leave .run))
  | allocproc (p : Slot) (hpc : (m.cpu c).pc = .body .allocproc) (hp : (m.tbl.proc p).state = .unused) :
      Step m c (((m.withTbl { m.tbl.set p fun q => { q with state := .embryo, pid := m.tbl.nextpid } with
        nextpid := m.tbl.nextpid + 1 }).goto c (.leave (.kstack p))).logs [.allocated m.tbl.nextpid])
  | yield (p : Slot) (hpc : (m.cpu c).pc = .body .yield) (hProc : (m.cpu c).proc = some p) :
      Step m c ((m.withTbl (m.tbl.setState p .runnable)).goto c (.sched .yield))
  | exit (p : Slot) (hpc : (m.cpu c).pc = .body .exit) (hProc : (m.cpu c).proc = some p) :
      Step m c (((m.withTbl (m.tbl.exit p)).goto c (.sched .exit)).logs (m.exitEvents c p))
  | reaped (p q : Slot) (hpc : (m.cpu c).pc = .body .wait) (hProc : (m.cpu c).proc = some p)
      (hq : (m.tbl.proc q).parent = some p) (hz : (m.tbl.proc q).state = .zombie) :
      Step m c (((m.withTbl (m.tbl.set q Ptable.reapSlot)).goto c (.leave .run)).logs
        [.reaped (m.tbl.proc p).pid (m.tbl.proc q).pid q])
  | waitSleeps (p : Slot) (hpc : (m.cpu c).pc = .body .wait) (hProc : (m.cpu c).proc = some p)
      (hNone : ∀ q, (m.tbl.proc q).parent = some p → (m.tbl.proc q).state ≠ .zombie) :
      Step m c (((m.withTbl (m.tbl.set p fun q =>
        { q with chan := some (.proc p), state := .sleeping })).goto c (.sched .wait)).logs [.slept p (.proc p)])
  | sleep (p : Slot) (chan lk : Nat) (hpc : (m.cpu c).pc = .sleep chan lk) (hProc : (m.cpu c).proc = some p) :
      Step m c (((m.withTbl (m.tbl.set p fun q =>
        { q with chan := some (.addr chan), state := .sleeping })).goto c
        (.sched (.sleep lk))).logs [.slept p (.addr chan)])
  | noKstack (p : Slot) (hpc : (m.cpu c).pc = .kstack p) :
      Step m c ((m.withTbl (m.tbl.set p fun q => { q with kstack := 0, state := .unused })).goto c .run)
  | kstack (p : Slot) (a : Nat) (hpc : (m.cpu c).pc = .kstack p) :
      Step m c ((m.withTbl (m.tbl.set p fun q =>
        { q with kstack := a, context := ⟨.forkret, q.context.intena⟩ })).goto c (.copy p))
  | noCopy (p : Slot) (hpc : (m.cpu c).pc = .copy p) :
      Step m c ((m.withTbl (m.tbl.set p fun q => { q with pgdir := 0, kstack := 0, state := .unused })).goto c .run)
  | copy (p : Slot) (a : Nat) (hpc : (m.cpu c).pc = .copy p) :
      Step m c ((m.withTbl (m.tbl.set p fun q => { q with pgdir := a })).goto c (.parent p))
  | parent (p curr : Slot) (hpc : (m.cpu c).pc = .parent p) (hProc : (m.cpu c).proc = some curr) :
      Step m c ((m.withTbl (m.tbl.setParent p curr)).goto c (.ready p))
  | ready (p : Slot) (hpc : (m.cpu c).pc = .ready p) :
      Step m c ((m.withTbl (m.tbl.setState p .runnable)).goto c (.forked (m.tbl.proc p).pid))
  | forked (p : Slot) (pid : Pid) (hpc : (m.cpu c).pc = .forked pid) (hProc : (m.cpu c).proc = some p) :
      Step m c ((m.goto c .run).logs [.forked (m.tbl.proc p).pid pid])

variable {m m' : Machine C} {c : C}

theorem Quiet.goto {pc : Pc} (hpc : (m.cpu c).pc.Moves pc)
    (hExit : pc = .call .exit → (m.cpu c).proc ≠ some m.tbl.initproc) : m.Quiet c (m.goto c pc) :=
  .move { m.cpu c with pc := pc } rfl rfl hpc fun _ => hExit

theorem acquire_quiet {lk : Lock} {pc : Pc} (h : m.acquire c lk pc = some m')
    (hpc : (m.cpu c).pc.Takes lk pc) : m.Quiet c m' := by
  obtain ⟨hFree, rfl⟩ := acquire_eq_some h
  exact .take lk pc (m.cpu c).irq hpc hFree

theorem release_quiet {lk : Lock} {pc : Pc} (hpc : (m.cpu c).pc.Gives lk pc) :
    m.Quiet c (m.release c lk pc) := by
  have h := Quiet.give (m := m) (c := c) lk pc (m.cpu c).intena hpc
  have hSame : m.setCpu c { m.cpu c with intena := (m.cpu c).intena } = m := by
    simp [setCpu]
  rwa [hSame] at h

theorem sched_step {p : Slot} {k : Resume} (hpc : (m.cpu c).pc = .sched k) (hProc : (m.cpu c).proc = some p) :
    m.Step c (m.sched c p k) := by
  have hPanic (e : Panic) : m.Step c (m.goto c (.panic e)) :=
    .quiet _ (.goto (hpc ▸ .schedPanic k e) (by simp))
  rw [sched]
  split
  · exact hPanic _
  · split
    · exact hPanic _
    · split
      · exact hPanic _
      · split
        · exact hPanic _
        · exact .sched p k hpc hProc (not_not.mp ‹_›)

theorem resume_step {p : Slot} {k : Resume} (hpc : (m.cpu c).pc = .back k) (hProc : (m.cpu c).proc = some p) :
    m.Step c (m.resume c p k) := by
  have hTwice (k k' : Cpu) (t : Ptable) :
      ((m.setCpu c k).withTbl t).setCpu c k' = (m.withTbl t).setCpu c k' := by
    simp [setCpu, withTbl]
  cases k with
  | forkret => exact .quiet _ (release_quiet (hpc ▸ .forkret))
  | yield =>
    exact .quiet _ (.give .ptable .run (m.tbl.proc p).context.intena (hpc ▸ .yield))
  | sleep lk =>
    have h := Step.sleepBack (m := m) (c := c) p lk (m.tbl.proc p).context.intena hpc hProc
    simpa [resume, resume.restore, resume.clear, goto, hTwice] using h
  | wait =>
    have h := Step.waitBack (m := m) (c := c) p (m.tbl.proc p).context.intena hpc hProc
    simpa [resume, resume.restore, resume.clear, goto, hTwice] using h
  | exit => exact .quiet _ (.goto (hpc ▸ .zombieExit) (by simp))

theorem body_step {f : Call} (hpc : (m.cpu c).pc = .body f) (h : m.body c f = some m') : m.Step c m' := by
  cases f with
  | wakeup chan irq =>
    obtain rfl := Option.some.inj h
    exact .wakeup chan irq hpc
  | kill pid =>
    obtain rfl := Option.some.inj h
    exact .kill pid hpc
  | sleep chan lk =>
    obtain rfl := Option.some.inj h
    exact .quiet _ (release_quiet (hpc ▸ .sleep chan lk))
  | allocproc =>
    rw [body] at h
    split at h
    · obtain rfl := Option.some.inj h
      exact .quiet _ (.goto (hpc ▸ .allocNone) (by simp))
    · obtain ⟨hp, rfl⟩ := Ptable.allocproc_eq_some ‹_›
      obtain rfl := Option.some.inj h
      exact .allocproc _ hpc hp
  | yield =>
    obtain ⟨p, hProc, rfl⟩ := Option.map_eq_some_iff.mp h
    exact .yield p hpc hProc
  | exit =>
    obtain ⟨p, hProc, rfl⟩ := Option.map_eq_some_iff.mp h
    exact .exit p hpc hProc
  | wait =>
    obtain ⟨p, hProc, rfl⟩ := Option.map_eq_some_iff.mp h
    rcases m.tbl.wait_cases p with ⟨q, hq, hz, hw⟩ | ⟨hNone, hw | hw⟩
    · rw [hw]
      exact .reaped p q hpc hProc hq hz
    · rw [hw]
      exact .quiet _ (.goto (hpc ▸ .waitFailed) (by simp))
    · rw [hw]
      exact .waitSleeps p hpc hProc hNone

theorem next_step (h : m.next c = some m') : m.Step c m' := by
  rw [next] at h
  split at h
  case h_1 hpc =>
    split at h
    · obtain ⟨hFree, rfl⟩ := acquire_eq_some h
      have hTake := Quiet.take (m := m) (c := c) .ptable (.scan 0) true (hpc ▸ .idle) hFree
      simpa [setCpu] using Step.quiet _ hTake
    · cases h
  case h_2 i hpc =>
    split at h
    · rename_i hi
      split at h
      · obtain rfl := Option.some.inj h
        rw [switch]
        split
        · exact .quiet _ (.noPgdir ⟨i, hi⟩ hpc ‹_›)
        · exact .switch ⟨i, hi⟩ hpc ‹_›
      · obtain rfl := Option.some.inj h
        exact .quiet _ (.goto (hpc ▸ .scan i) (by simp))
    · obtain rfl := Option.some.inj h
      exact .quiet _ (release_quiet (hpc ▸ .scan i))
  case h_3 i hpc =>
    obtain rfl := Option.some.inj h
    exact .quiet _ (.swtched i hpc)
  case h_4 f hpc => exact .quiet _ (acquire_quiet h (hpc ▸ .call f))
  case h_5 f hpc => exact body_step hpc h
  case h_6 chan lk hpc =>
    obtain ⟨p, hProc, rfl⟩ := Option.map_eq_some_iff.mp h
    exact .sleep p chan lk hpc hProc
  case h_7 k hpc =>
    obtain ⟨p, hProc, rfl⟩ := Option.map_eq_some_iff.mp h
    exact sched_step hpc hProc
  case h_8 k hpc =>
    obtain ⟨p, hProc, rfl⟩ := Option.map_eq_some_iff.mp h
    exact resume_step hpc hProc
  case h_9 n hpc =>
    obtain rfl := Option.some.inj h
    exact .quiet _ (release_quiet (hpc ▸ .leave n))
  case h_10 lk hpc => exact .quiet _ (acquire_quiet h (hpc ▸ .relock lk))
  case h_11 p hpc =>
    obtain ⟨curr, hProc, rfl⟩ := Option.map_eq_some_iff.mp h
    exact .parent p curr hpc hProc
  case h_12 p hpc =>
    obtain rfl := Option.some.inj h
    exact .ready p hpc
  case h_13 pid hpc =>
    obtain ⟨p, hProc, rfl⟩ := Option.map_eq_some_iff.mp h
    exact .forked p pid hpc hProc
  all_goals cases h

theorem invoke_quiet {f : Call} (h : m.invoke c f = some m') : m.Quiet c m' := by
  unfold invoke at h
  split at h
  case h_3 hpc =>
    split at h
    · obtain rfl := Option.some.inj h
      exact .goto (hpc ▸ .initExiting) (by simp)
    · obtain rfl := Option.some.inj h
      exact .goto (hpc ▸ .runCall _ (by simp)) fun _ => ‹_›
  case h_1 chan hpc =>
    obtain rfl := Option.some.inj h
    exact .goto (hpc ▸ .handlerCall chan) (by simp)
  case h_9 => cases h
  all_goals
    rename_i hpc
    obtain rfl := Option.some.inj h
    exact .goto (hpc ▸ .runCall _ (by simp)) (by simp)

theorem step_cases {a : Act C} (h : m.step c a = some m') : m.Step c m' := by
  cases a with
  | next => exact next_step h
  | invoke f => exact .quiet _ (invoke_quiet h)
  | page a =>
    rw [step] at h
    split at h
    · rename_i p hpc
      obtain rfl := Option.some.inj h
      rcases eq_or_ne a 0 with rfl | ha
      · exact .noKstack p hpc
      · simpa [Ptable.allocKstack, ha] using Step.kstack p a hpc
    · rename_i p hpc
      obtain rfl := Option.some.inj h
      rcases eq_or_ne a 0 with rfl | ha
      · exact .noCopy p hpc
      · simpa [Ptable.forkCopy, ha] using Step.copy p a hpc
    · cases h
  | acquire lk =>
    rw [step] at h
    split at h
    · rename_i hpc
      refine .quiet _ (acquire_quiet h ?_)
      rcases hpc with hpc | hpc
      · exact hpc ▸ .run lk
      · exact hpc ▸ .handler lk
    · cases h
  | release lk =>
    rw [step] at h
    split at h
    · rename_i hpc
      obtain rfl := Option.some.inj h
      refine .quiet _ (release_quiet ?_)
      rcases hpc with hpc | hpc
      · exact hpc ▸ .run lk
      · exact hpc ▸ .handler lk
    · cases h
  | mode on =>
    rw [step] at h
    split at h
    · obtain rfl := Option.some.inj h
      rename_i hpc
      exact .quiet _ (.move _ rfl rfl (.stay _) (by simp [hpc.1]))
    · cases h
  | interrupt =>
    rw [step] at h
    split at h
    · rename_i hpc
      obtain rfl := Option.some.inj h
      exact .quiet _ (.move _ rfl rfl (hpc.1 ▸ .interrupt) (by simp))
    · cases h
  | iret =>
    rw [step] at h
    split at h
    · rename_i hpc
      obtain rfl := Option.some.inj h
      exact .quiet _ (.move _ rfl rfl (hpc.1 ▸ .iret) (by simp))
    · cases h
  | enable c' on =>
    rw [step] at h
    split at h
    · obtain rfl := Option.some.inj h
      exact .quiet _ (.enable c' on)
    · cases h

theorem Step.trace (hs : m.Step c m') : ∃ es, m'.trace = es ++ m.trace := by
  cases hs with
  | quiet m' hq =>
    cases hq with
    | take lk pc b hpc hFree => exact ⟨[_], rfl⟩
    | _ => exact ⟨[], rfl⟩
  | switch p hpc hp => exact ⟨[_], rfl⟩
  | wakeup chan irq hpc => exact ⟨[_], rfl⟩
  | allocproc p hpc hp => exact ⟨[_], rfl⟩
  | exit p hpc hProc => exact ⟨_, rfl⟩
  | reaped p q hpc hProc hq hz => exact ⟨[_], rfl⟩
  | waitSleeps p hpc hProc hNone => exact ⟨[_], rfl⟩
  | sleep p chan lk hpc hProc => exact ⟨[_], rfl⟩
  | forked p pid hpc hProc => exact ⟨[_], rfl⟩
  | _ => exact ⟨[], rfl⟩

theorem Step.of_reaped (hs : m.Step c m') {a b : Pid} {p : Slot}
    (hTrace : m'.trace = .reaped a b p :: m.trace) :
    (m.cpu c).pc = .body .wait ∧ (m.tbl.proc p).state = .zombie := by
  cases hs with
  | quiet m' hq => cases hq <;> simp at hTrace
  | reaped q r hpc hProc hr hz =>
    simp only [logs_trace, List.singleton_append, List.cons.injEq, Event.reaped.injEq] at hTrace
    obtain ⟨⟨-, -, rfl⟩, -⟩ := hTrace
    exact ⟨hpc, hz⟩
  | exit q hpc hProc => simp [exitEvents] at hTrace
  | _ => simp at hTrace

end Machine

end Xv6Rpi.Sched
