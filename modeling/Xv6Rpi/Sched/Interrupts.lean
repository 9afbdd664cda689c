import Xv6Rpi.Sched.Nesting

/-! # Interrupts are restored

What one step does to `ncli` and `intena` of its processor, and from it what holds in every run of well-nested
steps: the nesting of the code on a processor is in `ncli`, and the interrupt state that the code goes back to
in `intena`, or in the frame of `sched` while the process has no processor.
-/

namespace Xv6Rpi.Sched

theorem popcli_eq {k : Cpu} {pc : Pc} (hIrq : k.irq = false) (hPos : 1 ≤ k.ncli) :
    popcli k pc = { k with ncli := k.ncli - 1, irq := k.ncli - 1 = 0 && k.intena, pc := pc } := by
  rw [popcli, hIrq, if_neg Bool.false_ne_true, if_neg (by omega)]

/-- Code that has yet to put its own `intena` back. -/
def Pc.returning : Pc → Bool
  | .back _ => true
  | _ => false

namespace Machine

variable {C : Type} [DecidableEq C] {m m' : Machine C} {c : C} {p : Slot}

omit [DecidableEq C] in
theorem saved_of {p : Slot} (h : (m.cpu c).pc.returning = false) : m.saved c p = some (m.cpu c).intena := by
  rw [saved]
  split
  · next k hpc =>
    rw [hpc] at h
    cases h
  · rfl

inductive Turn (m : Machine C) (c : C) (m' : Machine C) : Prop where
  | still (hCode : (m'.cpu c).pc.mode = .dead ∨ m'.code c = m.code c) (hncli : (m'.cpu c).ncli = (m.cpu c).ncli)
      (hNests : (m'.cpu c).pc.Nests (m.cpu c).ncli) (hOff : 0 < (m.cpu c).ncli → (m'.cpu c).irq = (m.cpu c).irq)
      (hInside : (m'.cpu c).pc.inside = true → (m.cpu c).pc.inside = true)
      (hSaved : ∀ p, m'.code c = .proc p → m'.saved c p = m.saved c p)
  | push (pc : Pc) (b : Bool) (hk : m'.cpu c = { pushcli { m.cpu c with irq := b } with pc := pc })
      (hb : b = (m.cpu c).irq ∨ m.code c = .sched c) (hInside : pc.inside = (m.cpu c).pc.inside)
      (hPos : 0 ≤ (m.cpu c).ncli) (hNests : pc.Nests ((m.cpu c).ncli + 1))
      (hBack : (m.cpu c).pc.returning = false ∧ pc.returning = false)
  | pop (pc : Pc) (b : Bool) (hk : m'.cpu c = popcli { m.cpu c with intena := b } pc)
      (hb : ∀ p v, m.code c = .proc p → m.saved c p = some v → b = v) (hInside : pc.inside = (m.cpu c).pc.inside)
      (hPos : 1 ≤ (m.cpu c).ncli) (hNests : pc.Nests ((m.cpu c).ncli - 1)) (hBack : pc.returning = false)
  | switch (p : Slot) (i : Nat) (hpc : (m.cpu c).pc = .scan i) (hAway : m.Away p)
      (hContext : (m'.tbl.proc p).context = (m.tbl.proc p).context)
      (hk : m'.cpu c = { m.cpu c with
        proc := some p, scheduler := i, pc := .back (m.tbl.proc p).context.resume })
  | park (p : Slot) (k : Resume) (i : Nat) (hpc : (m.cpu c).pc = .sched k) (hProc : (m.cpu c).proc = some p)
      (hncli : (m.cpu c).ncli = 1) (hContext : (m'.tbl.proc p).context = ⟨k, (m.cpu c).intena⟩)
      (hk : m'.cpu c = { m.cpu c with pc := .swtched i })

omit [DecidableEq C] in
theorem Turn.move {pc : Pc} (hk : m'.cpu c = { m.cpu c with pc := pc }) (hInside : pc.inside = (m.cpu c).pc.inside)
    (hNests : pc.Nests (m.cpu c).ncli)
    (hBack : (m.cpu c).pc.returning = false ∧ pc.returning = false) : Turn m c m' := by
  apply Turn.still
  · right
    apply code_congr
    · rw [hk, hInside]
    · rw [hk]
  · rw [hk]
  · rw [hk]
    exact hNests
  · rw [hk]
    exact fun _ => rfl
  · rw [hk, hInside]
    exact fun h => h
  · intro p _
    have hBack' : (m'.cpu c).pc.returning = false := by
      rw [hk]
      exact hBack.2
    rw [saved_of hBack', saved_of hBack.1, hk]

theorem Turn.jump {t : Ptable} {pc : Pc} (es : List (Event C)) (hInside : pc.inside = (m.cpu c).pc.inside)
    (hNests : pc.Nests (m.cpu c).ncli) (hBack : (m.cpu c).pc.returning = false ∧ pc.returning = false) :
    Turn m c (((m.withTbl t).goto c pc).logs es) :=
  .move (goto_cpu (m.withTbl t) c pc) hInside hNests hBack

omit [DecidableEq C] in
theorem Turn.panic {e : Panic} {q : Option Slot} (hk : m'.cpu c = { m.cpu c with proc := q, pc := .panic e })
    (he : e ≠ .popcliInterruptible ∧ e ≠ .popcliNcli) : Turn m c m' := by
  have hOutside : (m'.cpu c).pc.inside = false := by
    rw [hk]
    rfl
  apply Turn.still
  · rw [hk]
    exact .inl rfl
  · rw [hk]
  · rw [hk]
    exact he
  · rw [hk]
    exact fun _ => rfl
  · rw [hOutside]
    exact fun h => absurd h Bool.false_ne_true
  · intro p hp
    rw [code_of_outside hOutside] at hp
    cases hp

theorem Turn.acquire {lk : Lock} {pc : Pc} (h : m.acquire c lk pc = some m') (hInside : pc.inside = (m.cpu c).pc.inside)
    (hPos : 0 ≤ (m.cpu c).ncli) (hNests : pc.Nests ((m.cpu c).ncli + 1))
    (hBack : (m.cpu c).pc.returning = false ∧ pc.returning = false) : Turn m c m' := by
  obtain ⟨-, rfl⟩ := acquire_eq_some h
  exact .push pc (m.cpu c).irq (by rw [logs_cpu, setCpu_cpu]) (.inl rfl) hInside hPos hNests hBack

theorem Turn.release {lk : Lock} {pc : Pc} (hInside : pc.inside = (m.cpu c).pc.inside) (hPos : 1 ≤ (m.cpu c).ncli)
    (hNests : pc.Nests ((m.cpu c).ncli - 1)) (hBack : (m.cpu c).pc.returning = false ∧ pc.returning = false) :
    Turn m c (m.release c lk pc) := by
  refine .pop pc (m.cpu c).intena (release_cpu ..) ?_ hInside hPos hNests hBack.2
  intro p v _ hSaved
  rw [saved_of hBack.1] at hSaved
  exact Option.some.inj hSaved

theorem body_turn {f : Call} (hpc : (m.cpu c).pc = .body f) (hNests : (Pc.body f).Nests (m.cpu c).ncli)
    (h : m.body c f = some m') : Turn m c m' := by
  have hBack : (m.cpu c).pc.returning = false := by
    rw [hpc]
    rfl
  have hInside {pc : Pc} (hpc' : pc.inside = (Pc.body f).inside) : pc.inside = (m.cpu c).pc.inside := by
    rw [hpc, hpc']
  cases f with
  | wakeup chan irq =>
    obtain rfl := Option.some.inj h
    cases irq with
    | false => exact .jump [_] (hInside rfl) hNests ⟨hBack, rfl⟩
    | true => exact .jump [_] (hInside rfl) hNests ⟨hBack, rfl⟩
  | kill pid =>
    obtain rfl := Option.some.inj h
    exact .move (goto_cpu ..) (hInside rfl) hNests ⟨hBack, rfl⟩
  | sleep chan lk =>
    obtain rfl := Option.some.inj h
    have hTwo : 2 ≤ (m.cpu c).ncli := hNests
    refine .release (hInside rfl) (by omega) ?_ ⟨hBack, rfl⟩
    change 1 ≤ (m.cpu c).ncli - 1
    omega
  | allocproc =>
    rw [body] at h
    split at h
    · obtain rfl := Option.some.inj h
      exact .move (goto_cpu ..) (hInside rfl) hNests ⟨hBack, rfl⟩
    · obtain rfl := Option.some.inj h
      exact .jump [_] (hInside rfl) hNests ⟨hBack, rfl⟩
  | yield =>
    obtain ⟨p, hProc, rfl⟩ := Option.map_eq_some_iff.mp h
    exact .move (goto_cpu ..) (hInside rfl) ⟨hNests, by decide⟩ ⟨hBack, rfl⟩
  | exit =>
    obtain ⟨p, hProc, rfl⟩ := Option.map_eq_some_iff.mp h
    exact .jump _ (hInside rfl) ⟨hNests, by decide⟩ ⟨hBack, rfl⟩
  | wait =>
    obtain ⟨p, hProc, rfl⟩ := Option.map_eq_some_iff.mp h
    obtain ⟨q, -, -, hw⟩ | ⟨-, hw | hw⟩ := m.tbl.wait_cases p
    · rw [hw]
      exact .jump [_] (hInside rfl) hNests ⟨hBack, rfl⟩
    · rw [hw]
      exact .move (goto_cpu ..) (hInside rfl) hNests ⟨hBack, rfl⟩
    · rw [hw]
      exact .jump [_] (hInside rfl) ⟨hNests, by decide⟩ ⟨hBack, rfl⟩

/-- `sched` goes on to `swtch` where nothing is held but the lock of the table. -/
theorem sched_turn {p : Slot} {k : Resume} (hpc : (m.cpu c).pc = .sched k) (hProc : (m.cpu c).proc = some p) :
    Turn m c (m.sched c p k) := by
  have hPanic {e : Panic} (he : e ≠ .popcliInterruptible ∧ e ≠ .popcliNcli) : Turn m c (m.goto c (.panic e)) :=
    .panic (goto_cpu ..) he
  rw [sched]
  split
  · exact hPanic (by decide)
  · split
    · exact hPanic (by decide)
    · next hncli =>
      split
      · exact hPanic (by decide)
      · split
        · exact hPanic (by decide)
        · refine .park p k _ hpc hProc (not_not.mp hncli) ?_ (goto_cpu ..)
          rw [goto_tbl, withTbl_tbl, Ptable.set_proc]

theorem resume_turn {p : Slot} {k : Resume} (hpc : (m.cpu c).pc = .back k) (hProc : (m.cpu c).proc = some p)
    (hOne : (m.cpu c).ncli = 1) : Turn m c (m.resume c p k) := by
  have hInside {pc : Pc} (hpc' : pc.inside = true) : pc.inside = (m.cpu c).pc.inside := by
    rw [hpc, hpc']
    rfl
  have hCode {q : Slot} (hq : m.code c = .proc q) : q = p :=
    Option.some.inj ((code_eq_proc.mp hq).2.symm.trans hProc)
  have hSaved {q : Slot} (hq : m.code c = .proc q) : m.saved c q = k.saved (m.tbl.proc p).context.intena := by
    rw [hCode hq, saved, hpc]
  -- `sched` puts `intena` back, and the call goes on with the lock
  have hStay {m' : Machine C} (pc : Pc) (hk : m'.cpu c = { m.cpu c with intena := (m.tbl.proc p).context.intena, pc := pc })
      (hpc' : pc.inside = true) (hNests : pc.Nests 1) (hNot : pc.returning = false) (hk' : k ≠ .forkret) :
      Turn m c m' := by
    have hBack : (m'.cpu c).pc.returning = false := by
      rw [hk]
      exact hNot
    have hSame : m'.code c = m.code c := by
      apply code_congr
      · rw [hk]
        exact hInside hpc'
      · rw [hk]
    refine .still (.inr hSame) (by rw [hk]) ?_ (by rw [hk]; exact fun _ => rfl) ?_ ?_
    · rw [hk, hOne]
      exact hNests
    · rw [hpc]
      exact fun _ => rfl
    · intro q hq
      rw [saved_of hBack, hSaved (hSame.symm.trans hq), hk]
      cases k with
      | forkret => exact absurd rfl hk'
      | _ => rfl
  have hZero : Pc.run.Nests ((m.cpu c).ncli - 1) := by
    rw [hOne]
    exact le_rfl
  cases k with
  | forkret =>
    refine .pop .run (m.cpu c).intena (release_cpu ..) ?_ (hInside rfl) (by omega) hZero rfl
    intro q v hq hv
    rw [hSaved hq] at hv
    cases hv
  | yield =>
    refine .pop .run (m.tbl.proc p).context.intena ?_ ?_ (hInside rfl) (by omega) hZero rfl
    · rw [resume, release_cpu, resume.restore, setCpu_cpu]
    · intro q v hq hv
      rw [hSaved hq] at hv
      exact Option.some.inj hv
  | sleep lk =>
    refine hStay (.leave (.relock lk)) ?_ rfl le_rfl rfl (by simp)
    simp [resume, resume.restore, resume.clear]
  | wait =>
    refine hStay (.body .wait) ?_ rfl le_rfl rfl (by simp)
    simp [resume, resume.restore, resume.clear]
  | exit => exact .panic (goto_cpu ..) (by decide)

omit [DecidableEq C] in
/-- A process that is ready to run has no processor when another one holds the lock. -/
theorem Cpus.away (h : m.Cpus) {p : Slot} {i : Nat} (hpc : (m.cpu c).pc = .scan i) (hp : m.state p = .runnable) :
    m.Away p := by
  have hHolds := h.holds c (by rw [hpc]; rfl)
  have hFits := h.fits c
  rw [hpc] at hFits
  refine .inl ⟨.inr (.inl hp), fun c' hc' => ?_⟩
  obtain hRun | ⟨hLock, -⟩ := h.current hc'
  · rw [hp] at hRun
    cases hRun
  · obtain rfl := Option.some.inj (hHolds.symm.trans hLock)
    have hNone : (m.cpu c).proc = none := hFits
    rw [hNone] at hc'
    cases hc'

theorem next_turn (hCpus : m.Cpus) (hNests : (m.cpu c).pc.Nests (m.cpu c).ncli) (h : m.next c = some m') :
    Turn m c m' := by
  have hInside {pc pc' : Pc} (hpc : (m.cpu c).pc = pc) (hpc' : pc'.inside = pc.inside) :
      pc'.inside = (m.cpu c).pc.inside := by
    rw [hpc, hpc']
  have hBack {pc pc' : Pc} (hpc : (m.cpu c).pc = pc) (hNot : pc.returning = false ∧ pc'.returning = false) :
      (m.cpu c).pc.returning = false ∧ pc'.returning = false := by
    rwa [hpc]
  rw [next] at h
  split at h
  case h_1 hpc =>
    rw [hpc] at hNests
    have hZero : (m.cpu c).ncli = 0 := hNests
    split at h
    · obtain ⟨-, rfl⟩ := acquire_eq_some h
      refine .push (.scan 0) true ?_ (.inr ?_) (hInside hpc rfl) hZero.ge ?_ (hBack hpc ⟨rfl, rfl⟩)
      · rw [logs_cpu, setCpu_cpu, setCpu_cpu]
      · exact code_of_outside (by rw [hpc]; rfl)
      · rw [hZero]
        exact rfl
    · cases h
  case h_2 i hpc =>
    rw [hpc] at hNests
    have hOne : (m.cpu c).ncli = 1 := hNests
    split at h
    · next hi =>
      split at h
      · next hRunnable =>
        obtain rfl := Option.some.inj h
        rw [switch]
        split
        · exact .panic (setCpu_cpu ..) (by decide)
        · refine .switch ⟨i, hi⟩ i hpc (hCpus.away hpc hRunnable) ?_ ?_
          · rw [log, logs_tbl, setCpu_tbl, withTbl_tbl, Ptable.setState, Ptable.set_proc]
          · rw [log, logs_cpu, setCpu_cpu]
      · obtain rfl := Option.some.inj h
        exact .move (goto_cpu ..) (hInside hpc rfl) hNests (hBack hpc ⟨rfl, rfl⟩)
    · obtain rfl := Option.some.inj h
      refine .release (hInside hpc rfl) hOne.ge ?_ (hBack hpc ⟨rfl, rfl⟩)
      rw [hOne]
      exact rfl
  case h_3 i hpc =>
    rw [hpc] at hNests
    obtain rfl := Option.some.inj h
    have hCode : m.code c = .sched c := code_of_outside (by rw [hpc]; rfl)
    have hOutside : ((m.setCpu c { m.cpu c with proc := none, pc := .scan (i + 1) }).cpu c).pc.inside = false := by
      rw [setCpu_cpu]
      rfl
    have hCode' := code_of_outside hOutside
    refine .still (.inr (hCode'.trans hCode.symm)) (by rw [setCpu_cpu]) (by rw [setCpu_cpu]; exact hNests)
      (by rw [setCpu_cpu]; exact fun _ => rfl) ?_ ?_
    · rw [hOutside]
      exact fun hTrue => absurd hTrue Bool.false_ne_true
    · intro p hp
      rw [hCode'] at hp
      cases hp
  case h_4 f hpc =>
    rw [hpc] at hNests
    have hPos : 0 ≤ (m.cpu c).ncli ∧ (Pc.body f).Nests ((m.cpu c).ncli + 1) := by
      cases f with
      | sleep chan lk =>
        have hOne : 1 ≤ (m.cpu c).ncli := hNests
        refine ⟨by omega, ?_⟩
        change 2 ≤ (m.cpu c).ncli + 1
        omega
      | _ =>
        have hZero : 0 ≤ (m.cpu c).ncli := hNests
        refine ⟨hZero, ?_⟩
        change 1 ≤ (m.cpu c).ncli + 1
        omega
    exact .acquire h (hInside hpc rfl) hPos.1 hPos.2 (hBack hpc ⟨rfl, rfl⟩)
  case h_5 f hpc => exact body_turn hpc (hpc ▸ hNests) h
  case h_6 chan lk hpc =>
    rw [hpc] at hNests
    obtain ⟨p, hProc, rfl⟩ := Option.map_eq_some_iff.mp h
    exact .jump [_] (hInside hpc rfl) ⟨hNests, by simp⟩ (hBack hpc ⟨rfl, rfl⟩)
  case h_7 k hpc =>
    obtain ⟨p, hProc, rfl⟩ := Option.map_eq_some_iff.mp h
    exact sched_turn hpc hProc
  case h_8 k hpc =>
    rw [hpc] at hNests
    obtain ⟨p, hProc, rfl⟩ := Option.map_eq_some_iff.mp h
    exact resume_turn hpc hProc hNests
  case h_9 n hpc =>
    rw [hpc] at hNests
    have hOne : 1 ≤ (m.cpu c).ncli := hNests
    have hZero : 0 ≤ (m.cpu c).ncli - 1 := by omega
    obtain rfl := Option.some.inj h
    cases n with
    | _ => exact .release (hInside hpc rfl) hOne hZero (hBack hpc ⟨rfl, rfl⟩)
  case h_10 lk hpc =>
    rw [hpc] at hNests
    have hZero : 0 ≤ (m.cpu c).ncli := hNests
    have hOne : 0 ≤ (m.cpu c).ncli + 1 := by omega
    exact .acquire h (hInside hpc rfl) hZero hOne (hBack hpc ⟨rfl, rfl⟩)
  case h_11 p hpc =>
    rw [hpc] at hNests
    obtain ⟨curr, hProc, rfl⟩ := Option.map_eq_some_iff.mp h
    exact .move (goto_cpu ..) (hInside hpc rfl) hNests (hBack hpc ⟨rfl, rfl⟩)
  case h_12 p hpc =>
    rw [hpc] at hNests
    obtain rfl := Option.some.inj h
    exact .move (goto_cpu ..) (hInside hpc rfl) hNests (hBack hpc ⟨rfl, rfl⟩)
  case h_13 pid hpc =>
    rw [hpc] at hNests
    obtain ⟨p, hProc, rfl⟩ := Option.map_eq_some_iff.mp h
    exact .move (goto_cpu ..) (hInside hpc rfl) hNests (hBack hpc ⟨rfl, rfl⟩)
  all_goals cases h

theorem invoke_turn {f : Call} (hNests : (m.cpu c).pc.Nests (m.cpu c).ncli)
    (hSleep : ∀ chan lk, f = .sleep chan lk → 1 ≤ (m.cpu c).ncli) (h : m.invoke c f = some m') : Turn m c m' := by
  have hCall {pc : Pc} {f : Call} (hpc : (m.cpu c).pc = pc) (hPlace : pc = .run ∨ pc = .handler)
      (hMode : (Pc.call f).inside = pc.inside) (hf : (Pc.call f).Nests (m.cpu c).ncli) :
      Turn m c (m.goto c (.call f)) := by
    refine .move (goto_cpu ..) (by rw [hpc, hMode]) hf ⟨?_, rfl⟩
    rw [hpc]
    obtain rfl | rfl := hPlace
    · rfl
    · rfl
  unfold invoke at h
  split at h
  case h_3 hpc =>
    rw [hpc] at hNests
    split at h
    · obtain rfl := Option.some.inj h
      exact .panic (goto_cpu ..) (by decide)
    · obtain rfl := Option.some.inj h
      exact hCall hpc (.inl rfl) rfl hNests
  case h_1 chan hpc =>
    rw [hpc] at hNests
    obtain rfl := Option.some.inj h
    exact hCall hpc (.inr rfl) rfl hNests
  case h_8 chan lk hpc =>
    obtain rfl := Option.some.inj h
    exact hCall hpc (.inl rfl) rfl (hSleep chan lk rfl)
  case h_9 => cases h
  all_goals
    rename_i hpc
    rw [hpc] at hNests
    obtain rfl := Option.some.inj h
    exact hCall hpc (.inl rfl) rfl hNests

/-- A step of a process or of an interrupt outside of `proc.c` that takes a lock or gives one back. -/
theorem outside_nests {pc : Pc} (hpc : pc = .run ∨ pc = .handler) {d : Int} : pc.Nests d ↔ 0 ≤ d := by
  obtain rfl | rfl := hpc
  · rfl
  · rfl

theorem outside_back {pc : Pc} (hpc : pc = .run ∨ pc = .handler) : pc.returning = false := by
  obtain rfl | rfl := hpc
  · rfl
  · rfl

/-- A step that may set the interrupt flag, with no `pushcli` in force. -/
theorem Turn.flag {pc : Pc} {b : Bool} (hZero : (m.cpu c).ncli = 0) (hInside : pc.inside = (m.cpu c).pc.inside)
    (hNests : pc.Nests 0) (hBack : (m.cpu c).pc.returning = false ∧ pc.returning = false) :
    Turn m c (m.setCpu c { m.cpu c with irq := b, pc := pc }) := by
  have hBack' : ((m.setCpu c { m.cpu c with irq := b, pc := pc }).cpu c).pc.returning = false := by
    rw [setCpu_cpu]
    exact hBack.2
  apply Turn.still
  · right
    apply code_congr
    · rw [setCpu_cpu, hInside]
    · rw [setCpu_cpu]
  · rw [setCpu_cpu]
  · rw [setCpu_cpu, hZero]
    exact hNests
  · intro hPos
    omega
  · rw [setCpu_cpu, hInside]
    exact fun h => h
  · intro p _
    rw [saved_of hBack', saved_of hBack.1, setCpu_cpu]

theorem deed_turn {a : Deed C} (hCpus : m.Cpus) (hNests : (m.cpu c).pc.Nests (m.cpu c).ncli)
    (hPop : ∀ lk, a = .popcli ∨ a = .act (.release lk) → 1 ≤ (m.cpu c).ncli)
    (hSleep : ∀ chan lk, a = .act (.invoke (.sleep chan lk)) → 1 ≤ (m.cpu c).ncli)
    (h : m.deed c a = some m') : Turn m c m' := by
  cases a with
  | pushcli =>
    rw [deed] at h
    split at h
    · next hpc =>
      obtain rfl := Option.some.inj h
      have hZero := (outside_nests hpc).mp hNests
      exact .push (m.cpu c).pc (m.cpu c).irq (setCpu_cpu ..) (.inl rfl) rfl hZero
        ((outside_nests hpc).mpr (by omega)) ⟨outside_back hpc, outside_back hpc⟩
    · cases h
  | popcli =>
    rw [deed] at h
    split at h
    · next hpc =>
      obtain rfl := Option.some.inj h
      have hOne := hPop 0 (.inl rfl)
      refine .pop (m.cpu c).pc (m.cpu c).intena (setCpu_cpu ..) ?_ rfl hOne
        ((outside_nests hpc).mpr (by omega)) (outside_back hpc)
      intro p v _ hSaved
      rw [saved_of (outside_back hpc)] at hSaved
      exact Option.some.inj hSaved
    · cases h
  | act a =>
    rw [deed] at h
    cases a with
    | next => exact next_turn hCpus hNests h
    | invoke f => exact invoke_turn hNests (fun chan lk hf => hSleep chan lk (by rw [hf])) h
    | page a =>
      rw [step] at h
      have hMove {t : Ptable} {pc pc' : Pc} (hpc : (m.cpu c).pc = pc) (hNests' : pc'.Nests (m.cpu c).ncli)
          (hMode : pc'.inside = pc.inside) (hNot : pc.returning = false ∧ pc'.returning = false) :
          Turn m c ((m.withTbl t).goto c pc') :=
        .move (goto_cpu ..) (by rw [hpc, hMode]) hNests' (by rwa [hpc])
      split at h
      · next p hpc =>
        rw [hpc] at hNests
        obtain rfl := Option.some.inj h
        split
        · exact hMove hpc hNests rfl ⟨rfl, rfl⟩
        · exact hMove hpc hNests rfl ⟨rfl, rfl⟩
      · next p hpc =>
        rw [hpc] at hNests
        obtain rfl := Option.some.inj h
        split
        · exact hMove hpc hNests rfl ⟨rfl, rfl⟩
        · exact hMove hpc hNests rfl ⟨rfl, rfl⟩
      · cases h
    | acquire lk =>
      rw [step] at h
      split at h
      · next hpc =>
        have hZero := (outside_nests hpc).mp hNests
        exact .acquire h rfl hZero ((outside_nests hpc).mpr (by omega)) ⟨outside_back hpc, outside_back hpc⟩
      · cases h
    | release lk =>
      rw [step] at h
      split at h
      · next hpc =>
        obtain rfl := Option.some.inj h
        have hOne := hPop lk (.inr rfl)
        exact .release rfl hOne ((outside_nests hpc).mpr (by omega)) ⟨outside_back hpc, outside_back hpc⟩
      · cases h
    | mode on =>
      rw [step] at h
      split at h
      · next hIf =>
        obtain ⟨hpc, hZero⟩ := hIf
        obtain rfl := Option.some.inj h
        refine .flag hZero rfl ?_ ⟨?_, ?_⟩
        · rw [hpc]
          exact le_rfl
        · rw [hpc]
          rfl
        · rw [hpc]
          rfl
      · cases h
    | interrupt =>
      rw [step] at h
      split at h
      · next hIf =>
        obtain rfl := Option.some.inj h
        rw [hIf.1] at hNests
        exact .flag hNests (by rw [hIf.1]; rfl) le_rfl ⟨by rw [hIf.1]; rfl, rfl⟩
      · cases h
    | iret =>
      rw [step] at h
      split at h
      · next hIf =>
        obtain rfl := Option.some.inj h
        exact .flag hIf.2 (by rw [hIf.1]; rfl) rfl ⟨by rw [hIf.1]; rfl, rfl⟩
      · cases h
    | enable c' on =>
      rw [step] at h
      split at h
      · next hpc =>
        obtain rfl := Option.some.inj h
        have hSame : ∃ e, (m.setCpu c' { m.cpu c' with enabled := on }).cpu c = { m.cpu c with enabled := e } := by
          obtain rfl | hc := eq_or_ne c c'
          · exact ⟨on, setCpu_cpu ..⟩
          · exact ⟨(m.cpu c).enabled, setCpu_cpu_of_ne _ _ _ hc⟩
        obtain ⟨e, hk⟩ := hSame
        have hBack : (m.cpu c).pc.returning = false := outside_back (.inl hpc)
        refine .still (.inr (code_congr ?_ ?_)) ?_ ?_ ?_ ?_ ?_
        · rw [hk]
        · rw [hk]
        · rw [hk]
        · rw [hk]
          exact hNests
        · rw [hk]
          exact fun _ => rfl
        · rw [hk]
          exact fun hTrue => hTrue
        · intro p _
          rw [saved_of hBack, saved_of (by rw [hk]; exact hBack), hk]
      · cases h

theorem deed_alive {a : Deed C} (h : m.deed c a = some m') :
    (m.cpu c).pc.mode ≠ .dead ∧ ∀ q, (m.cpu c).pc = .copy q → ∀ r, (m'.cpu c).pc ≠ .copy r := by
  constructor
  · intro hDead
    have hPanic : ∃ e, (m.cpu c).pc = .panic e := by
      generalize (m.cpu c).pc = pc at hDead
      cases pc with
      | panic e => exact ⟨e, rfl⟩
      | call f => obtain hf | hf := f.mode_cases <;> simp [Pc.mode, hf] at hDead
      | body f => obtain hf | hf := f.mode_cases <;> simp [Pc.mode, hf] at hDead
      | leave n => cases n <;> cases hDead
      | _ => cases hDead
    obtain ⟨e, hpc⟩ := hPanic
    cases a with
    | act a => cases a <;> simp [deed, step, next, invoke, hpc] at h
    | _ => simp [deed, hpc] at h
  · intro q hpc r
    cases a with
    | act a =>
      cases a with
      | page a =>
        simp only [deed, step, hpc, Option.some.injEq] at h
        rw [← h, goto_cpu]
        split
        all_goals simp
      | _ => simp [deed, step, next, invoke, hpc] at h
    | _ => simp [deed, hpc] at h

theorem Frame.of_stay (hCpus : m.Cpus) {k : Cpu} (hpc : k.pc = (m.cpu c).pc) (hProc : k.proc = (m.cpu c).proc) :
    Frame m c (m.setCpu c k) := by
  have hMoves : (m.cpu c).pc.Moves k.pc := hpc ▸ .stay _
  refine .of_quiet (hCpus.move hProc hMoves) rfl (fun c' hc => ⟨_, setCpu_cpu_of_ne _ _ _ hc⟩) ?_ ?_ ?_ ?_
  all_goals rw [setCpu_cpu]
  · exact hProc
  · exact .inl (by rw [hpc])
  · rw [hpc]
    exact fun q hq => hq
  · rw [hpc]
    exact fun q hq => hq

theorem deed_frame {a : Deed C} (hCpus : m.Cpus) (hOff : 0 < (m.cpu c).ncli → (m.cpu c).irq = false)
    (hPop : a = .popcli → 1 ≤ (m.cpu c).ncli) (h : m.deed c a = some m') : Frame m c m' := by
  cases a with
  | act a => exact (step_cases h).frame hCpus
  | pushcli =>
    rw [deed] at h
    split at h
    · obtain rfl := Option.some.inj h
      exact .of_stay hCpus rfl rfl
    · cases h
  | popcli =>
    rw [deed] at h
    split at h
    · obtain rfl := Option.some.inj h
      have hOne := hPop rfl
      rw [popcli_eq (hOff (by omega)) hOne]
      exact .of_stay hCpus rfl rfl
    · cases h

omit [DecidableEq C] in
theorem Cpus.not_claimed (h : m.Cpus) {c' : C} {p : Slot} (hClaims : (m.cpu c').pc.claims = some p) :
    (m.cpu c).proc ≠ some p ∧ ¬Left (m.state p) := by
  have hEmbryo := h.embryo c' p hClaims
  have hNot : ¬Left (m.state p) := by
    rw [hEmbryo]
    simp [Left]
  refine ⟨fun hp => ?_, hNot⟩
  obtain hRun | ⟨-, hLeft⟩ := h.current hp
  · rw [hEmbryo] at hRun
    cases hRun
  · exact hNot hLeft

theorem Pc.claims_of_filled {pc : Pc} {p : Slot} (h : pc.filled = some p) : pc.claims = some p := by
  cases pc with
  | copy q => exact h
  | parent q => exact h
  | ready q => exact h
  | _ => cases h

omit [DecidableEq C] in
theorem Away.not_code (hAway : m.Away p) (hCpus : m.Cpus) : m.code c ≠ .proc p := by
  intro hCode
  obtain ⟨hInside, hp⟩ := code_eq_proc.mp hCode
  obtain ⟨-, hParked⟩ | ⟨c', hFilled⟩ := hAway
  · obtain ⟨i, hpc⟩ := hParked c hp
    rw [hpc] at hInside
    cases hInside
  · exact (hCpus.not_claimed (Pc.claims_of_filled hFilled)).1 hp

omit [DecidableEq C] in
theorem Away.not_kstack (hAway : m.Away p) (hCpus : m.Cpus) : (m.cpu c).pc ≠ .kstack p := by
  intro hpc
  have hClaims : (m.cpu c).pc.claims = some p := by
    rw [hpc]
    rfl
  obtain ⟨hLeft, -⟩ | ⟨c', hFilled⟩ := hAway
  · exact (hCpus.not_claimed (c := c) hClaims).2 hLeft
  · obtain rfl := hCpus.claimUnique c' c p (Pc.claims_of_filled hFilled) hClaims
    rw [hpc] at hFilled
    cases hFilled

end Machine

/-! ## The invariant over a run -/

namespace Nested

open Machine

variable {C : Type} [DecidableEq C] {n : Nested C} {c : C} {m' : Machine C} {p : Slot}

theorem note_depth_of_ne {x : Code C} (hx : n.machine.code c ≠ x) (hFresh : ∀ q, x = .proc q → (m'.cpu c).pc ≠ .copy q) :
    (n.note c m').depth x = n.depth x := by
  cases x with
  | proc q => simp only [note, if_neg (hFresh q rfl), if_neg hx, add_zero]
  | sched c' => simp only [note, if_neg hx, add_zero]

theorem note_depth_code (hFresh : ∀ q, n.machine.code c = .proc q → (m'.cpu c).pc ≠ .copy q) :
    (n.note c m').depth (n.machine.code c) =
      n.depth (n.machine.code c) + ((m'.cpu c).ncli - (n.machine.cpu c).ncli) := by
  cases hCode : n.machine.code c with
  | proc q => simp only [note, if_neg (hFresh q hCode), hCode, if_true]
  | sched c' => simp only [note, hCode, if_true]

/-- A step that adds nothing to `ncli` changes no depth but that of a new process. -/
theorem note_depth_of_eq {x : Code C} (hncli : (m'.cpu c).ncli = (n.machine.cpu c).ncli)
    (hFresh : ∀ q, x = .proc q → (m'.cpu c).pc ≠ .copy q) : (n.note c m').depth x = n.depth x := by
  obtain rfl | hx := eq_or_ne (n.machine.code c) x
  · rw [note_depth_code hFresh, hncli, sub_self, add_zero]
  · exact note_depth_of_ne hx hFresh

theorem note_outer_of (hFresh : (m'.cpu c).pc ≠ .copy p)
    (hNot : ¬(n.machine.code c = .proc p ∧ n.depth (.proc p) = 0 ∧ (n.machine.cpu c).ncli < (m'.cpu c).ncli)) :
    (n.note c m').outer p = n.outer p := by
  simp only [note, if_neg hFresh, if_neg hNot]

theorem Inv.place_turn (h : Inv n) (hTurn : Turn n.machine c m')
    (hAlive : (n.machine.cpu c).pc.mode ≠ .dead) (hCopy : ∀ q, (m'.cpu c).pc = .copy q → (n.machine.cpu c).pc = .kstack q) :
    (n.note c m').Place c := by
  have hPlace := h.place c
  have hDepth := hPlace.depth hAlive
  -- a process with a processor is not the one that is being made
  have hFresh : ∀ q, (n.machine.cpu c).proc = some q ∨ n.machine.Away q → (m'.cpu c).pc ≠ .copy q := by
    rintro q (hq | hq) hpc
    · exact (h.cpus.not_claimed (c := c) (show (n.machine.cpu c).pc.claims = some q by rw [hCopy q hpc]; rfl)).1 hq
    · exact hq.not_kstack h.cpus (hCopy q hpc)
  have hFreshCode : ∀ q, n.machine.code c = .proc q → (m'.cpu c).pc ≠ .copy q :=
    fun q hq => hFresh q (.inl (code_eq_proc.mp hq).2)
  have hWaits : (n.machine.cpu c).pc.inside = true → (n.note c m').depth (.sched c) = 1 := by
    intro hInside
    obtain ⟨q, -, hCode⟩ := h.cpus.exists_proc hInside
    rw [note_depth_of_ne (by rw [hCode]; simp) (by simp)]
    exact hPlace.waits hInside
  cases hTurn with
  | still hCode hncli hNests hOff hInside hSaved =>
    constructor
    · exact hncli ▸ hNests
    · intro hPos
      have hPos' : 0 < (n.machine.cpu c).ncli := hncli ▸ hPos
      exact (hOff hPos').trans (hPlace.off hPos')
    · intro hAlive'
      obtain hDead | hSame := hCode
      · exact absurd hDead hAlive'
      · change (m'.cpu c).ncli = (n.note c m').depth (m'.code c)
        rw [hSame, note_depth_code hFreshCode, hncli, sub_self, add_zero]
        exact hDepth
    · exact fun hIn => hWaits (hInside hIn)
    · intro q b hq hPos hOuter
      have hIn := (code_eq_proc.mp hq).1
      have hSame : m'.code c = n.machine.code c := by
        obtain hDead | hSame := hCode
        · exact absurd (hIn.symm.trans (Pc.inside_of_dead hDead)) Bool.true_eq_false.mp
        · exact hSame
      have hq' : n.machine.code c = .proc q := hSame.symm.trans hq
      rw [note_outer_of (hFreshCode q hq') (fun hAnd => absurd hAnd.2.2 (by omega))] at hOuter
      exact (hSaved q hq).trans (hPlace.outer q b hq' (hncli ▸ hPos) hOuter)
  | push pc b hk hb hInside hPos hNests hBack =>
    have hSame : m'.code c = n.machine.code c := code_congr (by rw [hk]; exact hInside) (by rw [hk]; rfl)
    have hncli : (m'.cpu c).ncli = (n.machine.cpu c).ncli + 1 := by
      rw [hk]
      rfl
    constructor
    · change (m'.cpu c).pc.Nests (m'.cpu c).ncli
      rw [hncli, hk]
      exact hNests
    · intro _
      change (m'.cpu c).irq = false
      rw [hk]
      rfl
    · intro _
      change (m'.cpu c).ncli = (n.note c m').depth (m'.code c)
      rw [hSame, note_depth_code hFreshCode, hncli]
      omega
    · intro hIn
      change (m'.cpu c).pc.inside = true at hIn
      rw [hk] at hIn
      exact hWaits (hInside ▸ hIn)
    · intro q b' hq _ hOuter
      have hq' : n.machine.code c = .proc q := hSame.symm.trans hq
      have hb' : b = (n.machine.cpu c).irq := by
        obtain hb | hb := hb
        · exact hb
        · rw [hq'] at hb
          cases hb
      have hNot : (m'.cpu c).pc.returning = false := by
        rw [hk]
        exact hBack.2
      change m'.saved c q = some b'
      rw [saved_of hNot, hk]
      rw [hq'] at hDepth
      change some (if (n.machine.cpu c).ncli = 0 then b else (n.machine.cpu c).intena) = some b'
      -- the outermost one writes down the state, and the others leave `intena` alone
      obtain hZero | hNe := eq_or_ne (n.machine.cpu c).ncli 0
      · simp only [note, if_neg (hFreshCode q hq'), hq', ← hDepth, hZero, hncli, true_and] at hOuter
        rw [if_pos (by norm_num)] at hOuter
        rw [if_pos hZero, hb']
        exact hOuter
      · rw [note_outer_of (hFreshCode q hq') (by rw [← hDepth]; exact fun hAnd => hNe hAnd.2.1)] at hOuter
        have hSaved := hPlace.outer q b' hq' (by omega) hOuter
        rw [saved_of hBack.1] at hSaved
        rw [if_neg hNe]
        exact hSaved
  | pop pc b hk hb hInside hPos hNests hBack =>
    have hOff : (n.machine.cpu c).irq = false := hPlace.off (by omega)
    rw [popcli_eq (show ({ n.machine.cpu c with intena := b } : Cpu).irq = false from hOff) hPos] at hk
    have hSame : m'.code c = n.machine.code c := code_congr (by rw [hk]; exact hInside) (by rw [hk])
    have hncli : (m'.cpu c).ncli = (n.machine.cpu c).ncli - 1 := by rw [hk]
    constructor
    · change (m'.cpu c).pc.Nests (m'.cpu c).ncli
      rw [hncli, hk]
      exact hNests
    · intro hPos'
      change 0 < (m'.cpu c).ncli at hPos'
      change (m'.cpu c).irq = false
      rw [hncli] at hPos'
      rw [hk]
      simp [hPos'.ne']
    · intro _
      change (m'.cpu c).ncli = (n.note c m').depth (m'.code c)
      rw [hSame, note_depth_code hFreshCode, hncli]
      omega
    · intro hIn
      change (m'.cpu c).pc.inside = true at hIn
      rw [hk] at hIn
      exact hWaits (hInside ▸ hIn)
    · intro q b' hq _ hOuter
      have hq' : n.machine.code c = .proc q := hSame.symm.trans hq
      have hNot : (m'.cpu c).pc.returning = false := by
        rw [hk]
        exact hBack
      rw [note_outer_of (hFreshCode q hq') (fun hAnd => absurd hAnd.2.2 (by omega))] at hOuter
      have hSaved := hPlace.outer q b' hq' (by omega) hOuter
      change m'.saved c q = some b'
      rw [saved_of hNot, hk]
      exact congrArg some (hb q b' hq' hSaved)
  | switch q i hpc hAway hContext hk =>
    have hCode : n.machine.code c = .sched c := code_of_outside (by rw [hpc]; rfl)
    have hNests := hPlace.nests
    rw [hpc] at hNests
    have hOne : (n.machine.cpu c).ncli = 1 := hNests
    have hncli : (m'.cpu c).ncli = (n.machine.cpu c).ncli := by rw [hk]
    have hCode' : m'.code c = .proc q := code_eq_proc.mpr ⟨by rw [hk]; rfl, by rw [hk]⟩
    have hSuspended := h.away q hAway
    have hNot : (m'.cpu c).pc ≠ .copy q := hFresh q (.inr hAway)
    constructor
    · change (m'.cpu c).pc.Nests (m'.cpu c).ncli
      rw [hncli, hOne, hk]
      exact rfl
    · intro hPos
      change (m'.cpu c).irq = false
      rw [hk]
      exact hPlace.off (by omega)
    · intro _
      change (m'.cpu c).ncli = (n.note c m').depth (m'.code c)
      rw [hCode', note_depth_of_eq hncli (by rintro r ⟨⟩; exact hNot), hSuspended.depth, hncli, hOne]
    · intro _
      rw [note_depth_of_eq hncli (by simp), ← hCode, ← hDepth, hOne]
    · intro r b hr _ hOuter
      obtain rfl : q = r := Code.proc.inj (hCode'.symm.trans hr)
      rw [note_outer_of hNot (by rw [hCode]; simp)] at hOuter
      change m'.saved c q = some b
      rw [saved, hk]
      rw [hContext]
      exact hSuspended.outer b hOuter
  | park q k i hpc hProc hOne hContext hk =>
    have hncli : (m'.cpu c).ncli = (n.machine.cpu c).ncli := by rw [hk]
    have hCode' : m'.code c = .sched c := code_of_outside (by rw [hk]; rfl)
    have hIn : (n.machine.cpu c).pc.inside = true := by
      rw [hpc]
      rfl
    constructor
    · change (m'.cpu c).pc.Nests (m'.cpu c).ncli
      rw [hncli, hOne, hk]
      exact rfl
    · intro hPos
      change (m'.cpu c).irq = false
      rw [hk]
      exact hPlace.off (by omega)
    · intro _
      change (m'.cpu c).ncli = (n.note c m').depth (m'.code c)
      rw [hCode', hWaits hIn, hncli, hOne]
    · exact fun _ => hWaits hIn
    · intro r b hr _ _
      have hNever : Code.sched c = .proc r := hCode'.symm.trans hr
      cases hNever

/-- A process that has no processor after the step either had none, or has just given it up or been made. -/
theorem Inv.away_turn (h : Inv n) (hFrame : Frame n.machine c m') (hTurn : Turn n.machine c m')
    (hAlive : (n.machine.cpu c).pc.mode ≠ .dead) (hCopy : ∀ q, (m'.cpu c).pc = .copy q → (n.machine.cpu c).pc = .kstack q)
    (hAway : m'.Away p) : (n.note c m').Suspended p := by
  have hPlace := h.place c
  obtain hAway | ⟨k, hpc, hProc, i, hpc'⟩ | hpc' := hFrame.away p hAway
  · have hCode := hAway.not_code (c := c) h.cpus
    have hNot : (m'.cpu c).pc ≠ .copy p := fun hpc' => hAway.not_kstack h.cpus (hCopy p hpc')
    have hSuspended := h.away p hAway
    constructor
    · rw [note_depth_of_ne hCode (by rintro q ⟨⟩; exact hNot)]
      exact hSuspended.depth
    · intro b hOuter
      rw [note_outer_of hNot (fun hAnd => hCode hAnd.1)] at hOuter
      change (m'.tbl.proc p).context.resume.saved (m'.tbl.proc p).context.intena = some b
      obtain hSame | ⟨k, hpc, hProc⟩ | hpc := hFrame.context p
      · rw [hSame]
        exact hSuspended.outer b hOuter
      · exact absurd (code_eq_proc.mpr ⟨by rw [hpc]; rfl, hProc⟩) hCode
      · exact absurd hpc (hAway.not_kstack h.cpus)
  · have hIn : (n.machine.cpu c).pc.inside = true := by
      rw [hpc]
      rfl
    have hOut : (m'.cpu c).pc.inside = false := by
      rw [hpc']
      rfl
    have hCode : n.machine.code c = .proc p := code_eq_proc.mpr ⟨hIn, hProc⟩
    have hDepth := hPlace.depth hAlive
    have hNot : (m'.cpu c).pc ≠ .copy p := by
      rw [hpc']
      simp
    cases hTurn with
    | still hSame =>
      obtain hDead | hSame := hSame
      · rw [hpc'] at hDead
        cases hDead
      · rw [hCode, code_of_outside hOut] at hSame
        cases hSame
    | push pc b hk hb hInside =>
      rw [hk] at hOut
      exact absurd ((hInside.trans hIn).symm.trans hOut) Bool.true_eq_false.mp
    | pop pc b hk hb hInside hPos =>
      rw [popcli_eq (show ({ n.machine.cpu c with intena := b } : Cpu).irq = false from hPlace.off (by omega)) hPos] at hk
      rw [hk] at hOut
      exact absurd ((hInside.trans hIn).symm.trans hOut) Bool.true_eq_false.mp
    | switch q j hscan =>
      rw [hpc] at hscan
      cases hscan
    | park q k' j hpc₁ hProc' hOne hContext hk =>
      obtain rfl : p = q := Option.some.inj (hProc.symm.trans hProc')
      obtain rfl := Pc.sched.inj (hpc.symm.trans hpc₁)
      have hncli : (m'.cpu c).ncli = (n.machine.cpu c).ncli := by rw [hk]
      constructor
      · rw [note_depth_of_eq hncli (by rintro q ⟨⟩; exact hNot), ← hCode, ← hDepth, hOne]
      · intro b hOuter
        rw [note_outer_of hNot (fun hAnd => absurd hAnd.2.2 (by omega))] at hOuter
        have hSaved := hPlace.outer p b hCode (by omega) hOuter
        rw [saved_of (by rw [hpc]; rfl)] at hSaved
        have hNests := hPlace.nests
        rw [hpc] at hNests
        change (m'.tbl.proc p).context.resume.saved (m'.tbl.proc p).context.intena = some b
        rw [hContext, ← hSaved]
        cases k with
        | forkret => exact absurd rfl hNests.2
        | _ => rfl
  · constructor
    · simp only [note, hpc', if_true]
    · intro b hOuter
      simp only [note, hpc', if_true] at hOuter
      cases hOuter

theorem Inv.place_other (h : Inv n) (hFrame : Frame n.machine c m')
    (hCopy : ∀ q, (m'.cpu c).pc = .copy q → (n.machine.cpu c).pc = .kstack q) {c' : C} (hc : c' ≠ c) :
    (n.note c m').Place c' := by
  have hPlace := h.place c'
  obtain ⟨on, hSame⟩ := hFrame.cpu c' hc
  have hCode : m'.code c' = n.machine.code c' := code_congr (by rw [hSame]) (by rw [hSame])
  have hOther {q : Slot} (hq : n.machine.code c' = .proc q) :
      n.machine.code c ≠ .proc q ∧ (m'.cpu c).pc ≠ .copy q ∧ (n.machine.cpu c).pc ≠ .kstack q := by
    have hProc := (code_eq_proc.mp hq).2
    have hKstack : (n.machine.cpu c).pc ≠ .kstack q := by
      intro hpc
      exact (h.cpus.not_claimed (show (n.machine.cpu c).pc.claims = some q by rw [hpc]; rfl)).1 hProc
    refine ⟨fun hCode' => ?_, fun hpc => hKstack (hCopy q hpc), hKstack⟩
    exact hc (h.cpus.procUnique c' c q hProc (code_eq_proc.mp hCode').2)
  have hSched : n.machine.code c ≠ .sched c' := fun hCode' => hc (code_eq_sched hCode')
  constructor
  · change (m'.cpu c').pc.Nests (m'.cpu c').ncli
    rw [hSame]
    exact hPlace.nests
  · change 0 < (m'.cpu c').ncli → (m'.cpu c').irq = false
    rw [hSame]
    exact hPlace.off
  · change (m'.cpu c').pc.mode ≠ .dead → (m'.cpu c').ncli = (n.note c m').depth (m'.code c')
    rw [hCode, hSame]
    intro hAlive
    have hDepth := hPlace.depth hAlive
    cases hc' : n.machine.code c' with
    | proc q =>
      obtain ⟨hNe, hNot, -⟩ := hOther hc'
      rw [hc'] at hDepth
      rw [note_depth_of_ne hNe (by rintro r ⟨⟩; exact hNot)]
      exact hDepth
    | sched c₁ =>
      obtain rfl := code_eq_sched hc'
      rw [hc'] at hDepth
      rw [note_depth_of_ne hSched (by simp)]
      exact hDepth
  · change (m'.cpu c').pc.inside = true → (n.note c m').depth (.sched c') = 1
    rw [hSame, note_depth_of_ne hSched (by simp)]
    exact hPlace.waits
  · intro q b hq hPos hOuter
    have hq' : n.machine.code c' = .proc q := hCode.symm.trans hq
    obtain ⟨hNe, hNot, hKstack⟩ := hOther hq'
    change 0 < (m'.cpu c').ncli at hPos
    rw [hSame] at hPos
    rw [note_outer_of hNot (fun hAnd => hNe hAnd.1)] at hOuter
    have hSaved := hPlace.outer q b hq' hPos hOuter
    have hContext : (m'.tbl.proc q).context = (n.machine.tbl.proc q).context := by
      obtain hEq | ⟨k, hpc, hProc⟩ | hpc := hFrame.context q
      · exact hEq
      · exact absurd (code_eq_proc.mpr ⟨by rw [hpc]; rfl, hProc⟩) hNe
      · exact absurd hpc hKstack
    change m'.saved c' q = some b
    rw [saved] at hSaved ⊢
    rw [hSame, hContext]
    exact hSaved

theorem Inv.step {a : Deed C} (h : Inv n) (hNested : n.WellNested c a) (hStep : n.machine.deed c a = some m') :
    Turn n.machine c m' ∧ Inv (n.note c m') := by
  have hPlace := h.place c
  obtain ⟨hAlive, hCopies⟩ := deed_alive hStep
  have hDepth := hPlace.depth hAlive
  have hPop : ∀ lk, a = .popcli ∨ a = .act (.release lk) → 1 ≤ (n.machine.cpu c).ncli := by
    rintro lk (rfl | rfl)
    · exact hDepth ▸ hNested rfl
    · exact hDepth ▸ hNested rfl
  have hSleep : ∀ chan lk, a = .act (.invoke (.sleep chan lk)) → 1 ≤ (n.machine.cpu c).ncli := by
    rintro chan lk rfl
    exact hDepth ▸ hNested rfl
  have hTurn := deed_turn h.cpus hPlace.nests hPop hSleep hStep
  have hFrame := deed_frame h.cpus hPlace.off (fun ha => hPop 0 (.inl ha)) hStep
  have hCopy : ∀ q, (m'.cpu c).pc = .copy q → (n.machine.cpu c).pc = .kstack q := by
    intro q hq
    obtain hpc | hpc := hFrame.fresh q hq
    · exact hpc
    · exact absurd hq (hCopies q hpc q)
  refine ⟨hTurn, hFrame.cpus, fun c' => ?_, fun q hq => h.away_turn hFrame hTurn hAlive hCopy hq⟩
  obtain rfl | hc := eq_or_ne c' c
  · exact h.place_turn hTurn hAlive hCopy
  · exact h.place_other hFrame hCopy hc

theorem inv_boot (kstack pgdir : Nat) (enabled : C → Bool) : Inv (boot kstack pgdir enabled) := by
  constructor
  · exact Cpus.boot kstack pgdir enabled
  · intro c
    constructor
    · exact rfl
    · exact fun hPos => absurd hPos (lt_irrefl (0 : Int))
    · intro _
      change (0 : Int) = (boot kstack pgdir enabled).depth (.sched c)
      simp [boot]
    · exact fun hIn => by cases hIn
    · exact fun p b hp => by cases hp
  · intro p hAway
    constructor
    · have hZero : p = 0 := by
        by_contra hNe
        obtain ⟨hLeft, -⟩ | ⟨c, hc⟩ := hAway
        · simp [state, boot, Machine.boot, Ptable.userinit, hNe, Left] at hLeft
        · cases hc
      subst hZero
      simp [boot]
    · exact fun b hOuter => by cases hOuter

theorem Reach.inv {kstack pgdir : Nat} {enabled : C → Bool} (hReach : Reach kstack pgdir enabled n) : Inv n := by
  induction hReach with
  | boot => exact inv_boot kstack pgdir enabled
  | step hReach hNested hStep ih => exact (ih.step hNested hStep).2

/-- The processors take well-nested steps in any order. Where `ncli` is positive, interrupts are off; no
`popcli` panics; the nesting of a process is the `ncli` of the processor it runs on; and when it has
undone its last `pushcli`, on whatever processor, interrupts are as they were at its first. -/
theorem interrupts_restored {kstack pgdir : Nat} {enabled : C → Bool} (hReach : Reach kstack pgdir enabled n) :
    (∀ c, 0 < (n.machine.cpu c).ncli → (n.machine.cpu c).irq = false) ∧
      (∀ c, (n.machine.cpu c).pc ≠ .panic .popcliInterruptible ∧ (n.machine.cpu c).pc ≠ .panic .popcliNcli) ∧
      (∀ c p, n.machine.code c = .proc p → (n.machine.cpu c).ncli = n.depth (.proc p)) ∧
      ∀ c a m' p b, n.WellNested c a → n.machine.deed c a = some m' → n.machine.code c = .proc p →
        0 < n.depth (.proc p) → (n.note c m').depth (.proc p) = 0 → n.outer p = some b → (m'.cpu c).irq = b := by
  have hInv := hReach.inv
  have hDepth : ∀ c p, n.machine.code c = .proc p → (n.machine.cpu c).ncli = n.depth (.proc p) := by
    intro c p hp
    have hAlive : (n.machine.cpu c).pc.mode ≠ .dead := by
      intro hDead
      exact absurd ((code_eq_proc.mp hp).1.symm.trans (Pc.inside_of_dead hDead)) Bool.true_eq_false.mp
    rw [(hInv.place c).depth hAlive, hp]
  refine ⟨fun c => (hInv.place c).off, fun c => ⟨?_, ?_⟩, hDepth, ?_⟩
  · intro hpc
    have hNests := (hInv.place c).nests
    rw [hpc] at hNests
    exact hNests.1 rfl
  · intro hpc
    have hNests := (hInv.place c).nests
    rw [hpc] at hNests
    exact hNests.2 rfl
  · intro c a m' p b hNested hStep hp hPos hZero hOuter
    have hPlace := hInv.place c
    have hHere := hDepth c p hp
    obtain ⟨hTurn, hInv'⟩ := hInv.step hNested hStep
    have hNot : (m'.cpu c).pc ≠ .copy p := by
      intro hpc
      simp only [note, hpc, if_true] at hZero
      cases hZero
    have hNew : (n.note c m').depth (.proc p) = n.depth (.proc p) + ((m'.cpu c).ncli - (n.machine.cpu c).ncli) := by
      rw [← hp]
      apply note_depth_code
      rintro q hq
      obtain rfl := Code.proc.inj (hp.symm.trans hq)
      exact hNot
    cases hTurn with
    | still hCode hncli => omega
    | push pc b' hk =>
      have hncli : (m'.cpu c).ncli = (n.machine.cpu c).ncli + 1 := by
        rw [hk]
        rfl
      omega
    | pop pc b' hk hb hInside hOne =>
      have hOff : (n.machine.cpu c).irq = false := hPlace.off (by omega)
      rw [popcli_eq (show ({ n.machine.cpu c with intena := b' } : Cpu).irq = false from hOff) hOne] at hk
      have hncli : (m'.cpu c).ncli = (n.machine.cpu c).ncli - 1 := by rw [hk]
      have hLast : (n.machine.cpu c).ncli - 1 = 0 := by omega
      have hSaved := hPlace.outer p b hp (by omega) hOuter
      rw [hk, ← hb p b hp hSaved]
      simp [hLast]
    | switch q i hpc =>
      rw [code_of_outside (by rw [hpc]; rfl)] at hp
      cases hp
    | park q k i hpc hProc hOne hContext hk =>
      have hncli : (m'.cpu c).ncli = (n.machine.cpu c).ncli := by rw [hk]
      omega

def exec (n : Nested C) : List (C × Deed C) → Option (Nested C)
  | [] => some n
  | (c, a) :: as => if n.WellNested c a then (n.machine.deed c a).bind fun m' => (n.note c m').exec as else none

theorem Reach.exec {kstack pgdir : Nat} {enabled : C → Bool} {n' : Nested C} {as : List (C × Deed C)}
    (hReach : Reach kstack pgdir enabled n) (hExec : n.exec as = some n') : Reach kstack pgdir enabled n' := by
  induction as generalizing n with
  | nil => exact Option.some.inj hExec ▸ hReach
  | cons a as ih =>
    obtain ⟨c, a⟩ := a
    rw [Nested.exec] at hExec
    split at hExec
    · next hNested =>
      obtain ⟨m', hStep, hExec⟩ := Option.bind_eq_some_iff.mp hExec
      exact ih (hReach.step hNested hStep) hExec
    · cases hExec

/-- The first process turns interrupts off and gives up processor 0, which looks for another process in
vain; processor 1 finds it ready. -/
def migration : List (Fin 2 × Deed (Fin 2)) :=
  [(0, .act .next), (0, .act .next), (0, .act .next), (0, .act (.mode false)), (0, .act (.invoke .yield))] ++
    List.replicate 68 (0, .act .next) ++ [(1, .act .next), (1, .act .next)]

theorem interrupts_restored_migration : ∃ n : Nested (Fin 2),
    (boot 1 1 fun _ => true).exec migration = some n ∧ (n.machine.cpu 1).intena = true ∧
      ∃ m', n.machine.deed 1 (.act .next) = some m' ∧ (m'.cpu 1).ncli = 0 ∧ (m'.cpu 1).irq = false := by
  have hRun : (((boot 1 1 fun _ => true).exec migration).bind fun n =>
      (n.machine.deed 1 (.act .next)).map fun m' => ((n.machine.cpu 1).intena, n.machine.code 1, n.depth (.proc 0),
        n.outer 0, (n.note 1 m').depth (.proc 0), (m'.cpu 1).ncli)) =
      some (true, .proc 0, 1, some false, 0, 0) := by decide +kernel
  obtain ⟨n, hExec, hStep⟩ := Option.bind_eq_some_iff.mp hRun
  obtain ⟨m', hDeed, hAll⟩ := Option.map_eq_some_iff.mp hStep
  simp only [Prod.mk.injEq] at hAll
  obtain ⟨hIntena, hCode, hDepth, hOuter, hZero, hncli⟩ := hAll
  have hRestored := (interrupts_restored (Reach.boot.exec hExec)).2.2.2
  refine ⟨n, hExec, hIntena, m', hDeed, hncli, ?_⟩
  exact hRestored 1 (.act .next) m' 0 false (by rintro ⟨⟩) hDeed hCode (by rw [hDepth]; decide) hZero hOuter

end Nested

end Xv6Rpi.Sched
