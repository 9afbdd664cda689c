import Mathlib.Logic.Relation
import Xv6Rpi.Sched.Lifecycle

/-! # The tree of processes

`allocproc` gives pids in ascending order, and `exit` passes children to the process that has the
first one. So a parent always has a smaller pid than its children, and from any process the
parents lead to `init`.
-/

namespace Xv6Rpi.Sched

theorem Settled.used {s : ProcState} (h : Settled s) : s ≠ .unused := by
  rcases h with (rfl | rfl | rfl) | rfl <;> simp

theorem Settled.ne_embryo {s : ProcState} (h : Settled s) : s ≠ .embryo := by
  rcases h with (rfl | rfl | rfl) | rfl <;> simp

theorem Settled.of_wakes {s s' : ProcState} (h : Settled s') (hw : Ptable.Wakes s s') : Settled s := by
  rcases hw with rfl | ⟨rfl, rfl⟩
  · exact h
  · exact .inl (.inr (.inr rfl))

namespace Machine

variable {C : Type}

/-- The process in slot `p`, past its `fork`, is a child of the one in slot `q`. -/
def IsChild (m : Machine C) (p q : Slot) : Prop := Settled (m.state p) ∧ m.parent p = some q

/-- Parents are older than their children, those that are still in `fork` included. -/
structure Elders (m : Machine C) : Prop where
  root : m.parent m.tbl.initproc = none
  forking : ∀ c p q, (m.cpu c).pc.claims = some p → (m.cpu c).proc = some q → m.pid q < m.pid p
  child : ∀ p q, m.IsChild p q → m.pid q < m.pid p

variable {m m' : Machine C} {c : C}

theorem Numbered.lt_next {x : Pid} (h : m.Numbered x) (hSmall : m.forks + 2 < 2 ^ 32) :
    x < BitVec.ofNat 32 (m.forks + 2) := by
  obtain ⟨k, -, hk, rfl⟩ := h
  rw [BitVec.lt_def, BitVec.toNat_ofNat, BitVec.toNat_ofNat]
  omega

theorem Life.init_lt (h : Life m) (hSmall : m.forks + 2 < 2 ^ 32) {p : Slot} (hp : p ≠ m.tbl.initproc)
    (hUsed : m.state p ≠ .unused) : m.pid m.tbl.initproc < m.pid p := by
  have hInit : m.state m.tbl.initproc ≠ .unused := by
    rcases h.init.1 with hs | hs | hs <;> simp [hs]
  have hNe : m.pid p ≠ 1 := fun hOne => hp (h.distinct p _ hUsed hInit (hOne.trans h.init.2.symm))
  obtain ⟨k, hk, hlt, hPid⟩ := h.numbered p hUsed
  have hk' : k ≠ 1 := fun hOne => hNe (by rw [hPid, hOne]; rfl)
  have hOne : (1 : Pid).toNat = 1 := rfl
  rw [h.init.2, hPid, BitVec.lt_def, BitVec.toNat_ofNat, hOne]
  omega

section Step

variable [DecidableEq C] {k : Cpu}

theorem Elders.keeps (h : Elders m) (hCpu : m'.cpu = Function.update m.cpu c k)
    (hInit : m'.tbl.initproc = m.tbl.initproc) (hPid : ∀ p, m'.pid p = m.pid p)
    (hRoot : m'.parent m.tbl.initproc = m.parent m.tbl.initproc)
    (hClaims : ∀ p, k.pc.claims = some p → (m.cpu c).pc.claims = some p ∧ k.proc = (m.cpu c).proc)
    (hChild : ∀ p q, m'.IsChild p q → m.IsChild p q ∨ m.pid q < m.pid p) : Elders m' where
  root := by
    rw [hInit, hRoot]
    exact h.root
  forking c' p q hp hq := by
    rw [hPid, hPid]
    rw [hCpu] at hp hq
    rcases eq_or_ne c' c with rfl | hne
    · rw [Function.update_self] at hp hq
      obtain ⟨hp', hProc⟩ := hClaims p hp
      exact h.forking c' p q hp' (hProc ▸ hq)
    · rw [Function.update_of_ne hne] at hp hq
      exact h.forking c' p q hp hq
  child p q hpq := by
    rw [hPid, hPid]
    rcases hChild p q hpq with hOld | hLt
    · exact h.child p q hOld
    · exact hLt

/-- A step of `c` that writes to one slot and leaves pid and parent of it alone. -/
theorem Elders.slot (h : Elders m) {p : Slot} {f : Proc → Proc} (es : List (Event C))
    (hPid : (f (m.tbl.proc p)).pid = m.pid p) (hParent : (f (m.tbl.proc p)).parent = m.parent p)
    (hSettled : Settled (f (m.tbl.proc p)).state → Settled (m.state p) ∨ ∀ q, m.parent p = some q → m.pid q < m.pid p)
    (hClaims : ∀ p, k.pc.claims = some p → (m.cpu c).pc.claims = some p ∧ k.proc = (m.cpu c).proc) :
    Elders (((m.withTbl (m.tbl.set p f)).setCpu c k).logs es) := by
  set m' := ((m.withTbl (m.tbl.set p f)).setCpu c k).logs es
  have hTbl : m'.tbl = m.tbl.set p f := rfl
  have hSame (q : Slot) : m'.pid q = m.pid q ∧ m'.parent q = m.parent q := by
    rw [pid, parent, hTbl]
    rcases eq_or_ne q p with rfl | hne
    · rw [Ptable.set_proc]
      exact ⟨hPid, hParent⟩
    · rw [Ptable.set_proc_of_ne _ _ hne]
      exact ⟨rfl, rfl⟩
  refine h.keeps (c := c) (k := k) rfl rfl (fun q => (hSame q).1) (hSame _).2 hClaims fun q r hqr => ?_
  obtain ⟨hs, hr⟩ := hqr
  rw [(hSame q).2] at hr
  rw [state, hTbl] at hs
  rcases eq_or_ne q p with rfl | hne
  · rw [Ptable.set_proc] at hs
    exact (hSettled hs).imp (fun hs => ⟨hs, hr⟩) fun hLt => hLt r hr
  · rw [Ptable.set_proc_of_ne _ _ hne] at hs
    exact .inl ⟨hs, hr⟩

theorem Elders.write (h : Elders m) {p : Slot} {f : Proc → Proc}
    (hPid : (f (m.tbl.proc p)).pid = m.pid p) (hParent : (f (m.tbl.proc p)).parent = m.parent p)
    (hSettled : Settled (f (m.tbl.proc p)).state → Settled (m.state p) ∨ ∀ q, m.parent p = some q → m.pid q < m.pid p)
    (hClaims : ∀ p, k.pc.claims = some p → (m.cpu c).pc.claims = some p ∧ k.proc = (m.cpu c).proc) :
    Elders ((m.withTbl (m.tbl.set p f)).setCpu c k) :=
  h.slot [] hPid hParent hSettled hClaims

/-- A step of `c` that wakes processes and may mark one of them killed. -/
theorem Elders.wakes (h : Elders m) (hCpu : m'.cpu = Function.update m.cpu c k)
    (hInit : m'.tbl.initproc = m.tbl.initproc)
    (hProc : ∀ p, ∃ s j, Ptable.Wakes (m.state p) s ∧ m'.tbl.proc p = { m.tbl.proc p with state := s, killed := j })
    (hClaims : k.pc.claims = none) : Elders m' := by
  have hSame (p : Slot) : m'.pid p = m.pid p ∧ m'.parent p = m.parent p := by
    obtain ⟨s, j, -, hp⟩ := hProc p
    rw [pid, parent, hp]
    exact ⟨rfl, rfl⟩
  refine h.keeps hCpu hInit (fun p => (hSame p).1) (hSame _).2 (by simp [hClaims]) fun p q hpq => .inl ⟨?_, ?_⟩
  · obtain ⟨s, j, hw, hp⟩ := hProc p
    have hs := hpq.1
    rw [state, hp] at hs
    exact hs.of_wakes hw
  · rw [← (hSame p).2]
    exact hpq.2

theorem Elders.quiet (h : Elders m) (hq : m.Quiet c m') : Elders m' := by
  have hTbl (k : Cpu) (c' : C) (hCpu : m'.cpu = Function.update m.cpu c' k) (hTbl : m'.tbl = m.tbl)
      (hClaims : ∀ p, k.pc.claims = some p → (m.cpu c').pc.claims = some p ∧ k.proc = (m.cpu c').proc) : Elders m' := by
    refine h.keeps hCpu (by rw [hTbl]) (fun p => by rw [pid, hTbl, pid]) (by rw [parent, hTbl, parent]) hClaims
      fun p q hpq => .inl ?_
    rwa [IsChild, state, parent, hTbl] at hpq
  cases hq with
  | enable c' on => exact hTbl _ c' rfl rfl fun p hp => ⟨hp, rfl⟩
  | move k hProc _ hpc _ => exact hTbl k c rfl rfl fun p hp => ⟨hpc.keeps.2.2 p hp, hProc⟩
  | noPgdir p hpc hp => exact hTbl _ c rfl rfl (by simp [Pc.claims])
  | swtched i hpc => exact hTbl _ c rfl rfl (by simp [Pc.claims])
  | take lk pc b hpc hFree => exact hTbl _ c rfl rfl (by simp [hpc.keeps.2.2.2.2])
  | give lk pc b hpc =>
    refine hTbl (popcli { m.cpu c with intena := b } pc) c ?_ rfl fun p hp => ?_
    · simp [release, setCpu]
    · rw [popcli_proc]
      rcases popcli_pc { m.cpu c with intena := b } pc with hPc | ⟨e, hPc⟩
      · rw [hPc, hpc.keeps.2.2.2.2] at hp
        exact ⟨hp, rfl⟩
      · simp [hPc, Pc.claims] at hp

theorem Elders.exit (h : Elders m) (hLife : Life m) (hSmall : m.forks + 2 < 2 ^ 32) {p : Slot}
    (hRun : m.state p = .running) :
    Elders (((m.withTbl (m.tbl.exit p)).goto c (.sched .exit)).logs (m.exitEvents c p)) := by
  refine h.keeps (c := c) rfl (by simp) (fun q => ?_) ?_ (by simp [Pc.claims]) fun q r hqr => ?_
  · obtain ⟨s, -, hq, -⟩ := m.tbl.exit_proc p q
    simp only [pid, logs_tbl, goto_tbl, withTbl_tbl, hq]
  · obtain ⟨s, -, hq, -⟩ := m.tbl.exit_proc p m.tbl.initproc
    have hRoot : (m.tbl.proc m.tbl.initproc).parent = none := h.root
    simp [parent, hq, hRoot]
  · obtain ⟨s, hw, hq, -⟩ := m.tbl.exit_proc p q
    have hSettled : Settled (m.state q) := by
      have hs := hqr.1
      simp only [state, logs_tbl, goto_tbl, withTbl_tbl, hq] at hs
      rcases eq_or_ne q p with rfl | hne
      · exact .inl (.inr (.inl hRun))
      · rw [if_neg hne] at hs
        exact hs.of_wakes hw
    have hr := hqr.2
    simp only [parent, logs_tbl, goto_tbl, withTbl_tbl, hq] at hr
    by_cases hChild : (m.tbl.proc q).parent = some p
    · rw [if_pos hChild] at hr
      obtain rfl := Option.some.inj hr
      have hNe : q ≠ m.tbl.initproc := by
        rintro rfl
        exact Option.some_ne_none _ (hChild.symm.trans h.root)
      exact .inr (hLife.init_lt hSmall hNe hSettled.used)
    · rw [if_neg hChild] at hr
      exact .inl ⟨hSettled, hr⟩

/-- `wait` gives a slot back of which nobody is a child. -/
theorem Elders.reaped (h : Elders m) (hLife : Life m) (hc : Cpus m) {q : Slot} (e : Event C)
    (hpc : (m.cpu c).pc = .body .wait) (hz : m.state q = .zombie) :
    Elders (((m.withTbl (m.tbl.set q Ptable.reapSlot)).goto c (.leave .run)).logs [e]) := by
  set m' := ((m.withTbl (m.tbl.set q Ptable.reapSlot)).goto c (.leave .run)).logs [e]
  have hTbl : m'.tbl = m.tbl.set q Ptable.reapSlot := rfl
  have hOther (r : Slot) (hr : r ≠ q) : m'.tbl.proc r = m.tbl.proc r := by
    rw [hTbl, Ptable.set_proc_of_ne _ _ hr]
  have hInit : m.tbl.initproc ≠ q := by
    intro hEq
    rcases hLife.init.1 with hs | hs | hs <;> simp [hEq, hz] at hs
  constructor
  · show (m'.tbl.proc m.tbl.initproc).parent = none
    rw [hOther _ hInit]
    exact h.root
  · intro c' r t hr ht
    rcases eq_or_ne c' c with rfl | hne
    · simp [m', Pc.claims] at hr
    · have hCpu : m'.cpu c' = m.cpu c' := goto_cpu_of_ne _ _ _ hne
      rw [hCpu] at hr ht
      have hrq : r ≠ q := by
        rintro rfl
        simp [hc.embryo c' r hr] at hz
      have htq : t ≠ q := by
        rintro rfl
        rcases hc.current ht with hs | ⟨hl, -⟩
        · simp [hs] at hz
        · have hl' := hc.holds c (by rw [hpc]; rfl)
          exact hne (Option.some.inj (hl.symm.trans hl'))
      rw [pid, pid, hOther r hrq, hOther t htq]
      exact h.forking c' r t hr ht
  · intro r t hrt
    obtain ⟨hs, ht⟩ := hrt
    have hrq : r ≠ q := by
      rintro rfl
      rw [state, hTbl, Ptable.set_proc] at hs
      exact hs.used rfl
    rw [state, hOther r hrq] at hs
    rw [parent, hOther r hrq] at ht
    have hri : r ≠ m.tbl.initproc := by
      rintro rfl
      exact Option.some_ne_none _ (ht.symm.trans h.root)
    have htq : t ≠ q := by
      rintro rfl
      obtain ⟨t', ht', -, ha, -⟩ := hLife.child r hri hs
      obtain rfl := Option.some.inj (ht'.symm.trans ht)
      rcases ha with ha | ha | ha <;> simp [hz] at ha
    rw [pid, pid, hOther r hrq, hOther t htq]
    exact h.child r t ⟨hs, ht⟩

theorem Elders.allocproc (h : Elders m) (hLife : Life m) (hc : Cpus m) (hSmall : m.forks + 2 < 2 ^ 32) {p : Slot}
    (e : Event C) (hpc : (m.cpu c).pc = .body .allocproc) (hp : m.state p = .unused) :
    Elders (((m.withTbl { m.tbl.set p fun q => { q with state := .embryo, pid := m.tbl.nextpid } with
      nextpid := m.tbl.nextpid + 1 }).goto c (.leave (.kstack p))).logs [e]) := by
  set m' := ((m.withTbl { m.tbl.set p fun q => { q with state := .embryo, pid := m.tbl.nextpid } with
    nextpid := m.tbl.nextpid + 1 }).goto c (.leave (.kstack p))).logs [e]
  have hSelf : m'.tbl.proc p = { m.tbl.proc p with state := .embryo, pid := m.tbl.nextpid } :=
    Ptable.set_proc m.tbl p fun q => { q with state := .embryo, pid := m.tbl.nextpid }
  have hOther (r : Slot) (hr : r ≠ p) : m'.tbl.proc r = m.tbl.proc r :=
    Ptable.set_proc_of_ne m.tbl (fun q => { q with state := .embryo, pid := m.tbl.nextpid }) hr
  have hInit : m.tbl.initproc ≠ p := by
    intro hEq
    rcases hLife.init.1 with hs | hs | hs <;> simp [hEq, hp] at hs
  constructor
  · show (m'.tbl.proc m.tbl.initproc).parent = none
    rw [hOther _ hInit]
    exact h.root
  · intro c' r t hr ht
    -- a current process is in use
    have htp : t ≠ p := by
      rintro rfl
      have ht' : (m.cpu c').proc = some t := by
        rcases eq_or_ne c' c with rfl | hne
        · simpa [m'] using ht
        · rwa [show m'.cpu c' = m.cpu c' from goto_cpu_of_ne _ _ _ hne] at ht
      rcases hc.current ht' with hs | ⟨-, hs | hs | hs⟩ <;> simp [hp] at hs
    rcases eq_or_ne c' c with rfl | hne
    · have hpr : p = r := by simpa [m', Pc.claims] using hr
      have ht' : (m.cpu c').proc = some t := by simpa [m'] using ht
      have hRun := hc.running (by rw [hpc]; rfl) ht'
      rw [pid, pid, hOther t htp, ← hpr, hSelf]
      show m.pid t < m.tbl.nextpid
      rw [hLife.nextpid]
      exact (hLife.numbered t (by simp [hRun])).lt_next hSmall
    · rw [show m'.cpu c' = m.cpu c' from goto_cpu_of_ne _ _ _ hne] at hr ht
      have hrp : r ≠ p := by
        rintro rfl
        simp [hc.embryo c' r hr] at hp
      rw [pid, pid, hOther r hrp, hOther t htp]
      exact h.forking c' r t hr ht
  · intro r t hrt
    obtain ⟨hs, ht⟩ := hrt
    have hrp : r ≠ p := by
      rintro rfl
      rw [state, hSelf] at hs
      exact hs.ne_embryo rfl
    rw [state, hOther r hrp] at hs
    rw [parent, hOther r hrp] at ht
    have hri : r ≠ m.tbl.initproc := by
      rintro rfl
      exact Option.some_ne_none _ (ht.symm.trans h.root)
    have htp : t ≠ p := by
      rintro rfl
      obtain ⟨t', ht', -, ha, -⟩ := hLife.child r hri hs
      obtain rfl := Option.some.inj (ht'.symm.trans ht)
      rcases ha with ha | ha | ha <;> simp [hp] at ha
    rw [pid, pid, hOther r hrp, hOther t htp]
    exact h.child r t ⟨hs, ht⟩

theorem Elders.step (h : Elders m) (hLife : Life m) (hc : Cpus m) (hs : m.Step c m') (hSmall : m.forks + 2 < 2 ^ 32) :
    Elders m' := by
  cases hs with
  | quiet m' hq => exact h.quiet hq
  | switch p hpc hp =>
    exact h.slot [_] rfl rfl (fun _ => .inl (.inl (.inl hp))) (by simp [Pc.claims])
  | sched p k hpc hProc hncli => exact h.write rfl rfl .inl (by simp [Pc.claims])
  | sleepBack p lk b hpc hProc => exact h.write rfl rfl .inl (by simp [Pc.claims])
  | waitBack p b hpc hProc => exact h.write rfl rfl .inl (by simp [Pc.claims])
  | wakeup chan irq hpc =>
    refine h.wakes (c := c) rfl rfl (fun p => ?_) ?_
    · obtain ⟨s, hs, he, -⟩ := m.tbl.wakeup1_proc (some chan) p
      exact ⟨s, (m.tbl.proc p).killed, hs, he⟩
    · cases irq <;> rfl
  | kill pid hpc => exact h.wakes (c := c) rfl (m.tbl.kill_initproc pid) (m.tbl.kill_proc pid) rfl
  | allocproc p hpc hp => exact h.allocproc hLife hc hSmall _ hpc hp
  | yield p hpc hProc =>
    have hRun := hc.running (by rw [hpc]; rfl) hProc
    exact h.write rfl rfl (fun _ => .inl (.inl (.inr (.inl hRun)))) (by simp [Pc.claims])
  | exit p hpc hProc => exact h.exit hLife hSmall (hc.running (by rw [hpc]; rfl) hProc)
  | reaped p q hpc hProc hq hz => exact h.reaped hLife hc _ hpc hz
  | waitSleeps p hpc hProc hNone =>
    have hRun := hc.running (by rw [hpc]; rfl) hProc
    exact h.slot [_] rfl rfl (fun _ => .inl (.inl (.inr (.inl hRun)))) (by simp [Pc.claims])
  | sleep p chan lk hpc hProc =>
    have hRun := hc.running (by rw [hpc]; rfl) hProc
    exact h.slot [_] rfl rfl (fun _ => .inl (.inl (.inr (.inl hRun)))) (by simp [Pc.claims])
  | noKstack p hpc => exact h.write rfl rfl (by simp [Settled, Active]) (by simp [Pc.claims])
  | kstack p a hpc => exact h.write rfl rfl .inl (by simp [hpc, Pc.claims])
  | noCopy p hpc => exact h.write rfl rfl (by simp [Settled, Active]) (by simp [Pc.claims])
  | copy p a hpc => exact h.write rfl rfl .inl (by simp [hpc, Pc.claims])
  | parent p curr hpc hProc =>
    -- the slot is still an embryo, so that nobody sees its parent
    have hEmbryo : m.state p = .embryo := hc.embryo c p (by rw [hpc]; rfl)
    have hInit : m.tbl.initproc ≠ p := by
      intro hEq
      rcases hLife.init.1 with hs | hs | hs <;> simp [hEq, hEmbryo] at hs
    have hProcs (q : Slot) : (m.tbl.setParent p curr).proc q = if q = p then { m.tbl.proc q with parent := some curr }
        else m.tbl.proc q := Ptable.set_proc_eq ..
    refine h.keeps (c := c) rfl rfl (fun q => ?_) ?_ (by simp [hpc, Pc.claims]) fun q r hqr => .inl ?_
    · simp only [pid, goto_tbl, withTbl_tbl, hProcs]
      split <;> rfl
    · simp only [Machine.parent, goto_tbl, withTbl_tbl, hProcs, if_neg hInit]
    · rcases eq_or_ne q p with rfl | hne
      · have hs := hqr.1
        simp only [state, goto_tbl, withTbl_tbl, hProcs, if_pos] at hs
        exact absurd hEmbryo hs.ne_embryo
      · simpa only [IsChild, state, Machine.parent, goto_tbl, withTbl_tbl, hProcs, if_neg hne] using hqr
  | ready p hpc =>
    refine h.write rfl rfl (fun _ => .inr fun q hq => ?_) (by simp [Pc.claims])
    exact h.forking c p q (by rw [hpc]; rfl) ((hLife.ready c p hpc).symm.trans hq)
  | forked p pid hpc hProc =>
    exact h.keeps (c := c) rfl rfl (fun _ => rfl) rfl (by simp [Pc.claims]) fun _ _ => .inl

end Step

theorem Elders.boot (kstack pgdir : Nat) (enabled : C → Bool) : Elders (boot kstack pgdir enabled) where
  root := rfl
  forking c p q h := by cases h
  child p q h := by
    have hNone : (Machine.boot kstack pgdir enabled).parent p = none := by
      simp only [parent, Machine.boot, Ptable.userinit, Function.update_apply]
      split <;> rfl
    exact absurd (h.2.symm.trans hNone) (Option.some_ne_none q)

variable [DecidableEq C]

theorem Elders.exec {as : List (C × Act C)} {kstack pgdir : Nat} {enabled : C → Bool}
    (hExec : (Machine.boot kstack pgdir enabled).exec as = some m) (hForks : m.forks < 2 ^ 31) : Elders m := by
  have hStep (m : Machine C) (c : C) (a : Act C) (m' : Machine C) (hs : m.step c a = some m')
      (hm : Cpus m ∧ (m.forks < 2 ^ 31 → Life m ∧ Elders m)) : Cpus m' ∧ (m'.forks < 2 ^ 31 → Life m' ∧ Elders m') := by
    have hs := step_cases hs
    have hle := hs.forks_le
    refine ⟨hm.1.step hs, fun hSmall => ?_⟩
    obtain ⟨hLife, hElders⟩ := hm.2 (by omega)
    exact ⟨hLife.step hm.1 hs (by omega), hElders.step hLife hm.1 hs (by omega)⟩
  have hm := exec_keeps (P := fun m => Cpus m ∧ (m.forks < 2 ^ 31 → Life m ∧ Elders m)) hStep hExec
    ⟨Cpus.boot kstack pgdir enabled, fun _ => ⟨Life.boot kstack pgdir enabled, Elders.boot kstack pgdir enabled⟩⟩
  exact (hm.2 hForks).2

/-- In every run with fewer than `2 ^ 31` forks the processes are a tree: `init` has no parent, an ancestor
has a smaller pid than its descendants, and every process past `fork` descends from `init` by processes that
have not exited. -/
theorem process_tree (kstack pgdir : Nat) (enabled : C → Bool) (as : List (C × Act C)) (m : Machine C)
    (hExec : (Machine.boot kstack pgdir enabled).exec as = some m) (hForks : m.forks < 2 ^ 31) :
    m.parent m.tbl.initproc = none ∧
    (∀ p q, Relation.TransGen m.IsChild p q → m.pid q < m.pid p) ∧
    ∀ p, Settled (m.state p) →
      Relation.ReflTransGen (fun p q => m.IsChild p q ∧ Active (m.state q)) p m.tbl.initproc := by
  have hLife := Life.exec hExec hForks
  have hElders := Elders.exec hExec hForks
  refine ⟨hElders.root, fun p q hpq => ?_, fun p hp => ?_⟩
  · induction hpq with
    | single hpq => exact hElders.child _ _ hpq
    | tail _ hqr ih => exact BitVec.lt_trans (hElders.child _ _ hqr) ih
  · -- by induction on the pid
    generalize hn : (m.pid p).toNat = n
    induction n using Nat.strong_induction_on generalizing p with
    | _ n ih =>
      rcases eq_or_ne p m.tbl.initproc with rfl | hne
      · exact .refl
      · obtain ⟨q, hq, -, ha, -⟩ := hLife.child p hne hp
        have hLt : (m.pid q).toNat < (m.pid p).toNat := hElders.child p q ⟨hp, hq⟩
        exact .head ⟨⟨hp, hq⟩, ha⟩ (ih _ (hn ▸ hLt) q (.inl ha) rfl)

def forkOnce : List (Fin 4 × Act (Fin 4)) :=
  List.flatten [nexts 0 3, [(0, .invoke .allocproc)], nexts 0 3, [(0, .page 5), (0, .page 7)], nexts 0 3]

theorem process_tree_forked : ∃ m : Machine (Fin 4),
    (Machine.boot 1 1 fun _ => true).exec forkOnce = some m ∧ m.forks < 2 ^ 31 ∧ m.state 1 = .runnable ∧
    Relation.ReflTransGen (fun p q => m.IsChild p q ∧ Active (m.state q)) 1 m.tbl.initproc := by
  have hState : ((Machine.boot 1 1 fun _ => true).exec forkOnce).map (fun m => m.state 1) = some .runnable := by
    decide +kernel
  have hSmall : ((Machine.boot 1 1 fun _ => true).exec forkOnce).map (fun m => decide (m.forks < 2 ^ 31)) =
      some true := by decide +kernel
  obtain ⟨m, hm, hs⟩ := Option.map_eq_some_iff.mp hState
  rw [hm] at hSmall
  have hForks : m.forks < 2 ^ 31 := of_decide_eq_true (Option.some.inj hSmall)
  exact ⟨m, hm, hForks, hs, (process_tree 1 1 (fun _ => true) forkOnce m hm hForks).2.2 1 (.inl (.inl hs))⟩

end Machine

end Xv6Rpi.Sched
