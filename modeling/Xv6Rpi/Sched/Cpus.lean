import Xv6Rpi.Sched.Step

/-! # A process runs on at most one processor

Which processor holds `ptable.lock`, whether it has a current process, and in which state
that process is, can be read off the place where its code is. `swtch` hands the lock from a
process to the scheduler and back, so the places on both sides of it hold the lock.
-/

namespace Xv6Rpi.Sched

def Pc.holding : Pc → Bool
  | .scan _ | .swtched _ | .body _ | .sleep _ _ | .sched _ | .back _ | .leave _ => true
  | _ => false

/-- Whose code a processor executes: the scheduler's or a handler's, that of its current
process, that of a process which has given up the processor, or none after a panic. -/
inductive Mode where
  | sched | proc | parked | dead
  deriving DecidableEq

def Call.mode : Call → Mode
  | .wakeup _ true => .sched
  | _ => .proc

def Pc.mode : Pc → Mode
  | .idle | .scan _ | .handler | .leave .handler => .sched
  | .call f | .body f => f.mode
  | .swtched _ | .sched _ => .parked
  | .panic _ => .dead
  | _ => .proc

theorem Call.mode_cases (f : Call) : f.mode = .sched ∨ f.mode = .proc := by
  unfold Call.mode
  split <;> simp

theorem Call.mode_of_ne {f : Call} (hf : ∀ chan, f ≠ .wakeup chan true) : f.mode = .proc := by
  unfold Call.mode
  split
  · exact absurd rfl (hf _)
  · rfl

theorem Pc.holding_of_parked {pc : Pc} (h : pc.mode = .parked) : pc.holding = true := by
  cases pc with
  | call f => rcases f.mode_cases with hf | hf <;> simp [Pc.mode, hf] at h
  | swtched i => rfl
  | sched k => rfl
  | body f => rfl
  | leave n => rfl
  | _ => cases h

def Pc.claims : Pc → Option Slot
  | .leave (.kstack p) | .kstack p | .copy p | .parent p | .ready p => some p
  | _ => none

def Left (s : ProcState) : Prop := s = .sleeping ∨ s = .runnable ∨ s = .zombie

namespace Machine

variable {C : Type} [DecidableEq C]

def state (m : Machine C) (p : Slot) : ProcState := (m.tbl.proc p).state

def Fits (m : Machine C) (c : C) : Mode → Prop
  | .sched => (m.cpu c).proc = none
  | .proc => ∃ p, (m.cpu c).proc = some p ∧ m.state p = .running
  | .parked => ∃ p, (m.cpu c).proc = some p ∧ Left (m.state p)
  | .dead => ∀ p, (m.cpu c).proc = some p →
      m.state p = .running ∨ m.locks .ptable = some c ∧ Left (m.state p)

/-- Processors, their current processes and `ptable.lock` go together. -/
structure Cpus (m : Machine C) : Prop where
  holds : ∀ c, (m.cpu c).pc.holding = true → m.locks .ptable = some c
  held : ∀ c, m.locks .ptable = some c → (m.cpu c).pc.holding = true ∨ (m.cpu c).pc.mode = .dead
  fits : ∀ c, m.Fits c (m.cpu c).pc.mode
  embryo : ∀ c p, (m.cpu c).pc.claims = some p → m.state p = .embryo
  procUnique : ∀ c c' p, (m.cpu c).proc = some p → (m.cpu c').proc = some p → c = c'
  claimUnique : ∀ c c' p, (m.cpu c).pc.claims = some p → (m.cpu c').pc.claims = some p → c = c'
  onCpu : ∀ p, m.state p = .running → ∃ c, (m.cpu c).proc = some p

variable {m m' : Machine C} {c : C}

omit [DecidableEq C] in
/-- The current process of a processor runs, or is leaving it with the lock held. -/
theorem Cpus.current (h : Cpus m) {p : Slot} (hp : (m.cpu c).proc = some p) :
    m.state p = .running ∨ m.locks .ptable = some c ∧ Left (m.state p) := by
  have hFits := h.fits c
  cases hMode : (m.cpu c).pc.mode with
  | sched =>
    rw [hMode] at hFits
    simp [Fits, hp] at hFits
  | proc =>
    rw [hMode] at hFits
    obtain ⟨q, hq, hRun⟩ := hFits
    obtain rfl : p = q := Option.some.inj (hp.symm.trans hq)
    exact .inl hRun
  | parked =>
    rw [hMode] at hFits
    obtain ⟨q, hq, hLeft⟩ := hFits
    obtain rfl : p = q := Option.some.inj (hp.symm.trans hq)
    exact .inr ⟨h.holds c (Pc.holding_of_parked hMode), hLeft⟩
  | dead =>
    rw [hMode] at hFits
    exact hFits p hp

omit [DecidableEq C] in
/-- A step of `c` that changes the state only of its own slots and, with the lock held, of
slots that neither run nor are being filled in. -/
theorem Cpus.frame (h : Cpus m)
    (hOther : ∀ c', c' ≠ c → (m'.cpu c').pc = (m.cpu c').pc ∧ (m'.cpu c').proc = (m.cpu c').proc)
    (hLock : m'.locks .ptable = m.locks .ptable ∨ m.locks .ptable = none ∧ m'.locks .ptable = some c ∨
      m.locks .ptable = some c ∧ m'.locks .ptable = none)
    (hChange : ∀ p, m'.state p ≠ m.state p → (m.cpu c).proc = some p ∨ (m.cpu c).pc.claims = some p ∨
      m.locks .ptable = some c ∧ m.state p ≠ .running ∧ m.state p ≠ .embryo)
    (hHolds : (m'.cpu c).pc.holding = true → m'.locks .ptable = some c)
    (hHeld : m'.locks .ptable = some c → (m'.cpu c).pc.holding = true ∨ (m'.cpu c).pc.mode = .dead)
    (hFits : m'.Fits c (m'.cpu c).pc.mode)
    (hClaims : ∀ p, (m'.cpu c).pc.claims = some p →
      m'.state p = .embryo ∧ ((m.cpu c).pc.claims = some p ∨ m.state p = .unused))
    (hProc : ∀ p, (m'.cpu c).proc = some p →
      (m.cpu c).proc = some p ∨ m.locks .ptable = some c ∧ m.state p = .runnable)
    (hRun : ∀ p, m'.state p = .running →
      (m'.cpu c).proc = some p ∨ m.state p = .running ∧ (m.cpu c).proc ≠ some p) : Cpus m' := by
  have hLock' (c' : C) (hc : c' ≠ c) : m'.locks .ptable = some c' ↔ m.locks .ptable = some c' := by
    rcases hLock with hl | ⟨hl, hl'⟩ | ⟨hl, hl'⟩
    · rw [hl]
    · simp [hl, hl', Ne.symm hc]
    · simp [hl, hl', Ne.symm hc]
  -- what another processor has as its current process or is filling in does not change
  have hSame (c' : C) (hc : c' ≠ c) (p : Slot)
      (hp : (m.cpu c').proc = some p ∨ (m.cpu c').pc.claims = some p) : m'.state p = m.state p := by
    by_contra hne
    have hState : m.state p = .running ∨ m.state p = .embryo ∨ m.locks .ptable = some c' ∧ Left (m.state p) := by
      rcases hp with hp | hp
      · rcases h.current hp with hr | hl
        · exact .inl hr
        · exact .inr (.inr hl)
      · exact .inr (.inl (h.embryo c' p hp))
    rcases hChange p hne with hc' | hc' | ⟨hl, hr, he⟩
    · rcases hp with hp | hp
      · exact hc (h.procUnique c' c p hp hc')
      · have he := h.embryo c' p hp
        rcases h.current hc' with hr | ⟨-, hr | hr | hr⟩ <;> simp [he] at hr
    · rcases hp with hp | hp
      · have he := h.embryo c p hc'
        rcases h.current hp with hr | ⟨-, hr | hr | hr⟩ <;> simp [he] at hr
      · exact hc (h.claimUnique c' c p hp hc')
    · rcases hState with hs | hs | ⟨hl', -⟩
      · exact hr hs
      · exact he hs
      · exact hc (Option.some.inj (hl'.symm.trans hl))
  have hNew (c' : C) (hc : c' ≠ c) (p : Slot) (hp : (m'.cpu c).proc = some p)
      (hp' : (m.cpu c').proc = some p) : False := by
    rcases hProc p hp with hpc | ⟨hl, hs⟩
    · exact hc (h.procUnique c' c p hp' hpc)
    · rcases h.current hp' with hr | ⟨hl', -⟩
      · simp [hs] at hr
      · exact hc (Option.some.inj (hl'.symm.trans hl))
  have hNewClaim (c' : C) (hc : c' ≠ c) (p : Slot) (hp : (m'.cpu c).pc.claims = some p)
      (hp' : (m.cpu c').pc.claims = some p) : False := by
    rcases (hClaims p hp).2 with hpc | hs
    · exact hc (h.claimUnique c' c p hp' hpc)
    · simp [h.embryo c' p hp'] at hs
  refine ⟨fun c' => ?_, fun c' => ?_, fun c' => ?_, fun c' p => ?_, fun c₁ c₂ p => ?_, fun c₁ c₂ p => ?_,
    fun p hp => ?_⟩
  · rcases eq_or_ne c' c with rfl | hc
    · exact hHolds
    · rw [(hOther c' hc).1, hLock' c' hc]
      exact h.holds c'
  · rcases eq_or_ne c' c with rfl | hc
    · exact hHeld
    · rw [(hOther c' hc).1, hLock' c' hc]
      exact h.held c'
  · rcases eq_or_ne c' c with rfl | hc
    · exact hFits
    · have hFits' := h.fits c'
      have hSt (p : Slot) (hp : (m.cpu c').proc = some p) : m'.state p = m.state p := hSame c' hc p (.inl hp)
      rw [(hOther c' hc).1]
      revert hFits'
      cases (m.cpu c').pc.mode with
      | sched => exact fun hf => (hOther c' hc).2.trans hf
      | proc =>
        rintro ⟨p, hp, hs⟩
        exact ⟨p, (hOther c' hc).2.trans hp, (hSt p hp).trans hs⟩
      | parked =>
        rintro ⟨p, hp, hs⟩
        exact ⟨p, (hOther c' hc).2.trans hp, by rwa [hSt p hp]⟩
      | dead =>
        intro hf p hp
        have hp' := (hOther c' hc).2.symm.trans hp
        rw [hSt p hp', hLock' c' hc]
        exact hf p hp'
  · rcases eq_or_ne c' c with rfl | hc
    · exact fun hp => (hClaims p hp).1
    · rw [(hOther c' hc).1]
      intro hp
      exact (hSame c' hc p (.inr hp)).trans (h.embryo c' p hp)
  · rcases eq_or_ne c₁ c with rfl | hc₁
    · rcases eq_or_ne c₂ c₁ with rfl | hc₂
      · exact fun _ _ => rfl
      · rw [(hOther c₂ hc₂).2]
        exact fun hp hp' => (hNew c₂ hc₂ p hp hp').elim
    · rcases eq_or_ne c₂ c with rfl | hc₂
      · rw [(hOther c₁ hc₁).2]
        exact fun hp' hp => (hNew c₁ hc₁ p hp hp').elim
      · rw [(hOther c₁ hc₁).2, (hOther c₂ hc₂).2]
        exact h.procUnique c₁ c₂ p
  · rcases eq_or_ne c₁ c with rfl | hc₁
    · rcases eq_or_ne c₂ c₁ with rfl | hc₂
      · exact fun _ _ => rfl
      · rw [(hOther c₂ hc₂).1]
        exact fun hp hp' => (hNewClaim c₂ hc₂ p hp hp').elim
    · rcases eq_or_ne c₂ c with rfl | hc₂
      · rw [(hOther c₁ hc₁).1]
        exact fun hp' hp => (hNewClaim c₁ hc₁ p hp hp').elim
      · rw [(hOther c₁ hc₁).1, (hOther c₂ hc₂).1]
        exact h.claimUnique c₁ c₂ p
  · rcases hRun p hp with hc | ⟨hr, hne⟩
    · exact ⟨c, hc⟩
    · obtain ⟨c', hc'⟩ := h.onCpu p hr
      have hcc : c' ≠ c := fun he => hne (he ▸ hc')
      exact ⟨c', (hOther c' hcc).2.trans hc'⟩

omit [DecidableEq C] in
/-- A step of `c` that keeps the lock and the current process. -/
theorem Cpus.update (h : Cpus m)
    (hOther : ∀ c', c' ≠ c → (m'.cpu c').pc = (m.cpu c').pc ∧ (m'.cpu c').proc = (m.cpu c').proc)
    (hLock : m'.locks .ptable = m.locks .ptable) (hProc : (m'.cpu c).proc = (m.cpu c).proc)
    (hHolding : (m'.cpu c).pc.holding = (m.cpu c).pc.holding ∨ (m'.cpu c).pc.mode = .dead)
    (hAlive : (m.cpu c).pc.mode = .dead → (m'.cpu c).pc.mode = .dead)
    (hChange : ∀ p, m'.state p ≠ m.state p → (m.cpu c).proc = some p ∨ (m.cpu c).pc.claims = some p ∨
      m.locks .ptable = some c ∧ m.state p ≠ .running ∧ m.state p ≠ .embryo)
    (hFits : m'.Fits c (m'.cpu c).pc.mode)
    (hClaims : ∀ p, (m'.cpu c).pc.claims = some p →
      m'.state p = .embryo ∧ ((m.cpu c).pc.claims = some p ∨ m.state p = .unused))
    (hRun : ∀ p, m'.state p = .running → m.state p = .running) : Cpus m' := by
  refine h.frame hOther (.inl hLock) hChange ?_ ?_ hFits hClaims (fun p hp => .inl (hProc ▸ hp)) ?_
  · intro hh
    rcases hHolding with he | hd
    · rw [hLock]
      exact h.holds c (he ▸ hh)
    · generalize (m'.cpu c).pc = pc at hd hh
      cases pc with
      | panic e => cases hh
      | call f => rcases f.mode_cases with hf | hf <;> simp [Pc.mode, hf] at hd
      | body f => rcases f.mode_cases with hf | hf <;> simp [Pc.mode, hf] at hd
      | leave n => cases n <;> cases hd
      | _ => cases hd
  · intro hl
    rw [hLock] at hl
    rcases hHolding with he | hd
    · rcases h.held c hl with hh | hd
      · exact .inl (he.trans hh)
      · exact .inr (hAlive hd)
    · exact .inr hd
  · intro p hp
    by_cases hc : (m.cpu c).proc = some p
    · exact .inl (hProc.trans hc)
    · exact .inr ⟨hRun p hp, hc⟩

omit [DecidableEq C] in
theorem Fits.congr {md : Mode} (h : m.Fits c md) (hmd : md ≠ .dead) (hState : ∀ p, m'.state p = m.state p)
    (hProc : (m'.cpu c).proc = (m.cpu c).proc) : m'.Fits c md := by
  cases md with
  | sched => exact hProc.trans h
  | proc =>
    obtain ⟨p, hp, hs⟩ := h
    exact ⟨p, hProc.trans hp, (hState p).trans hs⟩
  | parked =>
    obtain ⟨p, hp, hs⟩ := h
    exact ⟨p, hProc.trans hp, by rwa [hState p]⟩
  | dead => exact absurd rfl hmd

omit [DecidableEq C] in
/-- A step of `c` that changes no state and keeps the current process. -/
theorem Cpus.still (h : Cpus m)
    (hOther : ∀ c', c' ≠ c → (m'.cpu c').pc = (m.cpu c').pc ∧ (m'.cpu c').proc = (m.cpu c').proc)
    (hLock : m'.locks .ptable = m.locks .ptable ∨ m.locks .ptable = none ∧ m'.locks .ptable = some c ∨
      m.locks .ptable = some c ∧ m'.locks .ptable = none)
    (hState : ∀ p, m'.state p = m.state p) (hProc : (m'.cpu c).proc = (m.cpu c).proc)
    (hHolds : (m'.cpu c).pc.holding = true → m'.locks .ptable = some c)
    (hHeld : m'.locks .ptable = some c → (m'.cpu c).pc.holding = true ∨ (m'.cpu c).pc.mode = .dead)
    (hFits : m'.Fits c (m'.cpu c).pc.mode)
    (hClaims : ∀ p, (m'.cpu c).pc.claims = some p → (m.cpu c).pc.claims = some p) : Cpus m' := by
  refine h.frame hOther hLock (fun p hp => absurd (hState p) hp) hHolds hHeld hFits
    (fun p hp => ⟨(hState p).trans (h.embryo c p (hClaims p hp)), .inl (hClaims p hp)⟩)
    (fun p hp => .inl (hProc.symm.trans hp)) (fun p hp => ?_)
  by_cases hc : (m.cpu c).proc = some p
  · exact .inl (hProc.trans hc)
  · exact .inr ⟨(hState p).symm.trans hp, hc⟩

end Machine

/-! ## Quiet steps -/

theorem Pc.Moves.keeps {pc pc' : Pc} (h : pc.Moves pc') :
    (pc'.holding = pc.holding ∨ pc'.mode = .dead ∧ pc'.holding = false) ∧
    (pc'.mode = pc.mode ∨ pc'.mode = .dead) ∧ ∀ p, pc'.claims = some p → pc.claims = some p := by
  cases h with
  | stay => simp
  | runCall f hf => exact ⟨.inl rfl, .inl (Call.mode_of_ne hf), by simp [Pc.claims]⟩
  | _ => simp [Pc.holding, Pc.mode, Pc.claims, Call.mode]

theorem Pc.Takes.keeps {pc pc' : Pc} {lk : Lock} (h : pc.Takes lk pc') :
    pc.holding = false ∧ pc'.holding = decide (lk = .ptable) ∧ pc'.mode = pc.mode ∧ pc.mode ≠ .dead ∧
    pc'.claims = none := by
  cases h with
  | call f => rcases f.mode_cases with hf | hf <;> simp [Pc.holding, Pc.mode, Pc.claims, hf]
  | _ => simp [Pc.holding, Pc.mode, Pc.claims]

theorem Pc.Gives.keeps {pc pc' : Pc} {lk : Lock} (h : pc.Gives lk pc') :
    pc'.holding = (pc.holding && decide (lk ≠ .ptable)) ∧ (lk = .ptable → pc.holding = true) ∧
    pc'.mode = pc.mode ∧ (pc.mode = .sched ∨ pc.mode = .proc) ∧ pc'.claims = pc.claims := by
  cases h with
  | leave n => cases n <;> simp [Pc.holding, Pc.mode, Pc.claims, Next.pc]
  | _ => simp [Pc.holding, Pc.mode, Pc.claims, Call.mode]

namespace Machine

variable {C : Type} [DecidableEq C] {m m' : Machine C} {c : C}

theorem Cpus.move (h : Cpus m) {k : Cpu} (hProc : k.proc = (m.cpu c).proc)
    (hpc : (m.cpu c).pc.Moves k.pc) : Cpus (m.setCpu c k) := by
  obtain ⟨hHold, hMode, hClaims⟩ := hpc.keeps
  refine h.still (c := c) (fun c' hc => by simp [setCpu_cpu_of_ne _ _ _ hc]) (.inl rfl) (fun p => rfl)
    (by simpa using hProc) ?_ ?_ ?_ (by simpa using hClaims)
  · intro hh
    rw [setCpu_cpu] at hh
    rcases hHold with he | ⟨-, hf⟩
    · exact h.holds c (he ▸ hh)
    · simp [hf] at hh
  · intro hl
    rw [setCpu_cpu]
    rcases hHold with he | ⟨hd, -⟩
    · rcases h.held c hl with hh | hd
      · exact .inl (he.trans hh)
      · rcases hMode with he | hd'
        · exact .inr (he.trans hd)
        · exact .inr hd'
    · exact .inr hd
  · rw [setCpu_cpu]
    have hDead : (m.setCpu c k).Fits c .dead := by
      intro p hp
      rw [setCpu_cpu] at hp
      exact h.current (hProc.symm.trans hp)
    rcases hMode with he | hd
    · rcases eq_or_ne k.pc.mode .dead with hd | hd
      · exact hd ▸ hDead
      · have hFits := h.fits c
        rw [← he] at hFits
        exact hFits.congr hd (fun p => rfl) (by simpa using hProc)
    · exact hd ▸ hDead

theorem Cpus.take (h : Cpus m) {lk : Lock} {pc : Pc} {b : Bool} (hpc : (m.cpu c).pc.Takes lk pc)
    (hFree : m.locks lk = none) :
    Cpus (({ m with locks := Function.update m.locks lk (some c) }.setCpu c
      { pushcli { m.cpu c with irq := b } with pc := pc }).logs [.acquired c (m.cpu c).proc lk]) := by
  obtain ⟨hNot, hHold, hMode, hAlive, hClaims⟩ := hpc.keeps
  refine h.still (c := c) (fun c' hc => by simp [setCpu_cpu_of_ne _ _ _ hc]) ?_ (fun p => rfl) (by simp)
    ?_ ?_ ?_ (by simp [hClaims])
  · rcases eq_or_ne lk .ptable with rfl | hlk
    · exact .inr (.inl ⟨hFree, by simp⟩)
    · exact .inl (by simp [Function.update_of_ne hlk.symm])
  · intro hh
    have hlk : lk = .ptable := by simpa [hHold] using hh
    simp [hlk]
  · intro hl
    rcases eq_or_ne lk .ptable with rfl | hlk
    · exact .inl (by simp [hHold])
    · have hl' : m.locks .ptable = some c := by
        simpa [Function.update_of_ne hlk.symm] using hl
      rcases h.held c hl' with hh | hd
      · simp [hNot] at hh
      · exact absurd hd hAlive
  · simp only [logs_cpu, setCpu_cpu, hMode]
    exact (h.fits c).congr hAlive (fun p => rfl) (by simp)

theorem Cpus.give (h : Cpus m) {lk : Lock} {pc : Pc} {b : Bool} (hpc : (m.cpu c).pc.Gives lk pc) :
    Cpus ((m.setCpu c { m.cpu c with intena := b }).release c lk pc) := by
  obtain ⟨hHold, hTable, hMode, hAlive, hClaims⟩ := hpc.keeps
  have hProc : (((m.setCpu c { m.cpu c with intena := b }).release c lk pc).cpu c).proc = (m.cpu c).proc := by
    simp
  have hpc' : (((m.setCpu c { m.cpu c with intena := b }).release c lk pc).cpu c).pc = pc ∨
      ∃ e, (((m.setCpu c { m.cpu c with intena := b }).release c lk pc).cpu c).pc = .panic e := by
    rw [release_cpu]
    exact popcli_pc _ _
  have hLock : lk ≠ .ptable →
      ((m.setCpu c { m.cpu c with intena := b }).release c lk pc).locks .ptable = m.locks .ptable := by
    intro hlk
    simp [Function.update_of_ne hlk.symm]
  have hFree : lk = .ptable →
      ((m.setCpu c { m.cpu c with intena := b }).release c lk pc).locks .ptable = none := by
    rintro rfl
    simp
  have hFits := h.fits c
  refine h.still (c := c) (fun c' hc => by simp [release_cpu_of_ne _ _ _ _ hc, setCpu_cpu_of_ne _ _ _ hc])
    ?_ (fun p => rfl) hProc ?_ ?_ ?_ ?_
  · rcases eq_or_ne lk .ptable with hlk | hlk
    · exact .inr (.inr ⟨h.holds c (hTable hlk), hFree hlk⟩)
    · exact .inl (hLock hlk)
  · intro hh
    rcases hpc' with he | ⟨e, he⟩
    · rw [he, hHold, Bool.and_eq_true, decide_eq_true_eq] at hh
      rw [hLock hh.2]
      exact h.holds c hh.1
    · rw [he] at hh
      cases hh
  · intro hl
    rcases eq_or_ne lk .ptable with hlk | hlk
    · simp [hFree hlk] at hl
    · rcases hpc' with he | ⟨e, he⟩
      · rw [hLock hlk] at hl
        rcases h.held c hl with hh | hd
        · rw [he, hHold, hh, Bool.true_and, decide_eq_true_eq]
          exact .inl hlk
        · rcases hAlive with ha | ha <;> simp [hd] at ha
      · exact .inr (by rw [he]; rfl)
  · rcases hpc' with he | ⟨e, he⟩
    · rw [he, hMode]
      refine hFits.congr ?_ (fun p => rfl) hProc
      rcases hAlive with ha | ha <;> simp [ha]
    · rw [he]
      intro p hp
      rw [hProc] at hp
      rcases hAlive with ha | ha
      · rw [ha] at hFits
        simp [Fits, hp] at hFits
      · rw [ha] at hFits
        obtain ⟨q, hq, hs⟩ := hFits
        obtain rfl : p = q := Option.some.inj (hp.symm.trans hq)
        exact .inl hs
  · intro p hp
    rcases hpc' with he | ⟨e, he⟩
    · rwa [he, hClaims] at hp
    · rw [he] at hp
      cases hp

theorem Cpus.quiet (h : Cpus m) (hq : m.Quiet c m') : Cpus m' := by
  cases hq with
  | enable c' on => exact h.move rfl (.stay _)
  | move k hProc _ hpc _ => exact h.move hProc hpc
  | take lk pc b hpc hFree => exact h.take hpc hFree
  | give lk pc b hpc => exact h.give hpc
  | noPgdir p hpc hp =>
    have hLock := h.holds c (by rw [hpc]; rfl)
    have hFits := h.fits c
    rw [hpc] at hFits
    refine h.frame (c := c) (fun c' hc => by simp [setCpu_cpu_of_ne _ _ _ hc]) (.inl rfl)
      (fun q hq => absurd rfl hq) (fun hh => ?_) (fun _ => .inr (by simp [Pc.mode])) ?_
      (by simp [Pc.claims]) ?_ ?_
    · simp [Pc.holding] at hh
    · simp only [setCpu_cpu, Pc.mode]
      intro q hq
      simp only [setCpu_cpu, Option.some.injEq] at hq
      exact .inr ⟨hLock, .inr (.inl (hq ▸ hp))⟩
    · intro q hq
      simp only [setCpu_cpu, Option.some.injEq] at hq
      exact .inr ⟨hLock, hq ▸ hp⟩
    · intro q hq
      exact .inr ⟨hq, by rw [show (m.cpu c).proc = none from hFits]; simp⟩
  | swtched i hpc =>
    have hLock := h.holds c (by rw [hpc]; rfl)
    have hFits := h.fits c
    rw [hpc] at hFits
    obtain ⟨p, hp, hLeft⟩ := hFits
    refine h.frame (c := c) (fun c' hc => by simp [setCpu_cpu_of_ne _ _ _ hc]) (.inl rfl)
      (fun q hq => absurd rfl hq) (fun _ => hLock) (fun _ => .inl (by simp [Pc.holding])) ?_
      (by simp [Pc.claims]) (by simp) ?_
    · simp [Pc.mode, Fits]
    · intro q hq
      refine .inr ⟨hq, ?_⟩
      rintro he
      obtain rfl : p = q := Option.some.inj (hp.symm.trans he)
      have hq' : m.state p = .running := hq
      rcases hLeft with hl | hl | hl <;> simp [hq'] at hl

/-! ## Steps that write to the table -/

omit [DecidableEq C] in
/-- A step of `c` that keeps the lock and changes the state of one slot. -/
theorem Cpus.setSlot (h : Cpus m) {p : Slot} {s : ProcState}
    (hOther : ∀ c', c' ≠ c → m'.cpu c' = m.cpu c')
    (hLock : m'.locks = m.locks) (hProc : (m'.cpu c).proc = (m.cpu c).proc)
    (hState : ∀ q, m'.state q = if q = p then s else m.state q)
    (hOwn : (m.cpu c).proc = some p ∨ (m.cpu c).pc.claims = some p ∨
      m.locks .ptable = some c ∧ m.state p ≠ .running ∧ m.state p ≠ .embryo)
    (hHolding : (m'.cpu c).pc.holding = (m.cpu c).pc.holding) (hAlive : (m.cpu c).pc.mode ≠ .dead)
    (hFits : m'.Fits c (m'.cpu c).pc.mode)
    (hClaims : ∀ q, (m'.cpu c).pc.claims = some q →
      q = p ∧ s = .embryo ∧ ((m.cpu c).pc.claims = some q ∨ m.state q = .unused))
    (hs : s = .running → m.state p = .running) : Cpus m' := by
  refine h.update (fun c' hc => by rw [hOther c' hc]; exact ⟨rfl, rfl⟩) (congrFun hLock _) hProc
    (.inl hHolding) (fun hd => absurd hd hAlive) ?_ hFits ?_ ?_
  · intro q hq
    have hqp : q = p := by
      by_contra hne
      exact hq (by rw [hState q, if_neg hne])
    exact hqp ▸ hOwn
  · intro q hq
    obtain ⟨rfl, hse, hu⟩ := hClaims q hq
    exact ⟨by rw [hState q, if_pos rfl, hse], hu⟩
  · intro q hq
    rw [hState q] at hq
    split at hq
    · rename_i hqp
      exact hqp ▸ hs hq
    · exact hq

omit [DecidableEq C] in
/-- A processor in the code of its current process goes on in it while another slot changes. -/
theorem Cpus.fits_of_ne (h : Cpus m) {p : Slot} {s : ProcState} (hMode : (m.cpu c).pc.mode = .proc)
    (hProc : (m'.cpu c).proc = (m.cpu c).proc) (hState : ∀ q, m'.state q = if q = p then s else m.state q)
    (hp : m.state p ≠ .running) : m'.Fits c .proc := by
  have hFits := h.fits c
  rw [hMode] at hFits
  obtain ⟨q, hq, hs⟩ := hFits
  refine ⟨q, hProc.trans hq, ?_⟩
  rw [hState q, if_neg, hs]
  rintro rfl
  exact hp hs

omit [DecidableEq C] in
theorem Cpus.running (h : Cpus m) {p : Slot} (hMode : (m.cpu c).pc.mode = .proc)
    (hp : (m.cpu c).proc = some p) : m.state p = .running := by
  have hFits := h.fits c
  rw [hMode] at hFits
  obtain ⟨q, hq, hs⟩ := hFits
  obtain rfl : p = q := Option.some.inj (hp.symm.trans hq)
  exact hs

omit [DecidableEq C] in
/-- A step of `c` with the lock held that wakes processes, and may end the current one. -/
theorem Cpus.wakes (h : Cpus m) (hOther : ∀ c', c' ≠ c → m'.cpu c' = m.cpu c')
    (hLock : m'.locks = m.locks) (hProc : (m'.cpu c).proc = (m.cpu c).proc)
    (hHeld : (m.cpu c).pc.holding = true) (hHolding : (m'.cpu c).pc.holding = true)
    (hAlive : (m.cpu c).pc.mode ≠ .dead)
    (hState : ∀ q, Ptable.Wakes (m.state q) (m'.state q) ∨ (m.cpu c).proc = some q ∧ m'.state q = .zombie)
    (hFits : m'.Fits c (m'.cpu c).pc.mode) (hClaims : (m'.cpu c).pc.claims = none) : Cpus m' := by
  refine h.update (fun c' hc => by rw [hOther c' hc]; exact ⟨rfl, rfl⟩) (congrFun hLock _) hProc
    (.inl (hHolding.trans hHeld.symm)) (fun hd => absurd hd hAlive) ?_ hFits (by simp [hClaims]) ?_
  · intro q hq
    rcases hState q with (hw | ⟨hw, -⟩) | ⟨hc, -⟩
    · exact absurd hw hq
    · exact .inr (.inr ⟨h.holds c hHeld, by simp [hw], by simp [hw]⟩)
    · exact .inl hc
  · intro q hq
    rcases hState q with (hw | ⟨-, hw⟩) | ⟨-, hw⟩
    · exact hw.symm.trans hq
    · simp [hw] at hq
    · simp [hw] at hq

theorem Cpus.fills (h : Cpus m) {p : Slot} {f : Proc → Proc} {pc : Pc}
    (hClaim : (m.cpu c).pc.claims = some p) (hMode : (m.cpu c).pc.mode = .proc)
    (hHeld : (m.cpu c).pc.holding = false) (hHolding : pc.holding = false) (hMode' : pc.mode = .proc)
    (hf : (f (m.tbl.proc p)).state ≠ .running)
    (hClaims : ∀ q, pc.claims = some q → q = p ∧ (f (m.tbl.proc p)).state = .embryo) :
    Cpus ((m.withTbl (m.tbl.set p f)).goto c pc) := by
  have hState (q : Slot) : ((m.withTbl (m.tbl.set p f)).goto c pc).state q =
      if q = p then (f (m.tbl.proc p)).state else m.state q := by
    simp only [state, goto_tbl, withTbl_tbl, Ptable.set_proc_eq]
    split
    · simp [*]
    · rfl
  have hNot : m.state p ≠ .running := by simp [h.embryo c p hClaim]
  refine h.setSlot (c := c) (fun c' hc => by simp [goto_cpu_of_ne _ _ _ hc]) rfl (by simp) hState
    (.inr (.inl hClaim)) (by simp [hHeld, hHolding]) (by simp [hMode]) ?_ ?_ (fun hr => absurd hr hf)
  · simp only [goto_cpu, hMode']
    exact h.fits_of_ne hMode (by simp) hState hNot
  · intro q hq
    obtain ⟨rfl, he⟩ := hClaims q (by simpa using hq)
    exact ⟨rfl, he, .inl hClaim⟩

/-- The current process changes its own state and turns to the scheduler, with the lock held. -/
theorem Cpus.parks (h : Cpus m) {p : Slot} {f : Proc → Proc} {k : Resume}
    (hProc : (m.cpu c).proc = some p) (hMode : (m.cpu c).pc.mode = .proc)
    (hHeld : (m.cpu c).pc.holding = true) (hf : Left (f (m.tbl.proc p)).state) (es : List (Event C)) :
    Cpus (((m.withTbl (m.tbl.set p f)).goto c (.sched k)).logs es) := by
  have hState (q : Slot) : (((m.withTbl (m.tbl.set p f)).goto c (.sched k)).logs es).state q =
      if q = p then (f (m.tbl.proc p)).state else m.state q := by
    simp only [state, logs_tbl, goto_tbl, withTbl_tbl, Ptable.set_proc_eq]
    split
    · simp [*]
    · rfl
  refine h.setSlot (c := c) (fun c' hc => by simp [goto_cpu_of_ne _ _ _ hc]) rfl (by simp) hState
    (.inl hProc) (by rw [hHeld]; simp [Pc.holding]) (by simp [hMode]) ?_ (by simp [Pc.claims])
    (fun _ => h.running hMode hProc)
  simp only [logs_cpu, goto_cpu, Pc.mode]
  exact ⟨p, by simpa using hProc, by rw [hState p, if_pos rfl]; exact hf⟩

/-- A slot changes without changing its state. -/
theorem Cpus.writes (h : Cpus m) {p : Slot} {f : Proc → Proc} {k : Cpu}
    (hf : (f (m.tbl.proc p)).state = m.state p) (hProc : k.proc = (m.cpu c).proc)
    (hHolding : k.pc.holding = (m.cpu c).pc.holding) (hMode : k.pc.mode = (m.cpu c).pc.mode)
    (hAlive : (m.cpu c).pc.mode ≠ .dead) (hClaims : k.pc.claims = none) :
    Cpus ((m.withTbl (m.tbl.set p f)).setCpu c k) := by
  have hState (q : Slot) : ((m.withTbl (m.tbl.set p f)).setCpu c k).state q = m.state q := by
    simp only [state, setCpu_tbl, withTbl_tbl, Ptable.set_proc_eq]
    split
    · rename_i hq
      exact hq ▸ hf
    · rfl
  refine h.still (c := c) (fun c' hc => by simp [setCpu_cpu_of_ne _ _ _ hc]) (.inl rfl) hState
    (by simpa using hProc) ?_ ?_ ?_ (by simp [hClaims])
  · simp only [setCpu_cpu, hHolding]
    exact h.holds c
  · simp only [setCpu_cpu, hHolding, hMode]
    exact h.held c
  · simp only [setCpu_cpu, hMode]
    exact (h.fits c).congr hAlive hState (by simpa using hProc)

theorem Cpus.step (h : Cpus m) (hs : m.Step c m') : Cpus m' := by
  cases hs with
  | quiet m' hq => exact h.quiet hq
  | switch p hpc hp =>
    have hLock := h.holds c (by rw [hpc]; rfl)
    have hNone : (m.cpu c).proc = none := by
      have hFits := h.fits c
      rw [hpc] at hFits
      exact hFits
    have hState (q : Slot) : (((m.withTbl (m.tbl.setState p .running)).setCpu c
        { m.cpu c with proc := some p, scheduler := p, pc := .back (m.tbl.proc p).context.resume }).logs
        [.acquired c (some p) .ptable]).state q = if q = p then .running else m.state q := by
      simp only [state, logs_tbl, setCpu_tbl, withTbl_tbl, Ptable.setState, Ptable.set_proc_eq]
      split <;> rfl
    refine h.frame (c := c) (fun c' hc => by simp [setCpu_cpu_of_ne _ _ _ hc]) (.inl rfl) ?_
      (fun _ => hLock) (fun _ => .inl (by simp [Pc.holding])) ?_ (by simp [Pc.claims]) ?_ ?_
    · intro q hq
      rw [hState q] at hq
      split at hq
      · rename_i hqp
        exact .inr (.inr ⟨hLock, by simp [hqp, state, hp], by simp [hqp, state, hp]⟩)
      · exact absurd rfl hq
    · simp only [logs_cpu, setCpu_cpu, Pc.mode]
      exact ⟨p, by simp, by simp [hState]⟩
    · intro q hq
      simp only [logs_cpu, setCpu_cpu, Option.some.injEq] at hq
      exact .inr ⟨hLock, hq ▸ hp⟩
    · intro q hq
      rw [hState q] at hq
      split at hq
      · rename_i hqp
        exact .inl (by simp [hqp])
      · exact .inr ⟨hq, by simp [hNone]⟩
  | sched p k hpc hProc hncli =>
    exact h.writes rfl rfl (by simp [hpc, Pc.holding]) (by simp [hpc, Pc.mode]) (by simp [hpc, Pc.mode]) rfl
  | sleepBack p lk b hpc hProc =>
    exact h.writes rfl rfl (by simp [hpc, Pc.holding]) (by simp [hpc, Pc.mode]) (by simp [hpc, Pc.mode]) rfl
  | waitBack p b hpc hProc =>
    exact h.writes rfl rfl (by simp [hpc, Pc.holding]) (by simp [hpc, Pc.mode, Call.mode])
      (by simp [hpc, Pc.mode]) rfl
  | wakeup chan irq hpc =>
    have hWakes (q : Slot) : Ptable.Wakes (m.state q) ((m.tbl.wakeup1 (some chan)).proc q).state := by
      obtain ⟨s, hs, he, -⟩ := m.tbl.wakeup1_proc (some chan) q
      rwa [he]
    refine h.wakes (c := c) (fun c' hc => by simp [goto_cpu_of_ne _ _ _ hc]) rfl (by simp)
      (by simp [hpc, Pc.holding]) (by simp [Pc.holding]) ?_ (fun q => .inl (hWakes q)) ?_ ?_
    · cases irq <;> simp [hpc, Pc.mode, Call.mode]
    · have hFits := h.fits c
      rw [hpc] at hFits
      cases irq with
      | true =>
        have hNone : (m.cpu c).proc = none := hFits
        simp [Pc.mode, Fits, hNone]
      | false =>
        obtain ⟨p, hp, hRun⟩ := hFits
        have hw := hWakes p
        rw [hRun] at hw
        simp only [logs_cpu, goto_cpu, Bool.false_eq_true, if_false, Pc.mode]
        refine ⟨p, by simpa using hp, ?_⟩
        rcases hw with hw | ⟨hw, -⟩
        · exact hw
        · cases hw
    · cases irq <;> simp [Pc.claims]
  | kill pid hpc =>
    have hWakes (q : Slot) : Ptable.Wakes (m.state q) ((m.tbl.kill pid).2.proc q).state := by
      obtain ⟨s, k, hs, he⟩ := m.tbl.kill_proc pid q
      rwa [he]
    refine h.wakes (c := c) (fun c' hc => by simp [goto_cpu_of_ne _ _ _ hc]) rfl (by simp)
      (by simp [hpc, Pc.holding]) (by simp [Pc.holding]) (by simp [hpc, Pc.mode, Call.mode])
      (fun q => .inl (hWakes q)) ?_ (by simp [Pc.claims])
    have hFits := h.fits c
    rw [hpc] at hFits
    obtain ⟨p, hp, hRun⟩ := hFits
    have hw := hWakes p
    rw [hRun] at hw
    simp only [goto_cpu, Pc.mode]
    refine ⟨p, by simpa using hp, ?_⟩
    rcases hw with hw | ⟨hw, -⟩
    · exact hw
    · cases hw
  | allocproc p hpc hp =>
    have hLock := h.holds c (by rw [hpc]; rfl)
    have hState (q : Slot) : (((m.withTbl { m.tbl.set p fun q =>
        { q with state := .embryo, pid := m.tbl.nextpid } with nextpid := m.tbl.nextpid + 1 }).goto c
        (.leave (.kstack p))).logs [.allocated m.tbl.nextpid]).state q =
        if q = p then .embryo else m.state q := by
      simp only [state, logs_tbl, goto_tbl, withTbl_tbl, Ptable.set_proc_eq]
      split <;> rfl
    have hMode : (m.cpu c).pc.mode = .proc := by rw [hpc]; rfl
    refine h.setSlot (c := c) (fun c' hc => by simp [goto_cpu_of_ne _ _ _ hc]) rfl (by simp) hState
      (.inr (.inr ⟨hLock, by simp [state, hp], by simp [state, hp]⟩)) (by simp [hpc, Pc.holding])
      (by simp [hMode]) ?_ ?_ (by simp)
    · simp only [logs_cpu, goto_cpu, Pc.mode]
      exact h.fits_of_ne hMode (by simp) hState (by simp [state, hp])
    · intro q hq
      simp only [logs_cpu, goto_cpu, Pc.claims, Option.some.injEq] at hq
      exact ⟨hq.symm, rfl, .inr (hq ▸ hp)⟩
  | yield p hpc hProc =>
    have hs := h.parks (f := fun q => { q with state := .runnable }) (k := .yield) hProc (by rw [hpc]; rfl)
      (by rw [hpc]; rfl) (.inr (.inl rfl))
    exact hs []
  | waitSleeps p hpc hProc hNone =>
    exact h.parks hProc (by rw [hpc]; rfl) (by rw [hpc]; rfl) (.inl rfl) _
  | sleep p chan lk hpc hProc =>
    exact h.parks hProc (by rw [hpc]; rfl) (by rw [hpc]; rfl) (.inl rfl) _
  | exit p hpc hProc =>
    refine h.wakes (c := c) (fun c' hc => by simp [goto_cpu_of_ne _ _ _ hc]) rfl (by simp)
      (by simp [hpc, Pc.holding]) (by simp [Pc.holding]) (by simp [hpc, Pc.mode, Call.mode]) ?_ ?_
      (by simp [Pc.claims])
    · intro q
      obtain ⟨s, hs, he, -⟩ := m.tbl.exit_proc p q
      rcases eq_or_ne q p with rfl | hqp
      · exact .inr ⟨hProc, by simp [state, he]⟩
      · exact .inl (by simpa [state, he, hqp] using hs)
    · obtain ⟨s, -, he, -⟩ := m.tbl.exit_proc p p
      simp only [logs_cpu, goto_cpu, Pc.mode]
      exact ⟨p, by simpa using hProc, .inr (.inr (by simp [state, he]))⟩
  | reaped p q hpc hProc hq hz =>
    have hLock := h.holds c (by rw [hpc]; rfl)
    have hState (r : Slot) : (((m.withTbl (m.tbl.set q Ptable.reapSlot)).goto c (.leave .run)).logs
        [.reaped (m.tbl.proc p).pid (m.tbl.proc q).pid q]).state r = if r = q then .unused else m.state r := by
      simp only [state, logs_tbl, goto_tbl, withTbl_tbl, Ptable.set_proc_eq]
      split <;> rfl
    have hMode : (m.cpu c).pc.mode = .proc := by rw [hpc]; rfl
    refine h.setSlot (c := c) (fun c' hc => by simp [goto_cpu_of_ne _ _ _ hc]) rfl (by simp) hState
      (.inr (.inr ⟨hLock, by simp [state, hz], by simp [state, hz]⟩)) (by simp [hpc, Pc.holding])
      (by simp [hMode]) ?_ (by simp [Pc.claims]) (by simp)
    simp only [logs_cpu, goto_cpu, Pc.mode]
    exact h.fits_of_ne hMode (by simp) hState (by simp [state, hz])
  | noKstack p hpc =>
    exact h.fills (by rw [hpc]; rfl) (by rw [hpc]; rfl) (by rw [hpc]; rfl) rfl rfl (by simp) (by simp [Pc.claims])
  | noCopy p hpc =>
    exact h.fills (by rw [hpc]; rfl) (by rw [hpc]; rfl) (by rw [hpc]; rfl) rfl rfl (by simp) (by simp [Pc.claims])
  | ready p hpc =>
    exact h.fills (by rw [hpc]; rfl) (by rw [hpc]; rfl) (by rw [hpc]; rfl) rfl rfl (by simp) (by simp [Pc.claims])
  | kstack p a hpc =>
    have hClaim : (m.cpu c).pc.claims = some p := by rw [hpc]; rfl
    have he : (m.tbl.proc p).state = .embryo := h.embryo c p hClaim
    exact h.fills hClaim (by rw [hpc]; rfl) (by rw [hpc]; rfl) rfl rfl (by simp [he])
      (by simp [Pc.claims, he, eq_comm])
  | copy p a hpc =>
    have hClaim : (m.cpu c).pc.claims = some p := by rw [hpc]; rfl
    have he : (m.tbl.proc p).state = .embryo := h.embryo c p hClaim
    exact h.fills hClaim (by rw [hpc]; rfl) (by rw [hpc]; rfl) rfl rfl (by simp [he])
      (by simp [Pc.claims, he, eq_comm])
  | parent p curr hpc hProc =>
    have hClaim : (m.cpu c).pc.claims = some p := by rw [hpc]; rfl
    have he : (m.tbl.proc p).state = .embryo := h.embryo c p hClaim
    exact h.fills hClaim (by rw [hpc]; rfl) (by rw [hpc]; rfl) rfl rfl (by simp [he])
      (by simp [Pc.claims, he, eq_comm])
  | forked p pid hpc hProc =>
    refine h.still (c := c) (fun c' hc => by simp [goto_cpu_of_ne _ _ _ hc]) (.inl rfl) (fun q => rfl) (by simp)
      (by simp [Pc.holding]) (fun hl => ?_) ?_ (by simp [Pc.claims])
    · rcases h.held c hl with hh | hd
      · simp [hpc, Pc.holding] at hh
      · simp [hpc, Pc.mode] at hd
    · simp only [logs_cpu, goto_cpu, Pc.mode]
      exact ⟨p, by simpa using hProc, h.running (by rw [hpc]; rfl) hProc⟩

omit [DecidableEq C] in
theorem Cpus.boot (kstack pgdir : Nat) (enabled : C → Bool) : Cpus (boot kstack pgdir enabled) where
  holds c h := by cases h
  held c h := by cases h
  fits c := rfl
  embryo c p h := by cases h
  procUnique c c' p h := by cases h
  claimUnique c c' p h := by cases h
  onCpu p h := by
    simp only [state, Machine.boot, Ptable.userinit, Function.update_apply] at h
    split at h <;> cases h

theorem Cpus.exec {as : List (C × Act C)} (h : Cpus m) (hExec : m.exec as = some m') : Cpus m' :=
  exec_keeps (P := Cpus) (fun _ _ _ _ hs hm => hm.step (step_cases hs)) hExec h

/-- In every state of every run with `ptable.lock` free, the current processes of the
processors are the `RUNNING` ones, each of them once; and `wait` never frees the stack and
the page directory of a current process. -/
theorem one_cpu_per_process (kstack pgdir : Nat) (enabled : C → Bool) (as : List (C × Act C))
    (m : Machine C) (hExec : (boot kstack pgdir enabled).exec as = some m) :
    (m.locks .ptable = none →
      (∀ p, m.state p = .running → ∃! c, (m.cpu c).proc = some p) ∧
      ∀ c p, (m.cpu c).proc = some p → m.state p = .running) ∧
    ∀ c a m' parent child p, m.step c a = some m' → m'.trace = .reaped parent child p :: m.trace →
      ∀ c', (m.cpu c').proc ≠ some p := by
  have h : Cpus m := (Cpus.boot kstack pgdir enabled).exec hExec
  constructor
  · intro hFree
    constructor
    · intro p hp
      obtain ⟨c, hc⟩ := h.onCpu p hp
      exact ⟨c, hc, fun c' hc' => h.procUnique c' c p hc' hc⟩
    · intro c p hp
      rcases h.current hp with hr | ⟨hl, -⟩
      · exact hr
      · simp [hFree] at hl
  · intro c a m' parent child p hStep hTrace c' hc'
    obtain ⟨hpc, hz⟩ := (step_cases hStep).of_reaped hTrace
    -- a zombie can only be current on the processor that holds the lock, which is in `wait`
    have hNot : m.state p ≠ .running := by simp [state, hz]
    rcases h.current hc' with hr | ⟨hl, -⟩
    · exact hNot hr
    · have hl' := h.holds c (by rw [hpc]; rfl)
      obtain rfl : c = c' := Option.some.inj (hl'.symm.trans hl)
      exact hNot (h.running (by rw [hpc]; rfl) hc')

/-- After the first processor switched to `init`. -/
theorem one_cpu_per_process_init : ∃ m : Machine (Fin 4),
    (boot 1 1 fun _ => true).exec [(0, .next), (0, .next), (0, .next)] = some m ∧
    m.locks .ptable = none ∧ m.state 0 = .running ∧ ∃! c, (m.cpu c).proc = some 0 :=
  ⟨_, rfl, rfl, rfl,
    ((one_cpu_per_process 1 1 (fun _ => true) [(0, .next), (0, .next), (0, .next)] _ rfl).1 rfl).1 0 rfl⟩

end Machine

end Xv6Rpi.Sched
