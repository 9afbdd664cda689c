import Xv6Rpi.Sched.Cpus

/-! # The life of a process

What `fork`, `exit` and `wait` promise each other across all interleavings: pids are not
given twice, a process that is not reaped has a parent to reap it, and `wait` returns a
child once, after it exited.
-/

namespace Xv6Rpi.Sched

variable {C : Type}

def Event.isLife : Event C → Bool
  | .allocated _ | .forked _ _ | .exited _ | .reaped _ _ _ => true
  | _ => false

def Event.isAllocated : Event C → Bool
  | .allocated _ => true
  | _ => false

def Event.child : Event C → Option Pid
  | .forked _ x | .reaped _ x _ => some x
  | _ => none

/-- A process that can still call `wait`. -/
def Active (s : ProcState) : Prop := s = .runnable ∨ s = .running ∨ s = .sleeping

/-- A process past `fork` that is not reaped. -/
def Settled (s : ProcState) : Prop := Active s ∨ s = .zombie

/-- A pid is returned by one `fork`. A pid is returned by one `wait`, after its process
exited, to the parent, or to `init` after the parent exited. The latest event is first. -/
def Ordered : List (Event C) → Prop
  | [] => True
  | .forked _ x :: l => (∀ y, .forked y x ∉ l) ∧ Ordered l
  | .reaped a x _ :: l =>
    ((∀ b r, .reaped b x r ∉ l) ∧ .exited x ∈ l ∧
      (.forked a x ∈ l ∨ a = 1 ∧ ∃ z, .forked z x ∈ l ∧ .exited z ∈ l)) ∧ Ordered l
  | _ :: l => Ordered l

theorem Ordered.of_append {l₁ l₂ : List (Event C)} (h : Ordered (l₁ ++ l₂)) : Ordered l₂ := by
  induction l₁ with
  | nil => exact h
  | cons e l₁ ih =>
    cases e with
    | forked y x => exact ih h.2
    | reaped a x p => exact ih h.2
    | _ => exact ih h

theorem Ordered.forked_unique {l : List (Event C)} (h : Ordered l) {x y z : Pid} (hy : .forked y x ∈ l)
    (hz : .forked z x ∈ l) : y = z := by
  induction l with
  | nil => cases hy
  | cons e l ih =>
    rcases List.mem_cons.mp hy with rfl | hy'
    · rcases List.mem_cons.mp hz with he | hz'
      · exact (Event.forked.inj he).1.symm
      · exact absurd hz' (h.1 z)
    · rcases List.mem_cons.mp hz with rfl | hz'
      · exact absurd hy' (h.1 y)
      · exact ih (Ordered.of_append (show Ordered ([e] ++ l) from h)) hy' hz'

theorem Ordered.not_again {l₁ l₂ : List (Event C)} {a b x : Pid} {p q : Slot}
    (h : Ordered (l₁ ++ .reaped a x p :: l₂)) : .reaped b x q ∉ l₁ := by
  intro hb
  obtain ⟨l₃, l₄, rfl⟩ := List.append_of_mem hb
  rw [List.append_assoc] at h
  exact h.of_append.1.1 a p (List.mem_append_right _ (List.mem_cons_self ..))

def Pc.exits : Pc → Bool
  | .call .exit | .body .exit => true
  | _ => false

def Pc.forking : Pc → Bool
  | .ready _ | .forked _ => true
  | _ => false

theorem Pc.Moves.forking {pc pc' : Pc} (h : pc.Moves pc') :
    pc' = pc ∨ pc.forking = false ∧ pc'.forking = false := by
  cases h with
  | stay => exact .inl rfl
  | _ => exact .inr ⟨rfl, rfl⟩

theorem Pc.Moves.exits {pc pc' : Pc} (h : pc.Moves pc') (he : pc'.exits = true) :
    pc.exits = true ∨ pc = .run ∧ pc' = .call .exit := by
  cases h with
  | stay => exact .inl he
  | runCall f hf =>
    cases f with
    | exit => exact .inr ⟨rfl, rfl⟩
    | _ => cases he
  | _ => cases he

theorem Pc.Takes.forking {pc pc' : Pc} {lk : Lock} (h : pc.Takes lk pc') :
    pc.forking = false ∧ pc'.forking = false ∧ pc'.exits = pc.exits := by
  cases h with
  | call f => cases f <;> exact ⟨rfl, rfl, rfl⟩
  | _ => exact ⟨rfl, rfl, rfl⟩

theorem Pc.Gives.forking {pc pc' : Pc} {lk : Lock} (h : pc.Gives lk pc') :
    pc.forking = false ∧ pc'.forking = false ∧ pc'.exits = false := by
  cases h with
  | leave n => cases n <;> exact ⟨rfl, rfl, rfl⟩
  | _ => exact ⟨rfl, rfl, rfl⟩

namespace Machine

def pid (m : Machine C) (p : Slot) : Pid := (m.tbl.proc p).pid

def parent (m : Machine C) (p : Slot) : Option Slot := (m.tbl.proc p).parent

/-- Asleep in `wait`, the only function that sleeps on a slot. -/
def InWait (m : Machine C) (p : Slot) : Prop :=
  m.state p = .sleeping ∧ (m.tbl.proc p).chan = some (.proc p)

def life (m : Machine C) : List (Event C) := m.trace.filter Event.isLife

def forks (m : Machine C) : Nat := m.life.countP Event.isAllocated

/-- A pid that was given, to `init` or by a `fork`. -/
def Numbered (m : Machine C) (x : Pid) : Prop := ∃ k, 0 < k ∧ k < m.forks + 2 ∧ x = BitVec.ofNat 32 k

/-- How slot `q` came to be the parent of slot `p`: its `fork` returned the pid or is about
to, or it is `init` and inherited `p`. -/
def Lineage (m : Machine C) (p q : Slot) : Prop :=
  .forked (m.pid q) (m.pid p) ∈ m.life ∨
  (∃ c, (m.cpu c).proc = some q ∧ (m.cpu c).pc = .forked (m.pid p)) ∨
  q = m.tbl.initproc ∧ ∃ z, .forked z (m.pid p) ∈ m.life ∧ .exited z ∈ m.life

structure Life (m : Machine C) : Prop where
  nextpid : m.tbl.nextpid = BitVec.ofNat 32 (m.forks + 2)
  numbered : ∀ p, m.state p ≠ .unused → m.Numbered (m.pid p)
  distinct : ∀ p q, m.state p ≠ .unused → m.state q ≠ .unused → m.pid p = m.pid q → p = q
  init : Active (m.state m.tbl.initproc) ∧ m.pid m.tbl.initproc = 1
  exits : ∀ c, (m.cpu c).pc.exits = true → (m.cpu c).proc ≠ some m.tbl.initproc
  ready : ∀ c p, (m.cpu c).pc = .ready p → m.parent p = (m.cpu c).proc
  returns : ∀ c x, (m.cpu c).pc = .forked x → (∀ y, .forked y x ∉ m.life) ∧
    ∃ p, Settled (m.state p) ∧ m.pid p = x ∧ m.parent p = (m.cpu c).proc
  embryo : ∀ p y, m.state p = .embryo → .forked y (m.pid p) ∉ m.life
  child : ∀ p, p ≠ m.tbl.initproc → Settled (m.state p) →
    ∃ q, m.parent p = some q ∧ q ≠ p ∧ Active (m.state q) ∧ m.Lineage p q
  waits : ∀ p, m.InWait p → ∀ q, m.parent q = some p → m.state q ≠ .zombie
  exited : ∀ p, m.state p = .zombie → .exited (m.pid p) ∈ m.life
  unreaped : ∀ p a q, m.state p ≠ .unused → .reaped a (m.pid p) q ∉ m.life
  past : ∀ e ∈ m.life, ∀ x, e.child = some x → m.Numbered x
  ordered : Ordered m.life

variable {m m' : Machine C} {c : C}

theorem Numbered.ne_next {x : Pid} (h : m.Numbered x) (hSmall : m.forks + 2 < 2 ^ 32) :
    x ≠ BitVec.ofNat 32 (m.forks + 2) := by
  obtain ⟨k, -, hk, rfl⟩ := h
  intro he
  have hv := congrArg BitVec.toNat he
  simp only [BitVec.toNat_ofNat] at hv
  omega

theorem Numbered.mono {x : Pid} (h : m.Numbered x) (hForks : m.forks ≤ m'.forks) : m'.Numbered x := by
  obtain ⟨k, hk, hlt, he⟩ := h
  exact ⟨k, hk, by omega, he⟩

/-- What is left to show of a step that gives no pid: slots keep their pids while they are
in use, and new events speak of slots in use. -/
theorem Life.change (h : Life m) (es : List (Event C)) (hInit : m'.tbl.initproc = m.tbl.initproc)
    (hNext : m'.tbl.nextpid = m.tbl.nextpid) (hLife : m'.life = es ++ m.life)
    (hAlloc : es.countP Event.isAllocated = 0)
    (hLive : ∀ p, m'.state p ≠ .unused → m.state p ≠ .unused ∧ m'.pid p = m.pid p)
    (hActive : Active (m'.state m.tbl.initproc))
    (hEmbryo : ∀ p y, m'.state p = .embryo → m.state p = .embryo ∧ .forked y (m.pid p) ∉ es)
    (hReaped : ∀ p a q, m'.state p ≠ .unused → .reaped a (m.pid p) q ∉ es)
    (hPast : ∀ e ∈ es, ∀ x, e.child = some x → ∃ p, m.state p ≠ .unused ∧ m.pid p = x)
    (hOrdered : Ordered (es ++ m.life))
    (hExits : ∀ c, (m'.cpu c).pc.exits = true → (m'.cpu c).proc ≠ some m.tbl.initproc)
    (hReady : ∀ c p, (m'.cpu c).pc = .ready p → m'.parent p = (m'.cpu c).proc)
    (hReturns : ∀ c x, (m'.cpu c).pc = .forked x → (∀ y, .forked y x ∉ m'.life) ∧
      ∃ p, Settled (m'.state p) ∧ m'.pid p = x ∧ m'.parent p = (m'.cpu c).proc)
    (hChild : ∀ p, p ≠ m.tbl.initproc → Settled (m'.state p) →
      ∃ q, m'.parent p = some q ∧ q ≠ p ∧ Active (m'.state q) ∧ m'.Lineage p q)
    (hWaits : ∀ p, m'.InWait p → ∀ q, m'.parent q = some p → m'.state q ≠ .zombie)
    (hExited : ∀ p, m'.state p = .zombie → .exited (m'.pid p) ∈ m'.life) : Life m' := by
  have hForks : m'.forks = m.forks := by
    rw [forks, hLife, List.countP_append, hAlloc, Nat.zero_add, forks]
  have hInitPid : m'.pid m.tbl.initproc = m.pid m.tbl.initproc := by
    refine (hLive _ ?_).2
    rcases hActive with ha | ha | ha <;> simp [ha]
  refine ⟨?_, ?_, ?_, ?_, ?_, hReady, hReturns, ?_, ?_, hWaits, hExited, ?_, ?_, ?_⟩
  · rw [hNext, h.nextpid, hForks]
  · intro p hp
    obtain ⟨hp', he⟩ := hLive p hp
    rw [he]
    exact (h.numbered p hp').mono hForks.ge
  · intro p q hp hq he
    obtain ⟨hp', hep⟩ := hLive p hp
    obtain ⟨hq', heq⟩ := hLive q hq
    exact h.distinct p q hp' hq' (hep.symm.trans (he.trans heq))
  · rw [hInit, hInitPid]
    exact ⟨hActive, h.init.2⟩
  · rwa [hInit]
  · intro p y hp
    obtain ⟨hp', hNot⟩ := hEmbryo p y hp
    rw [(hLive p (by simp [hp])).2, hLife, List.mem_append, not_or]
    exact ⟨hNot, h.embryo p y hp'⟩
  · rw [hInit]
    exact hChild
  · intro p a q hp
    obtain ⟨hp', he⟩ := hLive p hp
    rw [he, hLife, List.mem_append, not_or]
    exact ⟨hReaped p a q hp, h.unreaped p a q hp'⟩
  · intro e he x hx
    rw [hLife] at he
    rcases List.mem_append.mp he with he | he
    · obtain ⟨p, hp, rfl⟩ := hPast e he x hx
      exact (h.numbered p hp).mono hForks.ge
    · exact (h.past e he x hx).mono hForks.ge
  · rwa [hLife]

/-- A step that keeps the events of life, pids and parents, and moves states among those of
active processes. -/
theorem Life.active (h : Life m) (hInit : m'.tbl.initproc = m.tbl.initproc)
    (hNext : m'.tbl.nextpid = m.tbl.nextpid) (hLife : m'.life = m.life)
    (hState : ∀ p, m'.state p = m.state p ∨ Active (m.state p) ∧ Active (m'.state p))
    (hPid : ∀ p, m'.pid p = m.pid p) (hParent : ∀ p, m'.parent p = m.parent p)
    (hWait : ∀ p, m'.InWait p → m.InWait p ∨ ∀ q, m.parent q = some p → m.state q ≠ .zombie)
    (hExits : ∀ c, (m'.cpu c).pc.exits = true → (m'.cpu c).proc ≠ some m.tbl.initproc)
    (hReady : ∀ c p, (m'.cpu c).pc = .ready p → (m.cpu c).pc = .ready p ∧ (m'.cpu c).proc = (m.cpu c).proc)
    (hReturn : ∀ c x, (m'.cpu c).pc = .forked x → (m.cpu c).pc = .forked x ∧ (m'.cpu c).proc = (m.cpu c).proc)
    (hReturn' : ∀ c x, (m.cpu c).pc = .forked x → (m'.cpu c).pc = .forked x ∧ (m'.cpu c).proc = (m.cpu c).proc) :
    Life m' := by
  have hOld (s : ProcState) (hs : ¬ Active s) (p : Slot) (hp : m'.state p = s) : m.state p = s := by
    rcases hState p with he | ⟨-, ha⟩
    · exact he.symm.trans hp
    · exact absurd (hp ▸ ha) hs
  have hZombie (p : Slot) (hp : m'.state p = .zombie) : m.state p = .zombie :=
    hOld _ (by simp [Active]) p hp
  have hActive (p : Slot) (hp : Active (m.state p)) : Active (m'.state p) := by
    rcases hState p with he | ⟨-, ha⟩
    · rwa [he]
    · exact ha
  have hSettled (p : Slot) : Settled (m'.state p) ↔ Settled (m.state p) := by
    rcases hState p with he | ⟨ha, ha'⟩
    · rw [he]
    · exact ⟨fun _ => .inl ha, fun _ => .inl ha'⟩
  refine h.change [] hInit hNext hLife rfl (fun p hp => ⟨?_, hPid p⟩) (hActive _ h.init.1)
    (fun p y hp => ⟨hOld _ (by simp [Active]) p hp, by simp⟩) (by simp) (by simp) h.ordered hExits ?_ ?_ ?_ ?_ ?_
  · rcases hState p with he | ⟨ha, -⟩
    · rwa [he] at hp
    · rcases ha with ha | ha | ha <;> simp [ha]
  · intro c p hp
    obtain ⟨hp', hProc⟩ := hReady c p hp
    rw [hParent, hProc]
    exact h.ready c p hp'
  · intro c x hx
    obtain ⟨hx', hProc⟩ := hReturn c x hx
    obtain ⟨hNot, p, hp, hpx, hpar⟩ := h.returns c x hx'
    rw [hLife, hProc]
    exact ⟨hNot, p, (hSettled p).mpr hp, (hPid p).trans hpx, (hParent p).trans hpar⟩
  · intro p hp hs
    obtain ⟨q, hq, hqp, ha, hl⟩ := h.child p hp ((hSettled p).mp hs)
    refine ⟨q, (hParent p).trans hq, hqp, hActive q ha, ?_⟩
    rw [Lineage, hPid, hPid, hLife, hInit]
    rcases hl with hl | ⟨c, hc, hx⟩ | hl
    · exact .inl hl
    · obtain ⟨hx', hProc⟩ := hReturn' c _ hx
      exact .inr (.inl ⟨c, hProc.trans hc, hx'⟩)
    · exact .inr (.inr hl)
  · intro p hp q hq hz
    rw [hParent] at hq
    rcases hWait p hp with hw | hw
    · exact h.waits p hw q hq (hZombie q hz)
    · exact hw q hq (hZombie q hz)
  · intro p hp
    rw [hPid, hLife]
    exact h.exited p (hZombie p hp)

/-- `Life.active` for a step of `c` outside the last steps of `fork`. -/
theorem Life.keeps (h : Life m) (hInit : m'.tbl.initproc = m.tbl.initproc)
    (hNext : m'.tbl.nextpid = m.tbl.nextpid) (hLife : m'.life = m.life)
    (hState : ∀ p, m'.state p = m.state p ∨ Active (m.state p) ∧ Active (m'.state p))
    (hPid : ∀ p, m'.pid p = m.pid p) (hParent : ∀ p, m'.parent p = m.parent p)
    (hWait : ∀ p, m'.InWait p → m.InWait p ∨ ∀ q, m.parent q = some p → m.state q ≠ .zombie)
    (hOther : ∀ c', c' ≠ c → (m'.cpu c').pc = (m.cpu c').pc ∧ (m'.cpu c').proc = (m.cpu c').proc)
    (hFork : (m'.cpu c).pc = (m.cpu c).pc ∧ (m'.cpu c).proc = (m.cpu c).proc ∨
      (m.cpu c).pc.forking = false ∧ (m'.cpu c).pc.forking = false)
    (hExits : (m'.cpu c).pc.exits = true → (m'.cpu c).proc ≠ some m.tbl.initproc) : Life m' := by
  have hSame (c' : C) (hc : c' ≠ c ∨ (m.cpu c').pc.forking = true ∨ (m'.cpu c').pc.forking = true) :
      (m'.cpu c').pc = (m.cpu c').pc ∧ (m'.cpu c').proc = (m.cpu c').proc := by
    rcases eq_or_ne c' c with rfl | hne
    · rcases hFork with hf | ⟨hf, hf'⟩
      · exact hf
      · simp [hf, hf'] at hc
    · exact hOther c' hne
  refine h.active hInit hNext hLife hState hPid hParent hWait ?_ ?_ ?_ ?_
  · intro c' he
    rcases eq_or_ne c' c with rfl | hne
    · exact hExits he
    · rw [(hOther c' hne).2]
      exact h.exits c' ((hOther c' hne).1 ▸ he)
  · intro c' p hp
    obtain ⟨hpc, hProc⟩ := hSame c' (.inr (.inr (by rw [hp]; rfl)))
    exact ⟨hpc ▸ hp, hProc⟩
  · intro c' x hx
    obtain ⟨hpc, hProc⟩ := hSame c' (.inr (.inr (by rw [hx]; rfl)))
    exact ⟨hpc ▸ hx, hProc⟩
  · intro c' x hx
    obtain ⟨hpc, hProc⟩ := hSame c' (.inr (.inl (by rw [hx]; rfl)))
    exact ⟨hpc.trans hx, hProc⟩

variable [DecidableEq C]

theorem Life.quiet (h : Life m) (hq : m.Quiet c m') : Life m' := by
  have hTbl : m'.tbl = m.tbl := by cases hq <;> rfl
  have hLife : m'.life = m.life := by
    cases hq with
    | take lk pc b hpc hFree => simp [life, Event.isLife]
    | _ => rfl
  have hProcs (p : Slot) : m'.tbl.proc p = m.tbl.proc p := by rw [hTbl]
  have hKeeps := Life.keeps (c := c) h (show m'.tbl.initproc = m.tbl.initproc by rw [hTbl]) (by rw [hTbl]) hLife
    (fun p => .inl (by rw [state, hProcs, state])) (fun p => by rw [pid, hProcs, pid])
    (fun p => by rw [parent, hProcs, parent]) (fun p hp => .inl (by rwa [InWait, state, hProcs] at hp))
  cases hq with
  | enable c' on =>
    have hSame (c'' : C) : ((m.setCpu c' { m.cpu c' with enabled := on }).cpu c'').pc = (m.cpu c'').pc ∧
        ((m.setCpu c' { m.cpu c' with enabled := on }).cpu c'').proc = (m.cpu c'').proc := by
      rcases eq_or_ne c'' c' with rfl | hne
      · simp
      · simp [setCpu_cpu_of_ne _ _ _ hne]
    refine hKeeps (fun c'' _ => hSame c'') (.inl (hSame c)) (fun he => ?_)
    rw [(hSame c).2]
    exact h.exits c ((hSame c).1 ▸ he)
  | move k hProc hncli hpc hExit =>
    refine hKeeps (fun c' hne => by simp [setCpu_cpu_of_ne _ _ _ hne]) ?_ ?_
    · rw [setCpu_cpu]
      rcases hpc.forking with he | hf
      · exact .inl ⟨he, hProc⟩
      · exact .inr hf
    · rw [setCpu_cpu, hProc]
      intro he
      rcases hpc.exits he with he' | ⟨hr, he'⟩
      · exact h.exits c he'
      · exact hExit hr he'
  | noPgdir p hpc hp =>
    refine hKeeps (fun c' hne => by simp [setCpu_cpu_of_ne _ _ _ hne]) (.inr ?_) (by simp [Pc.exits])
    rw [setCpu_cpu, hpc]
    exact ⟨rfl, rfl⟩
  | swtched i hpc =>
    refine hKeeps (fun c' hne => by simp [setCpu_cpu_of_ne _ _ _ hne]) (.inr ?_) (by simp [Pc.exits])
    rw [setCpu_cpu, hpc]
    exact ⟨rfl, rfl⟩
  | take lk pc b hpc hFree =>
    obtain ⟨hf, hf', he⟩ := hpc.forking
    refine hKeeps (fun c' hne => by simp [setCpu_cpu_of_ne _ _ _ hne]) (.inr ⟨hf, ?_⟩) ?_
    · simpa using hf'
    · simp only [logs_cpu, setCpu_cpu, pushcli_proc, he]
      exact h.exits c
  | give lk pc b hpc =>
    obtain ⟨hf, hf', he⟩ := hpc.forking
    refine hKeeps
      (fun c' hne => by simp [release_cpu_of_ne _ _ _ _ hne, setCpu_cpu_of_ne _ _ _ hne]) (.inr ⟨hf, ?_⟩) ?_
    · rw [release_cpu]
      rcases popcli_pc _ pc with hpc' | ⟨e, hpc'⟩
      · rw [hpc', hf']
      · rw [hpc']
        rfl
    · rw [release_cpu]
      rcases popcli_pc _ pc with hpc' | ⟨e, hpc'⟩
      · rw [hpc', he]
        simp
      · rw [hpc']
        simp [Pc.exits]

/-! ## Steps that change one slot -/

/-- A slot changes, but neither its pid nor its parent, and its state only from one of an
active process to another. -/
theorem Life.slot (h : Life m) {p : Slot} {f : Proc → Proc} {k : Cpu} (es : List (Event C))
    (hPid : (f (m.tbl.proc p)).pid = m.pid p) (hParent : (f (m.tbl.proc p)).parent = m.parent p)
    (hState : (f (m.tbl.proc p)).state = m.state p ∨ Active (m.state p) ∧ Active (f (m.tbl.proc p)).state)
    (hWait : (f (m.tbl.proc p)).state = .sleeping → (f (m.tbl.proc p)).chan = some (.proc p) →
      m.InWait p ∨ ∀ q, m.parent q = some p → m.state q ≠ .zombie)
    (hEvents : es.filter Event.isLife = []) (hFork : (m.cpu c).pc.forking = false)
    (hFork' : k.pc.forking = false) (hExits : k.pc.exits = false) :
    Life (((m.withTbl (m.tbl.set p f)).setCpu c k).logs es) := by
  refine h.keeps (c := c) rfl rfl (by simp [life, hEvents]) (fun q => ?_) (fun q => ?_) (fun q => ?_)
    (fun q hq => ?_) (fun c' hne => by simp [setCpu_cpu_of_ne _ _ _ hne]) (.inr ⟨hFork, by simpa using hFork'⟩)
    (by simp [hExits])
  · rcases eq_or_ne q p with rfl | hne
    · simpa [state] using hState
    · exact .inl (by simp [state, Ptable.set_proc_of_ne _ _ hne])
  · rcases eq_or_ne q p with rfl | hne
    · simpa [pid] using hPid
    · simp [pid, Ptable.set_proc_of_ne _ _ hne]
  · rcases eq_or_ne q p with rfl | hne
    · simpa [parent] using hParent
    · simp [parent, Ptable.set_proc_of_ne _ _ hne]
  · rcases eq_or_ne q p with rfl | hne
    · simp only [InWait, state, logs_tbl, setCpu_tbl, withTbl_tbl, Ptable.set_proc] at hq
      exact hWait hq.1 hq.2
    · exact .inl (by simpa [InWait, state, Ptable.set_proc_of_ne _ _ hne] using hq)

theorem Life.write (h : Life m) {p : Slot} {f : Proc → Proc} {k : Cpu}
    (hPid : (f (m.tbl.proc p)).pid = m.pid p) (hParent : (f (m.tbl.proc p)).parent = m.parent p)
    (hState : (f (m.tbl.proc p)).state = m.state p ∨ Active (m.state p) ∧ Active (f (m.tbl.proc p)).state)
    (hWait : (f (m.tbl.proc p)).state = .sleeping → (f (m.tbl.proc p)).chan = some (.proc p) → m.InWait p)
    (hFork : (m.cpu c).pc.forking = false) (hFork' : k.pc.forking = false) (hExits : k.pc.exits = false) :
    Life ((m.withTbl (m.tbl.set p f)).setCpu c k) :=
  h.slot [] hPid hParent hState (fun hs hch => .inl (hWait hs hch)) rfl hFork hFork' hExits

theorem Life.allocproc (h : Life m) {p : Slot} (hpc : (m.cpu c).pc = .body .allocproc)
    (hp : (m.tbl.proc p).state = .unused) (hSmall : m.forks + 2 < 2 ^ 32) :
    Life (((m.withTbl { m.tbl.set p fun q => { q with state := .embryo, pid := m.tbl.nextpid } with
      nextpid := m.tbl.nextpid + 1 }).goto c (.leave (.kstack p))).logs [.allocated m.tbl.nextpid]) := by
  obtain ⟨m', hm'⟩ : ∃ m', m' = ((m.withTbl { m.tbl.set p fun q =>
      { q with state := .embryo, pid := m.tbl.nextpid } with nextpid := m.tbl.nextpid + 1 }).goto c
      (.leave (.kstack p))).logs [.allocated m.tbl.nextpid] := ⟨_, rfl⟩
  rw [← hm']
  have hProc (q : Slot) (hne : q ≠ p) : m'.tbl.proc q = m.tbl.proc q := by
    simp [hm', Ptable.set_proc_of_ne _ _ hne]
  have hSelf : m'.tbl.proc p = { m.tbl.proc p with state := .embryo, pid := m.tbl.nextpid } := by
    simp [hm']
  have hInit : m'.tbl.initproc = m.tbl.initproc := by
    rw [hm']
    rfl
  have hLife : m'.life = .allocated m.tbl.nextpid :: m.life := by
    rw [hm']
    exact List.filter_cons_of_pos rfl
  have hForks : m'.forks = m.forks + 1 := by
    rw [forks, hLife, List.countP_cons]
    rfl
  have hCpu (c' : C) (hf : (m'.cpu c').pc.forking = true ∨ (m'.cpu c').pc.exits = true ∨
      (m.cpu c').pc.forking = true) : m'.cpu c' = m.cpu c' := by
    rw [hm'] at hf ⊢
    rcases eq_or_ne c' c with rfl | hne
    · simp [hpc, Pc.forking, Pc.exits] at hf
    · simp [goto_cpu_of_ne _ _ _ hne]
  have hParent (q : Slot) : m'.parent q = m.parent q := by
    rcases eq_or_ne q p with rfl | hne
    · simp [parent, hSelf]
    · simp [parent, hProc q hne]
  have hNew : m'.pid p = BitVec.ofNat 32 (m.forks + 2) := by
    simp [pid, hSelf, h.nextpid]
  have hNe (q : Slot) (hq : Settled (m.state q) ∨ Settled (m'.state q)) : q ≠ p := by
    rintro rfl
    simp [state, hp, hSelf, Settled, Active] at hq
  have hInitNe : m.tbl.initproc ≠ p := hNe _ (.inl (.inl h.init.1))
  refine ⟨?_, ?_, ?_, ?_, ?_, ?_, ?_, ?_, ?_, ?_, ?_, ?_, ?_, ?_⟩
  · rw [hForks, hm']
    simp only [logs_tbl, goto_tbl, withTbl_tbl, h.nextpid]
    rw [show m.forks + 1 + 2 = (m.forks + 2) + 1 by omega, BitVec.ofNat_add (m.forks + 2) 1]
    rfl
  · intro q hq
    rcases eq_or_ne q p with rfl | hne
    · exact ⟨m.forks + 2, by omega, by omega, hNew⟩
    · have hq' : m.state q ≠ .unused := by simpa [state, hProc q hne] using hq
      simpa [pid, hProc q hne] using (h.numbered q hq').mono (show m.forks ≤ m'.forks by omega)
  · -- the new pid is larger than all given before
    have hFresh (q : Slot) (hne : q ≠ p) (hq : m'.state q ≠ .unused) : m'.pid q ≠ m'.pid p := by
      have hq' : m.state q ≠ .unused := by simpa [state, hProc q hne] using hq
      rw [hNew]
      simpa [pid, hProc q hne] using (h.numbered q hq').ne_next hSmall
    intro q r hq hr he
    rcases eq_or_ne q p with rfl | hqp
    · rcases eq_or_ne r q with rfl | hrq
      · rfl
      · exact absurd he.symm (hFresh r hrq hr)
    · rcases eq_or_ne r p with rfl | hrp
      · exact absurd he (hFresh q hqp hq)
      · simp only [state, pid, hProc q hqp, hProc r hrp] at hq hr he
        exact h.distinct q r hq hr he
  · rw [hInit]
    simpa [state, pid, hProc _ hInitNe] using h.init
  · intro c' he
    rw [hInit, hCpu c' (.inr (.inl he))]
    exact h.exits c' (hCpu c' (.inr (.inl he)) ▸ he)
  · intro c' q hq
    have hc' := hCpu c' (.inl (by rw [hq]; rfl))
    rw [hParent, hc']
    exact h.ready c' q (hc' ▸ hq)
  · intro c' x hx
    have hc' := hCpu c' (.inl (by rw [hx]; rfl))
    obtain ⟨hNot, q, hq, hqx, hpar⟩ := h.returns c' x (hc' ▸ hx)
    have hne := hNe q (.inl hq)
    refine ⟨by simpa [hLife] using hNot, q, ?_, ?_, ?_⟩
    · simpa [state, hProc q hne] using hq
    · simpa [pid, hProc q hne] using hqx
    · rw [hParent, hc', hpar]
  · intro q y hq
    rw [hLife]
    rcases eq_or_ne q p with rfl | hne
    · intro hmem
      have hmem' : .forked y (m'.pid q) ∈ m.life := by simpa using hmem
      exact (h.past _ hmem' _ rfl).ne_next hSmall hNew
    · simp only [state, hProc q hne] at hq
      simpa [pid, hProc q hne] using h.embryo q y hq
  · intro q hq hs
    have hne := hNe q (.inr hs)
    simp only [state, hProc q hne] at hs
    obtain ⟨r, hr, hrq, ha, hl⟩ := h.child q (hInit ▸ hq) hs
    have hrp := hNe r (.inl (.inl ha))
    refine ⟨r, (hParent q).trans hr, hrq, by simpa [state, hProc r hrp] using ha, ?_⟩
    simp only [Lineage, pid, hProc q hne, hProc r hrp, hInit, hLife]
    rcases hl with hl | ⟨c', hc', hx⟩ | ⟨hi, z, hz, hz'⟩
    · exact .inl (List.mem_cons_of_mem _ hl)
    · rw [← hCpu c' (.inr (.inr (by rw [hx]; rfl)))] at hc' hx
      exact .inr (.inl ⟨c', hc', hx⟩)
    · exact .inr (.inr ⟨hi, z, List.mem_cons_of_mem _ hz, List.mem_cons_of_mem _ hz'⟩)
  · intro q hq r hr hz
    have hqp := hNe q (.inr (.inl (.inr (.inr hq.1))))
    have hrp := hNe r (.inr (.inr hz))
    simp only [InWait, state, hProc q hqp] at hq
    simp only [state, hProc r hrp] at hz
    exact h.waits q hq r ((hParent r).symm.trans hr) hz
  · intro q hq
    have hne := hNe q (.inr (.inr hq))
    simp only [state, hProc q hne] at hq
    rw [hLife]
    simpa [pid, hProc q hne] using h.exited q hq
  · intro q a r hq
    rw [hLife]
    rcases eq_or_ne q p with rfl | hne
    · intro hmem
      have hmem' : .reaped a (m'.pid q) r ∈ m.life := by simpa using hmem
      exact (h.past _ hmem' _ rfl).ne_next hSmall hNew
    · simp only [state, hProc q hne] at hq
      simpa [pid, hProc q hne] using h.unreaped q a r hq
  · intro e he x hx
    rw [hLife] at he
    rcases List.mem_cons.mp he with rfl | he
    · cases hx
    · exact (h.past e he x hx).mono (by omega)
  · rw [hLife]
    exact h.ordered

/-- `fork` writes to the slot it claimed, gives it back, or makes it runnable and is about to
return. -/
theorem Life.fill (h : Life m) (hc : Cpus m) {p : Slot} {f : Proc → Proc} {pc : Pc}
    (hClaim : (m.cpu c).pc.claims = some p) (hFork : ∀ x, (m.cpu c).pc ≠ .forked x)
    (hExits : pc.exits = false) (hPid : (f (m.tbl.proc p)).pid = m.pid p)
    (hState : (f (m.tbl.proc p)).state = .unused ∨ (f (m.tbl.proc p)).state = .embryo ∨
      (f (m.tbl.proc p)).state = .runnable ∧ pc = .forked (m.pid p) ∧
        ∃ q, (m.cpu c).proc = some q ∧ Active (m.state q))
    (hReady : ∀ q, pc = .ready q → q = p ∧ (f (m.tbl.proc p)).parent = (m.cpu c).proc)
    (hReturns : ∀ x, pc = .forked x →
      x = m.pid p ∧ (f (m.tbl.proc p)).parent = (m.cpu c).proc ∧ (f (m.tbl.proc p)).state = .runnable) :
    Life ((m.withTbl (m.tbl.set p f)).goto c pc) := by
  obtain ⟨m', hm'⟩ : ∃ m', m' = (m.withTbl (m.tbl.set p f)).goto c pc := ⟨_, rfl⟩
  rw [← hm']
  have hEmbryo : m.state p = .embryo := hc.embryo c p hClaim
  have hProc (q : Slot) (hne : q ≠ p) : m'.tbl.proc q = m.tbl.proc q := by
    simp [hm', Ptable.set_proc_of_ne _ _ hne]
  have hSelf : m'.tbl.proc p = f (m.tbl.proc p) := by
    simp [hm']
  have hLife : m'.life = m.life := by
    rw [hm']
    rfl
  have hInit : m'.tbl.initproc = m.tbl.initproc := by
    rw [hm']
    rfl
  have hCpu (c' : C) (hne : c' ≠ c) : m'.cpu c' = m.cpu c' := by
    simp [hm', goto_cpu_of_ne _ _ _ hne]
  have hCpuSelf : m'.cpu c = { m.cpu c with pc := pc } := by
    simp [hm']
  have hNe (q : Slot) (hq : Settled (m.state q)) : q ≠ p := by
    rintro rfl
    simp [hEmbryo, Settled, Active] at hq
  have hNotZombie : (f (m.tbl.proc p)).state ≠ .zombie := by
    rcases hState with he | he | ⟨he, -⟩ <;> simp [he]
  have hInitNe := hNe _ (.inl h.init.1)
  refine h.change [] hInit (by rw [hm']; rfl) hLife rfl ?_ ?_ ?_ (by simp) (by simp) h.ordered ?_ ?_ ?_ ?_ ?_ ?_
  · intro q hq
    rcases eq_or_ne q p with rfl | hne
    · exact ⟨by simp [hEmbryo], by simpa [pid, hSelf] using hPid⟩
    · exact ⟨by simpa [state, hProc q hne] using hq, by simp [pid, hProc q hne]⟩
  · simpa [state, hProc _ hInitNe] using h.init.1
  · intro q y hq
    rcases eq_or_ne q p with rfl | hne
    · exact ⟨hEmbryo, by simp⟩
    · exact ⟨by simpa [state, hProc q hne] using hq, by simp⟩
  · intro c' he
    rcases eq_or_ne c' c with rfl | hne
    · simp [hCpuSelf, hExits] at he
    · rw [hCpu c' hne] at he ⊢
      exact h.exits c' he
  · intro c' q hq
    rcases eq_or_ne c' c with rfl | hne
    · simp only [hCpuSelf] at hq ⊢
      obtain ⟨rfl, hpar⟩ := hReady q hq
      simpa [parent, hSelf] using hpar
    · rw [hCpu c' hne] at hq ⊢
      have hqp : q ≠ p := by
        rintro rfl
        exact hne (hc.claimUnique c' c q (by rw [hq]; rfl) hClaim)
      simpa [parent, hProc q hqp] using h.ready c' q hq
  · intro c' x hx
    rw [hLife]
    rcases eq_or_ne c' c with rfl | hne
    · simp only [hCpuSelf] at hx ⊢
      obtain ⟨rfl, hpar, hs⟩ := hReturns x hx
      exact ⟨fun y => h.embryo p y hEmbryo, p, .inl (.inl (by simp [state, hSelf, hs])),
        by simpa [pid, hSelf] using hPid, by simpa [parent, hSelf] using hpar⟩
    · rw [hCpu c' hne] at hx ⊢
      obtain ⟨hNot, q, hq, hqx, hpar⟩ := h.returns c' x hx
      have hqp := hNe q hq
      exact ⟨hNot, q, by simpa [state, hProc q hqp] using hq, by simpa [pid, hProc q hqp] using hqx,
        by simpa [parent, hProc q hqp] using hpar⟩
  · intro q hqi hs
    rcases eq_or_ne q p with rfl | hne
    · rcases hState with he | he | ⟨-, hpc, r, hr, ha⟩
      · simp [state, hSelf, he, Settled, Active] at hs
      · simp [state, hSelf, he, Settled, Active] at hs
      · have hrp := hNe r (.inl ha)
        refine ⟨r, ?_, hrp, by simpa [state, hProc r hrp] using ha,
          .inr (.inl ⟨c, by simpa [hCpuSelf] using hr, ?_⟩)⟩
        · simpa [parent, hSelf, hr] using (hReturns _ hpc).2.1
        · simp [hCpuSelf, hpc, pid, hSelf, hPid]
    · obtain ⟨r, hr, hrq, ha, hl⟩ := h.child q hqi (by simpa [state, hProc q hne] using hs)
      have hrp := hNe r (.inl ha)
      refine ⟨r, by simpa [parent, hProc q hne] using hr, hrq, by simpa [state, hProc r hrp] using ha, ?_⟩
      simp only [Lineage, pid, hProc q hne, hProc r hrp, hInit, hLife]
      rcases hl with hl | ⟨c', hc', hx⟩ | hl
      · exact .inl hl
      · have hcc : c' ≠ c := by
          rintro rfl
          exact hFork _ hx
        rw [← hCpu c' hcc] at hc' hx
        exact .inr (.inl ⟨c', hc', hx⟩)
      · exact .inr (.inr hl)
  · intro q hq r hr hz
    have hrp : r ≠ p := by
      rintro rfl
      simp [state, hSelf, hNotZombie] at hz
    simp only [parent, hProc r hrp] at hr
    simp only [state, hProc r hrp] at hz
    rcases eq_or_ne q p with rfl | hqp
    · rcases hState with he | he | ⟨he, -⟩ <;> simp [InWait, state, hSelf, he] at hq
    · exact h.waits q (by simpa [InWait, state, hProc q hqp] using hq) r hr hz
  · intro q hq
    have hqp : q ≠ p := by
      rintro rfl
      simp [state, hSelf, hNotZombie] at hq
    rw [hLife]
    simpa [pid, hProc q hqp] using h.exited q (by simpa [state, hProc q hqp] using hq)

/-! ## fork returns, exit and wait -/

theorem Life.forked (h : Life m) (hc : Cpus m) {p : Slot} {x : Pid} (hpc : (m.cpu c).pc = .forked x)
    (hProc : (m.cpu c).proc = some p) : Life ((m.goto c .run).logs [.forked (m.pid p) x]) := by
  obtain ⟨hNew, r, hr, hrx, hpar⟩ := h.returns c x hpc
  have hLife : ((m.goto c .run).logs [.forked (m.pid p) x]).life = [.forked (m.pid p) x] ++ m.life :=
    List.filter_cons_of_pos rfl
  have hrUsed : m.state r ≠ .unused := by
    rcases hr with (hr | hr | hr) | hr <;> simp [hr]
  -- the process with pid `x` has its parent on processor `c`
  have hOwner (q : Slot) (hq : m.state q ≠ .unused) (hqx : m.pid q = x) : m.parent q = some p := by
    rw [h.distinct q r hq hrUsed (hqx.trans hrx.symm), hpar, hProc]
  have hCpu (c' : C) (hne : c' ≠ c) : ((m.goto c .run).logs [.forked (m.pid p) x]).cpu c' = m.cpu c' := by
    simp [goto_cpu_of_ne _ _ _ hne]
  refine h.change [.forked (m.pid p) x] rfl rfl hLife rfl (fun q hq => ⟨hq, rfl⟩) h.init.1 ?_ (by simp) ?_ ?_ ?_ ?_
    ?_ ?_ h.waits ?_
  · intro q y hq
    refine ⟨hq, ?_⟩
    rw [List.mem_singleton, Event.forked.injEq]
    rintro ⟨-, hqx⟩
    obtain rfl := h.distinct q r (by rw [show m.state q = .embryo from hq]; simp) hrUsed (hqx.trans hrx.symm)
    rw [show m.state q = .embryo from hq] at hr
    simp [Settled, Active] at hr
  · intro e he y hy
    rw [List.mem_singleton] at he
    subst he
    exact ⟨r, hrUsed, hrx.trans (Option.some.inj hy)⟩
  · exact ⟨hNew, h.ordered⟩
  · intro c' he
    rcases eq_or_ne c' c with rfl | hne
    · simp [Pc.exits] at he
    · rw [hCpu c' hne] at he ⊢
      exact h.exits c' he
  · intro c' q hq
    rcases eq_or_ne c' c with rfl | hne
    · simp at hq
    · rw [hCpu c' hne] at hq ⊢
      exact h.ready c' q hq
  · intro c' y hy
    rcases eq_or_ne c' c with rfl | hne
    · simp at hy
    · rw [hCpu c' hne] at hy ⊢
      obtain ⟨hNot, q, hq, hqy, hpar'⟩ := h.returns c' y hy
      refine ⟨fun z => ?_, q, hq, hqy, hpar'⟩
      rw [hLife, List.singleton_append, List.mem_cons, not_or, Event.forked.injEq]
      refine ⟨?_, hNot z⟩
      rintro ⟨-, rfl⟩
      have hqUsed : m.state q ≠ .unused := by
        rcases hq with (hq | hq | hq) | hq <;> simp [hq]
      have hOther : (m.cpu c').proc = some p := hpar'.symm.trans (hOwner q hqUsed hqy)
      exact hne (hc.procUnique c' c p hOther hProc)
  · intro q hq hs
    obtain ⟨s, hs, hsq, ha, hl⟩ := h.child q hq hs
    refine ⟨s, hs, hsq, ha, ?_⟩
    rw [Lineage, hLife]
    rcases hl with hl | ⟨c', hc', hx⟩ | ⟨hi, z, hz, hz'⟩
    · exact .inl (List.mem_cons_of_mem _ hl)
    · rcases eq_or_ne c' c with rfl | hne
      · obtain rfl : s = p := Option.some.inj (hc'.symm.trans hProc)
        obtain rfl : m.pid q = x := by
          rw [hpc] at hx
          exact (Pc.forked.inj hx).symm
        exact .inl (List.mem_cons_self ..)
      · exact .inr (.inl ⟨c', by rw [hCpu c' hne]; exact hc', by rw [hCpu c' hne]; exact hx⟩)
    · exact .inr (.inr ⟨hi, z, List.mem_cons_of_mem _ hz, List.mem_cons_of_mem _ hz'⟩)
  · intro q hq
    rw [hLife]
    exact List.mem_cons_of_mem _ (h.exited q hq)

omit [DecidableEq C] in
theorem life_exitEvents (m : Machine C) (c : C) (p : Slot) :
    (m.exitEvents c p).filter Event.isLife = [.exited (m.pid p)] := by
  rw [exitEvents]
  split <;> rfl

theorem Wakes.active {s s' : ProcState} (h : Ptable.Wakes s s') (hs : Active s) : Active s' := by
  rcases h with rfl | ⟨-, rfl⟩
  · exact hs
  · exact .inl rfl

theorem Wakes.eq {s s' : ProcState} (h : Ptable.Wakes s s') (hs : s' ≠ .runnable) : s = s' := by
  rcases h with rfl | ⟨-, rfl⟩
  · rfl
  · exact absurd rfl hs

theorem Life.exit (h : Life m) (hc : Cpus m) {p : Slot} (hpc : (m.cpu c).pc = .body .exit)
    (hProc : (m.cpu c).proc = some p) :
    Life (((m.withTbl (m.tbl.exit p)).goto c (.sched .exit)).logs (m.exitEvents c p)) := by
  obtain ⟨m', hm'⟩ : ∃ m', m' = ((m.withTbl (m.tbl.exit p)).goto c (.sched .exit)).logs (m.exitEvents c p) :=
    ⟨_, rfl⟩
  rw [← hm']
  have hRun : m.state p = .running := hc.running (by rw [hpc]; rfl) hProc
  have hpi : p ≠ m.tbl.initproc := fun he => h.exits c (by rw [hpc]; rfl) (he ▸ hProc)
  have hLife : m'.life = [.exited (m.pid p)] ++ m.life := by
    rw [hm', life, logs_trace, List.filter_append, life_exitEvents]
    rfl
  have hInit : m'.tbl.initproc = m.tbl.initproc := by simp [hm']
  have hCpu (c' : C) (hne : c' ≠ c) : m'.cpu c' = m.cpu c' := by
    simp [hm', goto_cpu_of_ne _ _ _ hne]
  have hPc : (m'.cpu c).pc = .sched .exit := by simp [hm']
  have hTbl : m'.tbl = m.tbl.exit p := by simp [hm']
  have hPid (q : Slot) : m'.pid q = m.pid q := by
    obtain ⟨s, -, he, -⟩ := m.tbl.exit_proc p q
    rw [pid, hTbl, he]
    rfl
  have hParent (q : Slot) : m'.parent q = if m.parent q = some p then some m.tbl.initproc else m.parent q := by
    obtain ⟨s, -, he, -⟩ := m.tbl.exit_proc p q
    rw [parent, hTbl, he]
    rfl
  have hSelf : m'.state p = .zombie := by
    obtain ⟨s, -, he, -⟩ := m.tbl.exit_proc p p
    rw [state, hTbl, he]
    simp
  have hWakes (q : Slot) (hne : q ≠ p) : Ptable.Wakes (m.state q) (m'.state q) := by
    obtain ⟨s, hs, he, -⟩ := m.tbl.exit_proc p q
    rw [state, state, hTbl, he]
    simpa [hne] using hs
  have hNotForked (c' : C) (x : Pid) (hx : (m.cpu c').pc = .forked x ∨ (m.cpu c').pc = .ready p) : c' ≠ c := by
    rintro rfl
    simp [hpc] at hx
  have hOwn (c' : C) (hne : c' ≠ c) : (m.cpu c').proc ≠ some p := fun he =>
    hne (hc.procUnique c' c p he hProc)
  have hSettled (q : Slot) (hq : Settled (m.state q)) : Settled (m'.state q) := by
    rcases eq_or_ne q p with rfl | hne
    · exact .inr hSelf
    · rcases hq with hq | hq
      · exact .inl (Wakes.active (hWakes q hne) hq)
      · rcases hWakes q hne with he | ⟨he, -⟩
        · exact .inr (he.trans hq)
        · simp [hq] at he
  have hActive (q : Slot) (hne : q ≠ p) (hq : Active (m.state q)) : Active (m'.state q) :=
    Wakes.active (hWakes q hne) hq
  refine h.change [.exited (m.pid p)] hInit (by simp [hm']) hLife rfl ?_ (hActive _ hpi.symm h.init.1) ?_ (by simp)
    ?_ h.ordered ?_ ?_ ?_ ?_ ?_ ?_
  · intro q hq
    refine ⟨?_, hPid q⟩
    rcases eq_or_ne q p with rfl | hne
    · simp [hRun]
    · rcases hWakes q hne with he | ⟨he, -⟩
      · rwa [← he]
      · simp [he]
  · intro q y hq
    have hne : q ≠ p := by
      rintro rfl
      simp [hSelf] at hq
    exact ⟨(Wakes.eq (hWakes q hne) (by simp [hq])).trans hq, by simp⟩
  · intro e he x hx
    rw [List.mem_singleton] at he
    subst he
    cases hx
  · intro c' he
    rcases eq_or_ne c' c with rfl | hne
    · simp [hPc, Pc.exits] at he
    · rw [hCpu c' hne] at he ⊢
      exact h.exits c' he
  · intro c' q hq
    rcases eq_or_ne c' c with rfl | hne
    · simp [hPc] at hq
    · rw [hCpu c' hne] at hq ⊢
      have hr := h.ready c' q hq
      rw [hParent, if_neg (by rw [hr]; exact hOwn c' hne), hr]
  · intro c' x hx
    rcases eq_or_ne c' c with rfl | hne
    · simp [hPc] at hx
    · rw [hCpu c' hne] at hx ⊢
      obtain ⟨hNot, q, hq, hqx, hpar⟩ := h.returns c' x hx
      refine ⟨fun z => by simpa [hLife] using hNot z, q, hSettled q hq, (hPid q).trans hqx, ?_⟩
      rw [hParent, if_neg (by rw [hpar]; exact hOwn c' hne), hpar]
  · intro q hqi hs
    have hs' : Settled (m.state q) := by
      rcases eq_or_ne q p with rfl | hne
      · exact .inl (.inr (.inl hRun))
      · rcases hWakes q hne with he | ⟨he, -⟩
        · rwa [he] at hs
        · exact .inl (.inr (.inr he))
    obtain ⟨r, hr, hrq, ha, hl⟩ := h.child q hqi hs'
    rw [hParent]
    rcases eq_or_ne r p with rfl | hrp
    · -- a child of the process that exits: its parent is `init` now
      refine ⟨m.tbl.initproc, if_pos hr, hqi.symm, hActive _ hpi.symm h.init.1, ?_⟩
      rw [Lineage, hPid, hPid, hLife, hInit]
      rcases hl with hl | ⟨c', hc', hx⟩ | ⟨hi, -⟩
      · exact .inr (.inr ⟨rfl, m.pid r, List.mem_cons_of_mem _ hl, List.mem_cons_self ..⟩)
      · obtain rfl := hc.procUnique c' c r hc' hProc
        simp [hpc] at hx
      · exact absurd hi hpi
    · refine ⟨r, ?_, hrq, hActive r hrp ha, ?_⟩
      · rw [if_neg (by rw [hr]; simpa using hrp), hr]
      rw [Lineage, hPid, hPid, hLife, hInit]
      rcases hl with hl | ⟨c', hc', hx⟩ | ⟨hi, z, hz, hz'⟩
      · exact .inl (List.mem_cons_of_mem _ hl)
      · have hne := hNotForked c' _ (.inl hx)
        rw [← hCpu c' hne] at hc' hx
        exact .inr (.inl ⟨c', hc', hx⟩)
      · exact .inr (.inr ⟨hi, z, List.mem_cons_of_mem _ hz, List.mem_cons_of_mem _ hz'⟩)
  · intro q hq r hr hz
    have hqp : q ≠ p := by
      rintro rfl
      simp [InWait, hSelf] at hq
    -- a sleeper that `exit` left asleep waits for neither of the zombies
    obtain ⟨s, hs, he, hne⟩ := m.tbl.exit_proc p q
    have hChan : (m.tbl.proc q).chan = some (.proc q) := by
      have h' := hq.2
      rwa [hTbl, he] at h'
    have hsl : s = .sleeping := by
      have h' := hq.1
      rw [state, hTbl, he] at h'
      simpa [hqp] using h'
    have hInWait : m.InWait q := ⟨(Wakes.eq hs (by simp [hsl])).trans hsl, hChan⟩
    obtain ⟨hNotParent, hNotInit⟩ := hne hsl
    rw [hParent] at hr
    rcases eq_or_ne r p with rfl | hrp
    · obtain ⟨t, ht, htr, -, -⟩ := h.child r hpi (.inl (.inr (.inl hRun)))
      rw [if_neg (by rw [ht]; simpa using htr)] at hr
      have hr' : (m.tbl.proc r).parent = some q := hr
      rw [hr', hChan] at hNotParent
      exact hNotParent rfl
    · have hzr : m.state r = .zombie := (Wakes.eq (hWakes r hrp) (by simp [hz])).trans hz
      split at hr
      · rename_i hrc
        obtain rfl : m.tbl.initproc = q := Option.some.inj hr
        exact hNotInit hChan r hrc hzr
      · exact h.waits q hInWait r hr hzr
  · intro q hq
    rw [hPid, hLife]
    rcases eq_or_ne q p with rfl | hne
    · exact List.mem_cons_self ..
    · exact List.mem_cons_of_mem _ (h.exited q ((Wakes.eq (hWakes q hne) (by simp [hq])).trans hq))

theorem Life.reaped (h : Life m) (hc : Cpus m) {p q : Slot} (hpc : (m.cpu c).pc = .body .wait)
    (hProc : (m.cpu c).proc = some p) (hq : m.parent q = some p) (hz : m.state q = .zombie) :
    Life (((m.withTbl (m.tbl.set q Ptable.reapSlot)).goto c (.leave .run)).logs
      [.reaped (m.pid p) (m.pid q) q]) := by
  obtain ⟨m', hm'⟩ : ∃ m', m' = ((m.withTbl (m.tbl.set q Ptable.reapSlot)).goto c (.leave .run)).logs
      [.reaped (m.pid p) (m.pid q) q] := ⟨_, rfl⟩
  rw [← hm']
  have hLife : m'.life = [.reaped (m.pid p) (m.pid q) q] ++ m.life := by
    rw [hm']
    exact List.filter_cons_of_pos rfl
  have hInit : m'.tbl.initproc = m.tbl.initproc := by
    rw [hm']
    rfl
  have hSlot (r : Slot) (hne : r ≠ q) : m'.tbl.proc r = m.tbl.proc r := by
    simp [hm', Ptable.set_proc_of_ne _ _ hne]
  have hSelf : m'.state q = .unused := by
    simp [hm', state, Ptable.reapSlot]
  have hCpu (c' : C) (hne : c' ≠ c) : m'.cpu c' = m.cpu c' := by
    simp [hm', goto_cpu_of_ne _ _ _ hne]
  have hPc : (m'.cpu c).pc = .leave .run := by
    simp [hm']
  have hActiveNe (r : Slot) (hr : Active (m.state r)) : r ≠ q := by
    rintro rfl
    simp [hz, Active] at hr
  have hSettledNe (r : Slot) (hr : Settled (m'.state r)) : r ≠ q := by
    rintro rfl
    simp [hSelf, Settled, Active] at hr
  have hqi : q ≠ m.tbl.initproc := (hActiveNe _ h.init.1).symm
  have hLineage : .forked (m.pid p) (m.pid q) ∈ m.life ∨
      m.pid p = 1 ∧ ∃ z, .forked z (m.pid q) ∈ m.life ∧ .exited z ∈ m.life := by
    obtain ⟨r, hr, -, -, hl⟩ := h.child q hqi (.inr hz)
    obtain rfl : p = r := Option.some.inj (hq.symm.trans hr)
    rcases hl with hl | ⟨c', hc', hx⟩ | ⟨hi, hl⟩
    · exact .inl hl
    · obtain rfl := hc.procUnique c' c p hc' hProc
      simp [hpc] at hx
    · exact .inr ⟨by rw [hi]; exact h.init.2, hl⟩
  refine h.change [.reaped (m.pid p) (m.pid q) q] hInit (by rw [hm']; rfl) hLife rfl ?_ ?_ ?_ ?_ ?_ ?_ ?_ ?_ ?_ ?_
    ?_ ?_
  · intro r hr
    have hrq : r ≠ q := by
      rintro rfl
      exact hr hSelf
    exact ⟨by simpa [state, hSlot r hrq] using hr, by simp [pid, hSlot r hrq]⟩
  · simpa [state, hSlot _ hqi.symm] using h.init.1
  · intro r y hr
    have hrq : r ≠ q := by
      rintro rfl
      simp [hSelf] at hr
    exact ⟨by simpa [state, hSlot r hrq] using hr, by simp⟩
  · intro r a s hr
    have hrq : r ≠ q := by
      rintro rfl
      exact hr hSelf
    rw [List.mem_singleton, Event.reaped.injEq]
    rintro ⟨-, he, -⟩
    exact hrq (h.distinct r q (by simpa [state, hSlot r hrq] using hr) (by simp [hz]) he)
  · intro e he y hy
    rw [List.mem_singleton] at he
    subst he
    exact ⟨q, by simp [hz], Option.some.inj hy⟩
  · exact ⟨⟨fun b r => h.unreaped q b r (by simp [hz]), h.exited q hz, hLineage⟩, h.ordered⟩
  · intro c' he
    rcases eq_or_ne c' c with rfl | hne
    · simp [hPc, Pc.exits] at he
    · rw [hCpu c' hne] at he ⊢
      exact h.exits c' he
  · intro c' r hr
    rcases eq_or_ne c' c with rfl | hne
    · simp [hPc] at hr
    · rw [hCpu c' hne] at hr ⊢
      have hrq : r ≠ q := by
        rintro rfl
        have he := hc.embryo c' r (by rw [hr]; rfl)
        simp [hz] at he
      simpa [parent, hSlot r hrq] using h.ready c' r hr
  · intro c' y hy
    rcases eq_or_ne c' c with rfl | hne
    · simp [hPc] at hy
    · rw [hCpu c' hne] at hy ⊢
      obtain ⟨hNot, r, hr, hry, hpar⟩ := h.returns c' y hy
      have hrq : r ≠ q := by
        rintro rfl
        exact hne (hc.procUnique c' c p (hpar.symm.trans hq) hProc)
      refine ⟨fun z => by simpa [hLife] using hNot z, r, ?_, ?_, ?_⟩
      · simpa [state, hSlot r hrq] using hr
      · simpa [pid, hSlot r hrq] using hry
      · simpa [parent, hSlot r hrq] using hpar
  · intro r hri hs
    have hrq := hSettledNe r hs
    obtain ⟨s, hs, hsr, ha, hl⟩ := h.child r hri (by simpa [state, hSlot r hrq] using hs)
    have hsq := hActiveNe s ha
    refine ⟨s, by simpa [parent, hSlot r hrq] using hs, hsr, by simpa [state, hSlot s hsq] using ha, ?_⟩
    simp only [Lineage, pid, hSlot r hrq, hSlot s hsq, hInit, hLife]
    rcases hl with hl | ⟨c', hc', hx⟩ | ⟨hi, z, hz, hz'⟩
    · exact .inl (List.mem_cons_of_mem _ hl)
    · have hne : c' ≠ c := by
        rintro rfl
        simp [hpc] at hx
      rw [← hCpu c' hne] at hc' hx
      exact .inr (.inl ⟨c', hc', hx⟩)
    · exact .inr (.inr ⟨hi, z, List.mem_cons_of_mem _ hz, List.mem_cons_of_mem _ hz'⟩)
  · intro r hr s hs hsz
    have hrq := hSettledNe r (.inl (.inr (.inr hr.1)))
    have hsq := hSettledNe s (.inr hsz)
    simp only [parent, hSlot s hsq] at hs
    simp only [state, hSlot s hsq] at hsz
    exact h.waits r (by simpa [InWait, state, hSlot r hrq] using hr) s hs hsz
  · intro r hr
    have hrq := hSettledNe r (.inr hr)
    rw [hLife]
    simpa [pid, hSlot r hrq] using h.exited r (by simpa [state, hSlot r hrq] using hr)

theorem Life.wakes (h : Life m) {t : Ptable} {pc : Pc} (es : List (Event C))
    (hProc : ∀ p, ∃ s k, Ptable.Wakes (m.state p) s ∧ t.proc p = { m.tbl.proc p with state := s, killed := k })
    (hInit : t.initproc = m.tbl.initproc) (hNext : t.nextpid = m.tbl.nextpid)
    (hEvents : es.filter Event.isLife = []) (hFork : (m.cpu c).pc.forking = false)
    (hFork' : pc.forking = false) (hExits : pc.exits = false) :
    Life (((m.withTbl t).goto c pc).logs es) := by
  refine h.keeps (c := c) hInit hNext (by simp [life, hEvents]) (fun p => ?_) (fun p => ?_) (fun p => ?_)
    (fun p hp => .inl ?_) (fun c' hne => by simp [goto_cpu_of_ne _ _ _ hne]) (.inr ⟨hFork, by simpa using hFork'⟩)
    (by simp [hExits])
  · obtain ⟨s, k, hs, he⟩ := hProc p
    simp only [state, logs_tbl, goto_tbl, withTbl_tbl, he]
    rcases hs with hs | ⟨hs, hs'⟩
    · exact .inl hs
    · exact .inr ⟨.inr (.inr hs), .inl hs'⟩
  · obtain ⟨s, k, hs, he⟩ := hProc p
    simp [pid, he]
  · obtain ⟨s, k, hs, he⟩ := hProc p
    simp [parent, he]
  · obtain ⟨s, k, hs, he⟩ := hProc p
    simp only [InWait, state, logs_tbl, goto_tbl, withTbl_tbl, he] at hp
    exact ⟨(Wakes.eq hs (by simp [hp.1])).trans hp.1, hp.2⟩

theorem Life.step (h : Life m) (hc : Cpus m) (hs : m.Step c m') (hSmall : m.forks + 2 < 2 ^ 32) : Life m' := by
  cases hs with
  | quiet m' hq => exact h.quiet hq
  | switch p hpc hp =>
    have hActive : Active (m.state p) := .inl hp
    exact h.slot [_] rfl rfl (.inr ⟨hActive, .inr (.inl rfl)⟩) (by simp) rfl (by rw [hpc]; rfl)
      rfl rfl
  | sched p k hpc hProc hncli =>
    exact h.write rfl rfl (.inl rfl) (fun hs hch => ⟨hs, hch⟩) (by rw [hpc]; rfl) rfl rfl
  | sleepBack p lk b hpc hProc =>
    exact h.write rfl rfl (.inl rfl) (by simp) (by rw [hpc]; rfl) rfl rfl
  | waitBack p b hpc hProc =>
    exact h.write rfl rfl (.inl rfl) (by simp) (by rw [hpc]; rfl) rfl rfl
  | wakeup chan irq hpc =>
    refine h.wakes [_] (fun p => ?_) rfl rfl rfl (by rw [hpc]; rfl) ?_ ?_
    · obtain ⟨s, hs, he, -⟩ := m.tbl.wakeup1_proc (some chan) p
      exact ⟨s, (m.tbl.proc p).killed, hs, he⟩
    · cases irq <;> rfl
    · cases irq <;> rfl
  | kill pid hpc =>
    exact h.wakes [] (m.tbl.kill_proc pid) (m.tbl.kill_initproc pid) (m.tbl.kill_nextpid pid) rfl
      (by rw [hpc]; rfl) rfl rfl
  | allocproc p hpc hp => exact h.allocproc hpc hp hSmall
  | yield p hpc hProc =>
    have hActive : Active (m.state p) := .inr (.inl (hc.running (by rw [hpc]; rfl) hProc))
    exact h.write rfl rfl (.inr ⟨hActive, .inl rfl⟩) (by simp) (by rw [hpc]; rfl) rfl rfl
  | exit p hpc hProc => exact h.exit hc hpc hProc
  | reaped p q hpc hProc hq hz => exact h.reaped hc hpc hProc hq hz
  | waitSleeps p hpc hProc hNone =>
    have hActive : Active (m.state p) := .inr (.inl (hc.running (by rw [hpc]; rfl) hProc))
    exact h.slot [_] rfl rfl (.inr ⟨hActive, .inr (.inr rfl)⟩) (fun _ _ => .inr hNone) rfl (by rw [hpc]; rfl)
      rfl rfl
  | sleep p chan lk hpc hProc =>
    have hActive : Active (m.state p) := .inr (.inl (hc.running (by rw [hpc]; rfl) hProc))
    exact h.slot [_] rfl rfl (.inr ⟨hActive, .inr (.inr rfl)⟩) (by simp) rfl (by rw [hpc]; rfl) rfl rfl
  | noKstack p hpc =>
    exact h.fill hc (by rw [hpc]; rfl) (by simp [hpc]) rfl rfl (.inl rfl) (by simp) (by simp)
  | noCopy p hpc =>
    exact h.fill hc (by rw [hpc]; rfl) (by simp [hpc]) rfl rfl (.inl rfl) (by simp) (by simp)
  | kstack p a hpc => exact h.write rfl rfl (.inl rfl) (fun hs hch => ⟨hs, hch⟩) (by rw [hpc]; rfl) rfl rfl
  | copy p a hpc => exact h.write rfl rfl (.inl rfl) (fun hs hch => ⟨hs, hch⟩) (by rw [hpc]; rfl) rfl rfl
  | parent p curr hpc hProc =>
    have hClaim : (m.cpu c).pc.claims = some p := by rw [hpc]; rfl
    have he := hc.embryo c p hClaim
    exact h.fill hc hClaim (by simp [hpc]) rfl rfl (.inr (.inl he)) (by simp [hProc, eq_comm]) (by simp)
  | ready p hpc =>
    obtain ⟨q, hq, hRun⟩ : m.Fits c .proc := by
      have hFits := hc.fits c
      rwa [hpc] at hFits
    have hpar := h.ready c p hpc
    refine h.fill hc (by rw [hpc]; rfl) (by simp [hpc]) rfl rfl
      (.inr (.inr ⟨rfl, rfl, q, hq, .inr (.inl hRun)⟩)) (by simp) (fun x hx => ⟨?_, hpar, rfl⟩)
    exact (Pc.forked.inj hx).symm
  | forked p pid hpc hProc => exact h.forked hc hpc hProc

omit [DecidableEq C] in
theorem Life.boot (kstack pgdir : Nat) (enabled : C → Bool) : Life (boot kstack pgdir enabled) := by
  have hOther (p : Slot) (hp : p ≠ 0) : (Machine.boot kstack pgdir enabled).state p = .unused := by
    simp [state, Machine.boot, Ptable.userinit, hp]
  refine ⟨rfl, ?_, ?_, ⟨.inl rfl, rfl⟩, by simp [Machine.boot, Pc.exits], by simp [Machine.boot],
    by simp [Machine.boot], by simp [Machine.boot, life], ?_, ?_, ?_, by simp [Machine.boot, life],
    by simp [Machine.boot, life], trivial⟩
  · intro p hp
    rcases eq_or_ne p 0 with rfl | hne
    · exact ⟨1, by omega, by omega, rfl⟩
    · exact absurd (hOther p hne) hp
  · intro p q hp hq _
    rcases eq_or_ne p 0 with rfl | hne
    · rcases eq_or_ne q 0 with rfl | hne
      · rfl
      · exact absurd (hOther q hne) hq
    · exact absurd (hOther p hne) hp
  · intro p hp hs
    simp [hOther p hp, Settled, Active] at hs
  · intro p hp q _
    rcases eq_or_ne q 0 with rfl | hne
    · simp [state, Machine.boot, Ptable.userinit]
    · simp [hOther q hne]
  · intro p hp
    rcases eq_or_ne p 0 with rfl | hne
    · simp [state, Machine.boot, Ptable.userinit] at hp
    · simp [hOther p hne] at hp

theorem Step.forks_le (hs : m.Step c m') : m.forks ≤ m'.forks := by
  obtain ⟨es, hes⟩ := hs.trace
  simp only [forks, life, hes, List.filter_append, List.countP_append]
  omega

theorem Life.exec {as : List (C × Act C)} {kstack pgdir : Nat} {enabled : C → Bool}
    (hExec : (Machine.boot kstack pgdir enabled).exec as = some m) (hForks : m.forks < 2 ^ 31) : Life m := by
  have hStep (m : Machine C) (c : C) (a : Act C) (m' : Machine C) (hs : m.step c a = some m')
      (hm : Cpus m ∧ (m.forks < 2 ^ 31 → Life m)) : Cpus m' ∧ (m'.forks < 2 ^ 31 → Life m') := by
    have hs := step_cases hs
    have hle := hs.forks_le
    exact ⟨hm.1.step hs, fun hSmall => (hm.2 (by omega)).step hm.1 hs (by omega)⟩
  have hm := exec_keeps (P := fun m => Cpus m ∧ (m.forks < 2 ^ 31 → Life m)) hStep hExec
    ⟨Cpus.boot kstack pgdir enabled, fun _ => Life.boot kstack pgdir enabled⟩
  exact hm.2 hForks

/-- In every run with fewer than `2 ^ 31` forks: processes in use have distinct pids; a pid
that `wait` returned was returned once, after its process exited, to the process whose `fork`
returned it or to `init` after that one exited; no process past `fork` other than `init` has
lost its parent, and none sleeps in `wait` while a child of it is a zombie. -/
theorem process_lifecycle (kstack pgdir : Nat) (enabled : C → Bool) (as : List (C × Act C)) (m : Machine C)
    (hExec : (Machine.boot kstack pgdir enabled).exec as = some m) (hForks : m.forks < 2 ^ 31) :
    (∀ p q, m.state p ≠ .unused → m.state q ≠ .unused → m.pid p = m.pid q → p = q) ∧
    (∀ y z x, .forked y x ∈ m.trace → .forked z x ∈ m.trace → y = z) ∧
    (∀ l₁ l₂ a x p, m.trace = l₁ ++ .reaped a x p :: l₂ →
      (∀ b q, .reaped b x q ∉ l₁ ∧ .reaped b x q ∉ l₂) ∧ .exited x ∈ l₂ ∧
      (.forked a x ∈ l₂ ∨ a = m.pid m.tbl.initproc ∧ ∃ z, .forked z x ∈ l₂ ∧ .exited z ∈ l₂)) ∧
    (m.locks .ptable = none →
      (∀ p, p ≠ m.tbl.initproc → m.state p ≠ .unused → m.state p ≠ .embryo →
        ∃ q, m.parent p = some q ∧ m.state q ≠ .unused ∧ m.state q ≠ .zombie) ∧
      ∀ p, m.InWait p → ∀ q, m.parent q = some p → m.state q ≠ .zombie) := by
  have h := Life.exec hExec hForks
  refine ⟨h.distinct, ?_, ?_, fun _ => ⟨?_, h.waits⟩⟩
  · intro y z x hy hz
    exact h.ordered.forked_unique (List.mem_filter.mpr ⟨hy, rfl⟩) (List.mem_filter.mpr ⟨hz, rfl⟩)
  · intro l₁ l₂ a x p ht
    have ho := h.ordered
    rw [life, ht, List.filter_append, List.filter_cons_of_pos rfl] at ho
    obtain ⟨⟨hOnce, hEx, hTo⟩, -⟩ := ho.of_append
    refine ⟨fun b q => ⟨fun hb => ?_, fun hb => ?_⟩, (List.mem_filter.mp hEx).1, ?_⟩
    · exact ho.not_again (List.mem_filter.mpr ⟨hb, rfl⟩)
    · exact hOnce b q (List.mem_filter.mpr ⟨hb, rfl⟩)
    · rcases hTo with hf | ⟨ha, z, hz, hz'⟩
      · exact .inl (List.mem_filter.mp hf).1
      · exact .inr ⟨ha.trans h.init.2.symm, z, (List.mem_filter.mp hz).1, (List.mem_filter.mp hz').1⟩
  · intro p hp hu he
    obtain ⟨q, hq, -, ha, -⟩ := h.child p hp (by
      generalize m.state p = s at hu he
      cases s <;> simp_all [Settled, Active])
    refine ⟨q, hq, ?_, ?_⟩
    · rcases ha with ha | ha | ha <;> simp [ha]
    · rcases ha with ha | ha | ha <;> simp [ha]

def nexts (c : Fin 4) (n : Nat) : List (Fin 4 × Act (Fin 4)) := List.replicate n (c, .next)

/-- `init` forks on the first processor, the child exits on the second, `init` reaps it. -/
def forkExitWait : List (Fin 4 × Act (Fin 4)) :=
  List.flatten [nexts 0 3, [(0, .invoke .allocproc)], nexts 0 3, [(0, .page 5), (0, .page 7)], nexts 0 3,
    nexts 1 4, [(1, .invoke .exit)], nexts 1 67, [(0, .invoke .wait)], nexts 0 3]

theorem process_lifecycle_reaped : ∃ m : Machine (Fin 4),
    (Machine.boot 1 1 fun _ => true).exec forkExitWait = some m ∧ m.forks < 2 ^ 31 ∧
    m.trace.head? = some (.reaped 1 2 1) ∧ .exited 2 ∈ m.trace.tail := by
  have hHead : ((Machine.boot 1 1 fun _ => true).exec forkExitWait).map (fun m => m.trace.head?) =
      some (some (.reaped 1 2 1)) := by decide +kernel
  have hSmall : ((Machine.boot 1 1 fun _ => true).exec forkExitWait).map (fun m => decide (m.forks < 2 ^ 31)) =
      some true := by decide +kernel
  obtain ⟨m, hm, hh⟩ := Option.map_eq_some_iff.mp hHead
  rw [hm] at hSmall
  have hForks : m.forks < 2 ^ 31 := of_decide_eq_true (Option.some.inj hSmall)
  obtain ⟨l, hl⟩ := List.head?_eq_some_iff.mp hh
  refine ⟨m, hm, hForks, hh, ?_⟩
  rw [hl]
  exact ((process_lifecycle 1 1 (fun _ => true) forkExitWait m hm hForks).2.2.1 [] l 1 2 1 hl).2.1

end Machine

end Xv6Rpi.Sched
