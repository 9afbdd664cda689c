import Xv6Rpi.Sched.Cpus

/-! # The nesting of pushcli

`ncli` and `intena` belong to a processor, and the nesting of `pushcli` to the code that runs there: to a
process, or to the loop of `scheduler` and the interrupts that come in it. Beside the machine stands, for
the statements only, the nesting of each of these, counted from what its own steps do to `ncli`, and for each
process whether interrupts were enabled at its outermost `pushcli`. No step reads them.
-/

namespace Xv6Rpi.Sched

inductive Code (C : Type) where
  | proc (p : Slot)
  | sched (c : C)
  deriving DecidableEq

/-- The code of the current process, up to `swtch`. -/
def Pc.inside : Pc → Bool
  | .sched _ => true
  | pc => pc.mode = .proc

/-- A step of the machine, or a `pushcli` or `popcli` outside of `acquire` and `release`. -/
inductive Deed (C : Type) where
  | act (a : Act C)
  | pushcli
  | popcli

/-- What ends a `pushcli` that was done before: `sleep` gives back the lock it is called with. -/
def Deed.undoes {C : Type} : Deed C → Bool
  | .popcli | .act (.release _) | .act (.invoke (.sleep _ _)) => true
  | _ => false

namespace Machine

variable {C : Type} [DecidableEq C]

def code (m : Machine C) (c : C) : Code C :=
  match (m.cpu c).pc.inside, (m.cpu c).proc with
  | true, some p => .proc p
  | _, _ => .sched c

def deed (m : Machine C) (c : C) : Deed C → Option (Machine C)
  | .act a => m.step c a
  | .pushcli =>
    if (m.cpu c).pc = .run ∨ (m.cpu c).pc = .handler then some <| m.setCpu c (pushcli (m.cpu c)) else none
  | .popcli =>
    if (m.cpu c).pc = .run ∨ (m.cpu c).pc = .handler then
      some <| m.setCpu c (popcli (m.cpu c) (m.cpu c).pc) else none

end Machine

/-- The machine with the nesting of each code, and the interrupt state at the outermost `pushcli` that a
process has done. -/
structure Nested (C : Type) where
  machine : Machine C
  depth : Code C → Int
  outer : Slot → Option Bool

namespace Nested

variable {C : Type} [DecidableEq C]

/-- After a step of `c`. A new process begins in `forkret` with `ptable.lock` handed to it: its depth is 1,
and it has done no `pushcli`. -/
def note (n : Nested C) (c : C) (m' : Machine C) : Nested C where
  machine := m'
  depth
    | .proc p =>
      if (m'.cpu c).pc = .copy p then 1
      else n.depth (.proc p) +
        if n.machine.code c = .proc p then (m'.cpu c).ncli - (n.machine.cpu c).ncli else 0
    | .sched c' =>
      n.depth (.sched c') +
        if n.machine.code c = .sched c' then (m'.cpu c).ncli - (n.machine.cpu c).ncli else 0
  outer p :=
    if (m'.cpu c).pc = .copy p then none
    else if n.machine.code c = .proc p ∧ n.depth (.proc p) = 0 ∧ (n.machine.cpu c).ncli < (m'.cpu c).ncli then
      some (n.machine.cpu c).irq
    else n.outer p

/-- The code undoes no `pushcli` but its own. -/
def WellNested (n : Nested C) (c : C) (a : Deed C) : Prop :=
  a.undoes = true → 0 < n.depth (n.machine.code c)

instance (n : Nested C) (c : C) (a : Deed C) : Decidable (n.WellNested c a) := inferInstanceAs (Decidable (_ → _))

def boot (kstack pgdir : Nat) (enabled : C → Bool) : Nested C where
  machine := Machine.boot kstack pgdir enabled
  depth x := if x = .proc 0 then 1 else 0
  outer _ := none

/-- What is reached by processors that take well-nested steps in any order. -/
inductive Reach (kstack pgdir : Nat) (enabled : C → Bool) : Nested C → Prop where
  | boot : Reach kstack pgdir enabled (boot kstack pgdir enabled)
  | step {n : Nested C} {c : C} {a : Deed C} {m' : Machine C} (hReach : Reach kstack pgdir enabled n)
      (hNested : n.WellNested c a) (hStep : n.machine.deed c a = some m') :
      Reach kstack pgdir enabled (n.note c m')

end Nested

/-! ## The invariant -/

def Pc.Nests : Pc → Int → Prop
  | .idle, d => d = 0
  | .scan _, d | .swtched _, d | .back _, d => d = 1
  | .body (.sleep _ _), d => 2 ≤ d
  | .call (.sleep _ _), d | .body _, d | .sleep _ _, d | .leave _, d => 1 ≤ d
  | .sched k, d => 1 ≤ d ∧ k ≠ .forkret
  | .panic e, _ => e ≠ .popcliInterruptible ∧ e ≠ .popcliNcli
  | _, d => 0 ≤ d

/-- What a process that comes back from `swtch` puts into `intena`. -/
def Resume.saved : Resume → Bool → Option Bool
  | .forkret, _ => none
  | _, b => some b

def Pc.filled : Pc → Option Slot
  | .copy p | .parent p | .ready p => some p
  | _ => none

namespace Machine

variable {C : Type} [DecidableEq C]

/-- The interrupt state that the process on `c` will go back to. -/
def saved (m : Machine C) (c : C) (p : Slot) : Option Bool :=
  match (m.cpu c).pc with
  | .back k => k.saved (m.tbl.proc p).context.intena
  | _ => some (m.cpu c).intena

/-- The process has given up its processor, or has not had one yet. -/
def Away (m : Machine C) (p : Slot) : Prop :=
  Left (m.state p) ∧ (∀ c, (m.cpu c).proc = some p → ∃ i, (m.cpu c).pc = .swtched i) ∨
    ∃ c, (m.cpu c).pc.filled = some p

end Machine

namespace Nested

variable {C : Type} [DecidableEq C]

/-- The nesting of the code on a processor is in `ncli`, and its outermost interrupt state in `intena`. -/
structure Place (n : Nested C) (c : C) : Prop where
  nests : (n.machine.cpu c).pc.Nests (n.machine.cpu c).ncli
  off : 0 < (n.machine.cpu c).ncli → (n.machine.cpu c).irq = false
  depth : (n.machine.cpu c).pc.mode ≠ .dead → (n.machine.cpu c).ncli = n.depth (n.machine.code c)
  waits : (n.machine.cpu c).pc.inside = true → n.depth (.sched c) = 1
  outer : ∀ p b, n.machine.code c = .proc p → 0 < (n.machine.cpu c).ncli → n.outer p = some b →
    n.machine.saved c p = some b

/-- A process without a processor has the lock of the table on its account alone. -/
structure Suspended (n : Nested C) (p : Slot) : Prop where
  depth : n.depth (.proc p) = 1
  outer : ∀ b, n.outer p = some b →
    (n.machine.tbl.proc p).context.resume.saved (n.machine.tbl.proc p).context.intena = some b

structure Inv (n : Nested C) : Prop where
  cpus : n.machine.Cpus
  place : ∀ c, n.Place c
  away : ∀ p, n.machine.Away p → n.Suspended p

end Nested

/-! ## Whose code it is -/

theorem Pc.inside_iff {pc : Pc} : pc.inside = true ↔ pc.mode = .proc ∨ ∃ k, pc = .sched k := by
  cases pc with
  | sched k => simp [inside]
  | _ => simp [inside]

def Pc.parked : Pc → Bool
  | .swtched _ => true
  | _ => false

theorem Pc.parked_iff {pc : Pc} : pc.parked = true ↔ ∃ i, pc = .swtched i := by
  cases pc with
  | swtched i => simp [parked]
  | _ => simp [parked]

theorem Pc.Moves.filled {pc pc' : Pc} (h : pc.Moves pc') :
    (pc'.parked = pc.parked ∨ pc'.parked = false) ∧ (∀ q, pc'.filled = some q → pc.filled = some q) ∧
      ∀ q, pc' = .copy q → pc = .copy q := by
  cases h with
  | stay => exact ⟨.inl rfl, fun q hq => hq, fun q hq => hq⟩
  | _ => simp [Pc.parked, Pc.filled]

theorem Pc.Takes.filled {pc pc' : Pc} {lk : Lock} (h : pc.Takes lk pc') :
    pc'.parked = false ∧ (∀ q, pc'.filled ≠ some q) ∧ ∀ q, pc' ≠ .copy q := by
  cases h with
  | _ => simp [Pc.parked, Pc.filled]

theorem Pc.Gives.filled {pc pc' : Pc} {lk : Lock} (h : pc.Gives lk pc') :
    pc'.parked = false ∧ (∀ q, pc'.filled ≠ some q) ∧ ∀ q, pc' ≠ .copy q := by
  cases h with
  | leave n => cases n <;> simp [Pc.parked, Pc.filled, Next.pc]
  | _ => simp [Pc.parked, Pc.filled]

theorem Pc.inside_of_dead {pc : Pc} (h : pc.mode = .dead) : pc.inside = false := by
  rw [Bool.eq_false_iff]
  intro hIn
  obtain hMode | ⟨k, rfl⟩ := inside_iff.mp hIn
  · rw [h] at hMode
    cases hMode
  · cases h

namespace Machine

variable {C : Type} [DecidableEq C] {m m' : Machine C} {c : C}

omit [DecidableEq C] in
theorem code_eq_proc {p : Slot} : m.code c = .proc p ↔ (m.cpu c).pc.inside = true ∧ (m.cpu c).proc = some p := by
  rw [code]
  cases (m.cpu c).pc.inside with
  | false => simp
  | true =>
    cases (m.cpu c).proc with
    | none => simp
    | some q => simp

omit [DecidableEq C] in
theorem code_of_outside (h : (m.cpu c).pc.inside = false) : m.code c = .sched c := by
  rw [code, h]

omit [DecidableEq C] in
theorem code_eq_sched {c' : C} (h : m.code c = .sched c') : c' = c := by
  rw [code] at h
  split at h
  · cases h
  · exact (Code.sched.inj h).symm

omit [DecidableEq C] in
theorem code_congr (hpc : (m'.cpu c).pc.inside = (m.cpu c).pc.inside) (hProc : (m'.cpu c).proc = (m.cpu c).proc) :
    m'.code c = m.code c := by
  rw [code, code, hpc, hProc]

omit [DecidableEq C] in
theorem Cpus.exists_proc (h : Cpus m) (hInside : (m.cpu c).pc.inside = true) :
    ∃ p, (m.cpu c).proc = some p ∧ m.code c = .proc p := by
  have hFits := h.fits c
  have hSome : ∃ p, (m.cpu c).proc = some p := by
    obtain hMode | ⟨k, hpc⟩ := Pc.inside_iff.mp hInside
    · rw [hMode] at hFits
      obtain ⟨p, hp, -⟩ := hFits
      exact ⟨p, hp⟩
    · rw [hpc] at hFits
      obtain ⟨p, hp, -⟩ := hFits
      exact ⟨p, hp⟩
  obtain ⟨p, hp⟩ := hSome
  exact ⟨p, hp, code_eq_proc.mpr ⟨hInside, hp⟩⟩

/-! ## What a step leaves alone -/

structure Frame (m : Machine C) (c : C) (m' : Machine C) : Prop where
  cpus : m'.Cpus
  cpu : ∀ c', c' ≠ c → ∃ on, m'.cpu c' = { m.cpu c' with enabled := on }
  context : ∀ q, (m'.tbl.proc q).context = (m.tbl.proc q).context ∨
    (∃ k, (m.cpu c).pc = .sched k ∧ (m.cpu c).proc = some q) ∨ (m.cpu c).pc = .kstack q
  fresh : ∀ q, (m'.cpu c).pc = .copy q → (m.cpu c).pc = .kstack q ∨ (m.cpu c).pc = .copy q
  away : ∀ q, m'.Away q → m.Away q ∨ (∃ k, (m.cpu c).pc = .sched k ∧ (m.cpu c).proc = some q ∧
    ∃ i, (m'.cpu c).pc = .swtched i) ∨ (m'.cpu c).pc = .copy q

omit [DecidableEq C] in
theorem Away.of_step {q : Slot} (hAway : m'.Away q)
    (hOther : ∀ c', c' ≠ c → ∃ on, m'.cpu c' = { m.cpu c' with enabled := on })
    (hState : Left (m'.state q) → Left (m.state q) ∨ (m.cpu c).pc.filled = some q ∨
      (m'.cpu c).proc = some q ∧ (m'.cpu c).pc.parked = false)
    (hProc : (m.cpu c).proc = some q → (m.cpu c).pc.parked = true ∨
      (m'.cpu c).proc = some q ∧ (m'.cpu c).pc.parked = false)
    (hFilled : (m'.cpu c).pc.filled = some q → (m.cpu c).pc.filled = some q) : m.Away q := by
  obtain ⟨hLeft, hParked⟩ | ⟨c', hc'⟩ := hAway
  · have hGone : ¬((m'.cpu c).proc = some q ∧ (m'.cpu c).pc.parked = false) := by
      rintro ⟨hp, hNot⟩
      rw [Pc.parked_iff.mpr (hParked c hp)] at hNot
      cases hNot
    obtain hLeft | hFilled | hHere := hState hLeft
    · refine .inl ⟨hLeft, fun c' hp => ?_⟩
      obtain rfl | hc := eq_or_ne c' c
      · obtain hHere | hHere := hProc hp
        · exact Pc.parked_iff.mp hHere
        · exact absurd hHere hGone
      · obtain ⟨on, hSame⟩ := hOther c' hc
        have hPc := hParked c' (by rw [hSame]; exact hp)
        rwa [hSame] at hPc
    · exact .inr ⟨c, hFilled⟩
    · exact absurd hHere hGone
  · obtain rfl | hc := eq_or_ne c' c
    · exact .inr ⟨c', hFilled hc'⟩
    · obtain ⟨on, hSame⟩ := hOther c' hc
      rw [hSame] at hc'
      exact .inr ⟨c', hc'⟩

omit [DecidableEq C] in
theorem Frame.of_step (hCpus : m'.Cpus) (hOther : ∀ c', c' ≠ c → m'.cpu c' = m.cpu c')
    (hContext : ∀ q, (m'.tbl.proc q).context = (m.tbl.proc q).context)
    (hState : ∀ q, Left (m'.state q) → Left (m.state q) ∨ (m.cpu c).pc.filled = some q ∨
      (m'.cpu c).proc = some q ∧ (m'.cpu c).pc.parked = false)
    (hProc : ∀ q, (m.cpu c).proc = some q → (m.cpu c).pc.parked = true ∨
      (m'.cpu c).proc = some q ∧ (m'.cpu c).pc.parked = false)
    (hFilled : ∀ q, (m'.cpu c).pc.filled = some q → (m.cpu c).pc.filled = some q)
    (hFresh : ∀ q, (m'.cpu c).pc ≠ .copy q) : Frame m c m' := by
  have hSame : ∀ c', c' ≠ c → ∃ on, m'.cpu c' = { m.cpu c' with enabled := on } :=
    fun c' hc => ⟨(m.cpu c').enabled, hOther c' hc⟩
  constructor
  · exact hCpus
  · exact hSame
  · exact fun q => .inl (hContext q)
  · exact fun q hq => absurd hq (hFresh q)
  · exact fun q hq => .inl (hq.of_step hSame (hState q) (hProc q) (hFilled q))

omit [DecidableEq C] in
/-- A step that leaves the table alone, and whose process stays. -/
theorem Frame.of_quiet (hCpus : m'.Cpus) (hTbl : m'.tbl = m.tbl)
    (hOther : ∀ c', c' ≠ c → ∃ on, m'.cpu c' = { m.cpu c' with enabled := on })
    (hProc : (m'.cpu c).proc = (m.cpu c).proc)
    (hPark : (m'.cpu c).pc.parked = (m.cpu c).pc.parked ∨ (m'.cpu c).pc.parked = false)
    (hFilled : ∀ q, (m'.cpu c).pc.filled = some q → (m.cpu c).pc.filled = some q)
    (hFresh : ∀ q, (m'.cpu c).pc = .copy q → (m.cpu c).pc = .copy q) : Frame m c m' := by
  constructor
  · exact hCpus
  · exact hOther
  · intro q
    rw [hTbl]
    exact .inl rfl
  · exact fun q hq => .inr (hFresh q hq)
  · refine fun q hq => .inl (hq.of_step hOther ?_ ?_ (hFilled q))
    · intro hLeft
      rw [state, hTbl] at hLeft
      exact .inl hLeft
    · intro hp
      cases hParked : (m.cpu c).pc.parked with
      | true => exact .inl rfl
      | false =>
        refine .inr ⟨hProc.trans hp, ?_⟩
        obtain hSame | hNot := hPark
        · exact hSame.trans hParked
        · exact hNot

theorem Quiet.frame (hCpus : m.Cpus) (hq : m.Quiet c m') : Frame m c m' := by
  have hCpus' : m'.Cpus := hCpus.quiet hq
  cases hq with
  | enable c₁ on =>
    have hEnabled (c' : C) : ∃ e, (m.setCpu c₁ { m.cpu c₁ with enabled := on }).cpu c' =
        { m.cpu c' with enabled := e } := by
      obtain rfl | hc := eq_or_ne c' c₁
      · exact ⟨on, setCpu_cpu ..⟩
      · exact ⟨(m.cpu c').enabled, setCpu_cpu_of_ne _ _ _ hc⟩
    obtain ⟨on', hHere⟩ := hEnabled c
    refine .of_quiet hCpus' rfl (fun c' _ => hEnabled c') ?_ ?_ ?_ ?_
    · rw [hHere]
    · rw [hHere]
      exact .inl rfl
    · rw [hHere]
      exact fun q hq => hq
    · rw [hHere]
      exact fun q hq => hq
  | move k hProc hncli hpc hExit =>
    obtain ⟨hPark, hFilled, hFresh⟩ := hpc.filled
    refine .of_quiet hCpus' rfl (fun c' hc => ⟨_, setCpu_cpu_of_ne _ _ _ hc⟩) ?_ ?_ ?_ ?_
    all_goals simpa only [setCpu_cpu]
  | noPgdir p hpc hp =>
    have hNone : (m.cpu c).proc = none := by
      have hFits := hCpus.fits c
      rw [hpc] at hFits
      exact hFits
    refine .of_step hCpus' (fun c' hc => setCpu_cpu_of_ne _ _ _ hc) (fun q => rfl) (fun q hLeft => .inl hLeft) ?_ ?_ ?_
    · intro q hq
      rw [hNone] at hq
      cases hq
    all_goals simp [Pc.filled]
  | swtched i hpc =>
    refine .of_step hCpus' (fun c' hc => setCpu_cpu_of_ne _ _ _ hc) (fun q => rfl) (fun q hLeft => .inl hLeft) ?_ ?_ ?_
    · exact fun q hq => .inl (by rw [hpc]; rfl)
    all_goals simp [Pc.filled]
  | take lk pc b hpc hFree =>
    obtain ⟨hPark, hFilled, hFresh⟩ := hpc.filled
    refine .of_quiet hCpus' rfl (fun c' hc => ⟨_, setCpu_cpu_of_ne _ _ _ hc⟩) ?_ ?_ ?_ ?_
    · simp
    · simp [hPark]
    · simp [hFilled]
    · simp [hFresh]
  | give lk pc b hpc =>
    have hPc : ∀ pc', pc' = pc ∨ (∃ e, pc' = .panic e) →
        pc'.parked = false ∧ (∀ q, pc'.filled ≠ some q) ∧ ∀ q, pc' ≠ .copy q := by
      rintro pc' (rfl | ⟨e, rfl⟩)
      · exact hpc.filled
      · simp [Pc.parked, Pc.filled]
    obtain ⟨hPark, hFilled, hFresh⟩ := hPc _ (popcli_pc ((m.setCpu c { m.cpu c with intena := b }).cpu c) pc)
    have hOther (c' : C) (hc : c' ≠ c) :
        ((m.setCpu c { m.cpu c with intena := b }).release c lk pc).cpu c' = m.cpu c' := by
      rw [release_cpu_of_ne _ _ _ _ hc, setCpu_cpu_of_ne _ _ _ hc]
    refine .of_quiet hCpus' rfl (fun c' hc => ⟨_, hOther c' hc⟩) (by simp) ?_ ?_ ?_
    all_goals rw [release_cpu]
    · exact .inr hPark
    · exact fun q hq => absurd hq (hFilled q)
    · exact fun q hq => absurd hq (hFresh q)

theorem Frame.of_set {p : Slot} {f : Proc → Proc} {k : Cpu} (hCpus : m'.Cpus)
    (hTbl : m'.tbl.proc = (m.tbl.set p f).proc) (hCpu : m'.cpu = Function.update m.cpu c k)
    (hContext : (f (m.tbl.proc p)).context = (m.tbl.proc p).context)
    (hLeft : Left (f (m.tbl.proc p)).state →
      Left (m.state p) ∨ (m.cpu c).pc.filled = some p ∨ k.proc = some p)
    (hProc : ∀ q, (m.cpu c).proc = some q → k.proc = some q) (hPark : k.pc.parked = false)
    (hFilled : ∀ q, k.pc.filled = some q → (m.cpu c).pc.filled = some q)
    (hFresh : ∀ q, k.pc ≠ .copy q) : Frame m c m' := by
  have hHere : m'.cpu c = k := by rw [hCpu, Function.update_self]
  have hSlot (q : Slot) : m'.tbl.proc q = if q = p then f (m.tbl.proc q) else m.tbl.proc q := by
    rw [hTbl, Ptable.set_proc_eq]
  apply Frame.of_step hCpus
  · intro c' hc
    rw [hCpu, Function.update_of_ne hc]
  · intro q
    rw [hSlot]
    split
    · next hq => rw [hq, hContext]
    · rfl
  · intro q hq
    rw [state, hSlot] at hq
    split at hq
    · next hEq =>
      subst hEq
      rw [hHere]
      obtain hLeft | hFilled | hOwn := hLeft hq
      · exact .inl hLeft
      · exact .inr (.inl hFilled)
      · exact .inr (.inr ⟨hOwn, hPark⟩)
    · exact .inl hq
  · intro q hq
    rw [hHere]
    exact .inr ⟨hProc q hq, hPark⟩
  · rw [hHere]
    exact hFilled
  · rw [hHere]
    exact hFresh

theorem Frame.of_wakes {t : Ptable} {k : Cpu} (hCpus : m'.Cpus) (hTbl : m'.tbl = t)
    (hCpu : m'.cpu = Function.update m.cpu c k)
    (hSlot : ∀ q, (t.proc q).context = (m.tbl.proc q).context ∧
      (Ptable.Wakes (m.state q) (t.proc q).state ∨ (m.cpu c).proc = some q))
    (hProc : k.proc = (m.cpu c).proc) (hPark : k.pc.parked = false) (hFilled : ∀ q, k.pc.filled ≠ some q)
    (hFresh : ∀ q, k.pc ≠ .copy q) : Frame m c m' := by
  have hHere : m'.cpu c = k := by rw [hCpu, Function.update_self]
  apply Frame.of_step hCpus
  · intro c' hc
    rw [hCpu, Function.update_of_ne hc]
  · rw [hTbl]
    exact fun q => (hSlot q).1
  · intro q hq
    rw [state, hTbl] at hq
    rw [hHere]
    obtain (hSame | ⟨hSleeping, -⟩) | hOwn := (hSlot q).2
    · rw [hSame] at hq
      exact .inl hq
    · exact .inl (.inl hSleeping)
    · exact .inr (.inr ⟨hProc.trans hOwn, hPark⟩)
  · intro q hq
    rw [hHere]
    exact .inr ⟨hProc.trans hq, hPark⟩
  · rw [hHere]
    exact fun q hq => absurd hq (hFilled q)
  · rw [hHere]
    exact hFresh

theorem Step.frame (hCpus : m.Cpus) (hs : m.Step c m') : Frame m c m' := by
  have hCpus' : m'.Cpus := hCpus.step hs
  have hNotLeft {s : ProcState} (hs : s = .running ∨ s = .unused ∨ s = .embryo) : ¬Left s := by
    obtain rfl | rfl | rfl := hs
    all_goals simp [Left]
  cases hs with
  | quiet m' hq => exact hq.frame hCpus
  | switch p hpc hp =>
    have hNone : (m.cpu c).proc = none := by
      have hFits := hCpus.fits c
      rw [hpc] at hFits
      exact hFits
    refine .of_set hCpus' rfl rfl rfl ?_ ?_ rfl ?_ ?_
    · exact fun hLeft => absurd hLeft (hNotLeft (.inl rfl))
    · simp [hNone]
    all_goals simp [Pc.filled]
  | sched p k hpc hProc hncli =>
    have hOther (c' : C) (hc : c' ≠ c) : ∃ e, ((m.withTbl (m.tbl.set p fun q =>
        { q with context := ⟨k, (m.cpu c).intena⟩ })).goto c (.swtched (m.cpu c).scheduler)).cpu c' =
          { m.cpu c' with enabled := e } := ⟨_, goto_cpu_of_ne _ _ _ hc⟩
    constructor
    · exact hCpus'
    · exact hOther
    · intro q
      obtain rfl | hNe := eq_or_ne q p
      · exact .inr (.inl ⟨k, hpc, hProc⟩)
      · left
        simp only [goto_tbl, withTbl_tbl, Ptable.set_proc_of_ne _ _ hNe]
    · simp
    · intro q hq
      obtain rfl | hNe := eq_or_ne q p
      · exact .inr (.inl ⟨k, hpc, hProc, _, by rw [goto_cpu]⟩)
      · refine .inl (hq.of_step hOther ?_ ?_ ?_)
        · intro hLeft
          rw [state, goto_tbl, withTbl_tbl, Ptable.set_proc_of_ne _ _ hNe] at hLeft
          exact .inl hLeft
        · intro hOwn
          exact absurd (Option.some.inj (hOwn.symm.trans hProc)) hNe
        · simp [Pc.filled]
  | sleepBack p lk b hpc hProc =>
    refine .of_set hCpus' rfl rfl rfl (fun hLeft => .inl hLeft) (fun q hq => hq) rfl ?_ ?_
    all_goals simp [Pc.filled]
  | waitBack p b hpc hProc =>
    refine .of_set hCpus' rfl rfl rfl (fun hLeft => .inl hLeft) (fun q hq => hq) rfl ?_ ?_
    all_goals simp [Pc.filled]
  | wakeup chan irq hpc =>
    refine .of_wakes (t := m.tbl.wakeup1 (some chan)) hCpus' rfl rfl ?_ rfl rfl ?_ ?_
    · intro q
      obtain ⟨s, hWakes, hq, -⟩ := m.tbl.wakeup1_proc (some chan) q
      rw [hq]
      exact ⟨rfl, .inl hWakes⟩
    all_goals simp [Pc.filled]
  | kill pid hpc =>
    refine .of_wakes (t := (m.tbl.kill pid).2) hCpus' rfl rfl ?_ rfl rfl ?_ ?_
    · intro q
      obtain ⟨s, b, hWakes, hq⟩ := m.tbl.kill_proc pid q
      rw [hq]
      exact ⟨rfl, .inl hWakes⟩
    all_goals simp [Pc.filled]
  | allocproc p hpc hp =>
    refine .of_set hCpus' (f := fun q => { q with state := .embryo, pid := m.tbl.nextpid }) rfl rfl rfl ?_
      (fun q hq => hq) rfl ?_ ?_
    · exact fun hLeft => absurd hLeft (hNotLeft (.inr (.inr rfl)))
    all_goals simp [Pc.filled]
  | yield p hpc hProc =>
    refine .of_set hCpus' rfl rfl rfl (fun _ => .inr (.inr hProc)) (fun q hq => hq) rfl ?_ ?_
    all_goals simp [Pc.filled]
  | exit p hpc hProc =>
    refine .of_wakes (t := m.tbl.exit p) hCpus' rfl rfl ?_ rfl rfl ?_ ?_
    · intro q
      obtain ⟨s, hWakes, hq, -⟩ := m.tbl.exit_proc p q
      rw [hq]
      refine ⟨rfl, ?_⟩
      obtain rfl | hNe := eq_or_ne q p
      · exact .inr hProc
      · simp only [if_neg hNe]
        exact .inl hWakes
    all_goals simp [Pc.filled]
  | reaped p q hpc hProc hq hz =>
    refine .of_set hCpus' rfl rfl rfl ?_ (fun q hq => hq) rfl ?_ ?_
    · exact fun hLeft => absurd hLeft (hNotLeft (.inr (.inl rfl)))
    all_goals simp [Pc.filled]
  | waitSleeps p hpc hProc hNone =>
    refine .of_set hCpus' rfl rfl rfl (fun _ => .inr (.inr hProc)) (fun q hq => hq) rfl ?_ ?_
    all_goals simp [Pc.filled]
  | sleep p chan lk hpc hProc =>
    refine .of_set hCpus' rfl rfl rfl (fun _ => .inr (.inr hProc)) (fun q hq => hq) rfl ?_ ?_
    all_goals simp [Pc.filled]
  | noKstack p hpc =>
    refine .of_set hCpus' rfl rfl rfl ?_ (fun q hq => hq) rfl ?_ ?_
    · exact fun hLeft => absurd hLeft (hNotLeft (.inr (.inl rfl)))
    all_goals simp [Pc.filled]
  | kstack p a hpc =>
    have hOther (c' : C) (hc : c' ≠ c) : ∃ e, ((m.withTbl (m.tbl.set p fun q =>
        { q with kstack := a, context := ⟨.forkret, q.context.intena⟩ })).goto c (.copy p)).cpu c' =
          { m.cpu c' with enabled := e } := ⟨_, goto_cpu_of_ne _ _ _ hc⟩
    constructor
    · exact hCpus'
    · exact hOther
    · intro q
      obtain rfl | hNe := eq_or_ne q p
      · exact .inr (.inr hpc)
      · left
        simp only [goto_tbl, withTbl_tbl, Ptable.set_proc_of_ne _ _ hNe]
    · intro q hq
      rw [goto_cpu] at hq
      obtain rfl := Pc.copy.inj hq
      exact .inl hpc
    · intro q hq
      obtain rfl | hNe := eq_or_ne q p
      · exact .inr (.inr (by rw [goto_cpu]))
      · refine .inl (hq.of_step hOther ?_ ?_ ?_)
        · intro hLeft
          rw [state, goto_tbl, withTbl_tbl, Ptable.set_proc_of_ne _ _ hNe] at hLeft
          exact .inl hLeft
        · intro hOwn
          rw [goto_cpu]
          exact .inr ⟨hOwn, rfl⟩
        · intro hFilled
          rw [goto_cpu] at hFilled
          exact absurd (Option.some.inj hFilled).symm hNe
  | noCopy p hpc =>
    refine .of_set hCpus' rfl rfl rfl ?_ (fun q hq => hq) rfl ?_ ?_
    · exact fun hLeft => absurd hLeft (hNotLeft (.inr (.inl rfl)))
    all_goals simp [Pc.filled]
  | copy p a hpc =>
    refine .of_set hCpus' rfl rfl rfl (fun hLeft => .inl hLeft) (fun q hq => hq) rfl ?_ ?_
    all_goals simp [Pc.filled, hpc]
  | parent p curr hpc hProc =>
    refine .of_set hCpus' rfl rfl rfl (fun hLeft => .inl hLeft) (fun q hq => hq) rfl ?_ ?_
    all_goals simp [Pc.filled, hpc]
  | ready p hpc =>
    refine .of_set hCpus' rfl rfl rfl (fun _ => .inr (.inl (by rw [hpc]; rfl))) (fun q hq => hq) rfl ?_ ?_
    all_goals simp [Pc.filled]
  | forked p pid hpc hProc =>
    refine .of_quiet hCpus' rfl (fun c' hc => ⟨_, goto_cpu_of_ne _ _ _ hc⟩) ?_ (.inr ?_) ?_ ?_
    all_goals simp [Pc.filled, Pc.parked]

end Machine

end Xv6Rpi.Sched
