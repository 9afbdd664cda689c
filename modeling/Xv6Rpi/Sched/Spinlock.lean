import Mathlib.Logic.Function.Basic
import Mathlib.Logic.Relation

/-! # Spin locks

`acquire` and `release`, one instruction of one CPU after another. An exclusive load sets the monitor of the CPU, every store to the
word clears the monitors, and the exclusive store is only done while the monitor is set; a monitor may be cleared at any time. `WFE`
waits for the event that the `SEV` of a release signals to all CPUs. Neither function checks who holds the lock.
-/

namespace Xv6Rpi.Locks

variable {Cpu : Type}

structure Spinlock (Cpu : Type) where
  locked : Nat
  cpu : Option Cpu

def initlock : Spinlock Cpu := ⟨0, none⟩

/-- The instruction that a CPU executes next; `out` is outside of both functions. -/
inductive Pc where
  | out
  | ldrex
  | wfe
  | strex
  | setCpu
  | clearCpu
  | clearLocked
  | sev
  deriving DecidableEq

/-- `inside` is not read by the code: the CPU has stored 1 and not yet stored 0. -/
structure Machine (Cpu : Type) where
  lk : Spinlock Cpu
  pc : Cpu → Pc
  monitor : Cpu → Bool
  event : Cpu → Bool
  inside : Cpu → Bool

/-- `lose` clears a monitor and `wake` ends a `WFE` without an event, as the architecture allows. -/
inductive Act (Cpu : Type) where
  | acquire (c : Cpu)
  | release (c : Cpu)
  | step (c : Cpu)
  | lose (c : Cpu)
  | wake (c : Cpu)

section Steps

variable [DecidableEq Cpu]

def holding (lk : Spinlock Cpu) (currCpu : Cpu) : Bool := lk.locked != 0 && lk.cpu == some currCpu

def Machine.goto (s : Machine Cpu) (c : Cpu) (pc : Pc) : Machine Cpu := { s with pc := Function.update s.pc c pc }

/-- The next instruction of a CPU; `none` if it is outside of the functions or has to wait. -/
def Machine.instr (s : Machine Cpu) (c : Cpu) : Option (Machine Cpu) :=
  match s.pc c with
  | .out => none
  | .ldrex =>
    some ({ s with monitor := Function.update s.monitor c true }.goto c (if s.lk.locked = 0 then .strex else .wfe))
  | .wfe => if s.event c then some ({ s with event := Function.update s.event c false }.goto c .ldrex) else none
  | .strex =>
    if s.monitor c then
      some ({ s with
        lk := { s.lk with locked := 1 }
        monitor := fun _ => false
        inside := Function.update s.inside c true }.goto c .setCpu)
    else some (s.goto c .ldrex)
  | .setCpu => some ({ s with lk := { s.lk with cpu := some c } }.goto c .out)
  | .clearCpu => some ({ s with lk := { s.lk with cpu := none } }.goto c .clearLocked)
  | .clearLocked =>
    some ({ s with
      lk := { s.lk with locked := 0 }
      monitor := fun _ => false
      inside := Function.update s.inside c false }.goto c .sev)
  | .sev => some ({ s with event := fun _ => true }.goto c .out)

def Machine.step (s : Machine Cpu) : Act Cpu → Option (Machine Cpu)
  | .acquire c => if s.pc c = .out then some (s.goto c .ldrex) else none
  | .release c => if s.pc c = .out then some (s.goto c .clearCpu) else none
  | .step c => s.instr c
  | .lose c => some { s with monitor := Function.update s.monitor c false }
  | .wake c => if s.pc c = .wfe then some (s.goto c .ldrex) else none

/-- A lock that has been initialised and that no CPU uses yet. -/
structure Machine.Fresh (s : Machine Cpu) : Prop where
  lk : s.lk = initlock
  pc : ∀ c, s.pc c = .out
  inside : ∀ c, s.inside c = false

/-- The lock is only released by a CPU that holds it, which the code does not check. -/
def Machine.Orderly (s : Machine Cpu) (a : Act Cpu) : Prop := ∀ c, a = .release c → s.inside c = true

def Next (s s' : Machine Cpu) : Prop := ∃ a, s.Orderly a ∧ s.step a = some s'

abbrev Runs : Machine Cpu → Machine Cpu → Prop := Relation.ReflTransGen Next

end Steps

def Pc.Spins (pc : Pc) : Prop := pc = .ldrex ∨ pc = .wfe ∨ pc = .strex

structure Exclusive (s : Machine Cpu) : Prop where
  one : ∀ c d, s.inside c = true → s.inside d = true → c = d
  word : s.lk.locked ≠ 0 ↔ ∃ c, s.inside c = true
  within : ∀ c, s.pc c = .setCpu ∨ s.pc c = .clearCpu ∨ s.pc c = .clearLocked → s.inside c = true
  reserved : ∀ c, s.pc c = .strex → s.monitor c = true → s.lk.locked = 0
  owner : ∀ c, s.lk.cpu = some c ↔ s.inside c = true ∧ s.pc c ≠ .setCpu ∧ s.pc c ≠ .clearLocked
  waits : ∀ c, s.pc c = .wfe → s.event c = false → s.lk.locked ≠ 0 ∨ ∃ d, s.pc d = .sev

section Start

variable {s : Machine Cpu}

theorem Machine.Fresh.exclusive (h : s.Fresh) : Exclusive s where
  one c d hc _ := by
    rw [h.inside] at hc
    cases hc
  word := by
    rw [h.lk]
    constructor
    · exact fun hNe => absurd rfl hNe
    · rintro ⟨c, hc⟩
      rw [h.inside] at hc
      cases hc
  within c hc := by
    rw [h.pc] at hc
    rcases hc with hc | hc | hc <;> cases hc
  reserved c hc := by
    rw [h.pc] at hc
    cases hc
  owner c := by
    rw [h.lk, h.inside]
    constructor
    · rintro ⟨⟩
    · rintro ⟨⟨⟩, _⟩
  waits c hc := by
    rw [h.pc] at hc
    cases hc

theorem Exclusive.setMonitor (h : Exclusive s) {monitor : Cpu → Bool}
    (hMonitor : ∀ d, s.pc d = .strex → monitor d = true → s.monitor d = true) : Exclusive { s with monitor := monitor } :=
  ⟨h.one, h.word, h.within, fun d hd hm => h.reserved d hd (hMonitor d hd hm), h.owner, h.waits⟩

theorem Exclusive.setEvent (h : Exclusive s) {event : Cpu → Bool}
    (hEvent : ∀ d, s.pc d = .wfe → event d = false → s.event d = false) : Exclusive { s with event := event } :=
  ⟨h.one, h.word, h.within, h.reserved, h.owner, fun d hd he => h.waits d hd (hEvent d hd he)⟩

end Start

section Steps

variable [DecidableEq Cpu] {s s' : Machine Cpu} {c d : Cpu} {pc : Pc}

@[simp] theorem goto_lk : (s.goto c pc).lk = s.lk := rfl
@[simp] theorem goto_monitor : (s.goto c pc).monitor = s.monitor := rfl
@[simp] theorem goto_event : (s.goto c pc).event = s.event := rfl
@[simp] theorem goto_inside : (s.goto c pc).inside = s.inside := rfl
@[simp] theorem goto_pc_self : (s.goto c pc).pc c = pc := Function.update_self ..
theorem goto_pc_of_ne (h : d ≠ c) : (s.goto c pc).pc d = s.pc d := Function.update_of_ne h ..

/-- A CPU goes on without a change of the lock. -/
theorem Exclusive.goto (h : Exclusive s) (hNow : s.pc c ≠ .setCpu ∧ s.pc c ≠ .clearLocked ∧ s.pc c ≠ .sev)
    (hPc : pc ≠ .setCpu ∧ pc ≠ .clearLocked) (hClear : pc = .clearCpu → s.inside c = true)
    (hStrex : pc = .strex → s.monitor c = true → s.lk.locked = 0) (hWfe : pc = .wfe → s.lk.locked ≠ 0) :
    Exclusive (s.goto c pc) where
  one := h.one
  word := h.word
  within d hd := by
    by_cases hEq : d = c
    · rw [hEq, goto_pc_self] at hd
      rw [hEq]
      exact hClear (hd.resolve_left hPc.1 |>.resolve_right hPc.2)
    · rw [goto_pc_of_ne hEq] at hd
      exact h.within d hd
  reserved d hd hMonitor := by
    by_cases hEq : d = c
    · rw [hEq, goto_pc_self] at hd
      rw [hEq] at hMonitor
      exact hStrex hd hMonitor
    · rw [goto_pc_of_ne hEq] at hd
      exact h.reserved d hd hMonitor
  owner d := by
    by_cases hEq : d = c
    · rw [hEq, goto_pc_self, goto_lk, goto_inside, h.owner c]
      simp only [hNow, hPc, ne_eq, not_false_eq_true, and_self, and_true]
    · rw [goto_pc_of_ne hEq]
      exact h.owner d
  waits d hd hEvent := by
    by_cases hEq : d = c
    · rw [hEq, goto_pc_self] at hd
      exact Or.inl (hWfe hd)
    · rw [goto_pc_of_ne hEq] at hd
      obtain hLocked | ⟨e, he⟩ := h.waits d hd hEvent
      · exact Or.inl hLocked
      · refine Or.inr ⟨e, ?_⟩
        have hne : e ≠ c := fun h' => hNow.2.2 (h' ▸ he)
        rw [goto_pc_of_ne hne, he]

theorem Exclusive.enter (h : Exclusive s) (hPc : s.pc c = .strex) (hMonitor : s.monitor c = true) :
    Exclusive ({ s with
      lk := { s.lk with locked := 1 }
      monitor := fun _ => false
      inside := Function.update s.inside c true }.goto c .setCpu) := by
  have hFree : ∀ d, s.inside d ≠ true := fun d hd => h.word.mpr ⟨d, hd⟩ (h.reserved c hPc hMonitor)
  have hOnly : ∀ d, Function.update s.inside c true d = true → d = c := fun d hd => by
    by_contra hne
    rw [Function.update_of_ne hne] at hd
    exact hFree d hd
  refine ⟨fun d e hd he => (hOnly d hd).trans (hOnly e he).symm, ?_, fun d hd => ?_, fun d _ hm => ?_, fun d => ?_, fun d _ _ => ?_⟩
  · exact ⟨fun _ => ⟨c, Function.update_self ..⟩, fun _ => Nat.one_ne_zero⟩
  · by_cases hEq : d = c
    · rw [hEq]
      exact Function.update_self ..
    · rw [goto_pc_of_ne hEq] at hd
      exact absurd (h.within d hd) (hFree d)
  · cases hm
  · constructor
    · intro hOwner
      exact absurd ((h.owner d).mp hOwner).1 (hFree d)
    · rintro ⟨hInside, hNe, -⟩
      rw [hOnly d hInside, goto_pc_self] at hNe
      exact absurd rfl hNe
  · exact Or.inl Nat.one_ne_zero

/-- The CPU that holds the lock writes its name into it or wipes it out. -/
theorem Exclusive.setOwner (h : Exclusive s) {cpu : Option Cpu} (hInside : s.inside c = true)
    (hPc : pc = .out ∧ cpu = some c ∨ pc = .clearLocked ∧ cpu = none) :
    Exclusive ({ s with lk := { s.lk with cpu := cpu } }.goto c pc) where
  one := h.one
  word := h.word
  within d hd := by
    by_cases hEq : d = c
    · rwa [hEq]
    · rw [goto_pc_of_ne hEq] at hd
      exact h.within d hd
  reserved d hd hMonitor := by
    by_cases hEq : d = c
    · rw [hEq, goto_pc_self] at hd
      rcases hPc with ⟨rfl, -⟩ | ⟨rfl, -⟩ <;> cases hd
    · rw [goto_pc_of_ne hEq] at hd
      exact h.reserved d hd hMonitor
  owner d := by
    by_cases hEq : d = c
    · rw [hEq, goto_pc_self]
      rcases hPc with ⟨rfl, rfl⟩ | ⟨rfl, rfl⟩
      · simpa using hInside
      · simp
    · have hOut : s.inside d ≠ true := fun hd => hEq (h.one d c hd hInside)
      constructor
      · intro hOwner
        rcases hPc with ⟨-, rfl⟩ | ⟨-, rfl⟩
        · exact absurd (Option.some.inj hOwner).symm hEq
        · cases hOwner
      · rintro ⟨hd, -⟩
        exact absurd hd hOut
  waits d hd hEvent := Or.inl (h.word.mpr ⟨c, hInside⟩)

theorem Exclusive.leave (h : Exclusive s) (hPc : s.pc c = .clearLocked) :
    Exclusive ({ s with
      lk := { s.lk with locked := 0 }
      monitor := fun _ => false
      inside := Function.update s.inside c false }.goto c .sev) := by
  have hInside := h.within c (Or.inr (Or.inr hPc))
  have hNone : ∀ d, Function.update s.inside c false d ≠ true := fun d hd => by
    by_cases hEq : d = c
    · rw [hEq, Function.update_self] at hd
      cases hd
    · rw [Function.update_of_ne hEq] at hd
      exact hEq (h.one d c hd hInside)
  refine ⟨fun d _ hd => absurd hd (hNone d), ?_, fun d hd => ?_, fun _ _ hm => ?_, fun d => ?_, fun _ _ _ => Or.inr ⟨c, goto_pc_self⟩⟩
  · constructor
    · exact fun hNe => absurd rfl hNe
    · rintro ⟨d, hd⟩
      exact absurd hd (hNone d)
  · by_cases hEq : d = c
    · rw [hEq, goto_pc_self] at hd
      rcases hd with hd | hd | hd <;> cases hd
    · rw [goto_pc_of_ne hEq] at hd
      exact absurd (h.one d c (h.within d hd) hInside) hEq
  · cases hm
  · constructor
    · intro hOwner
      obtain ⟨hd, -, hNe⟩ := (h.owner d).mp hOwner
      rw [h.one d c hd hInside, hPc] at hNe
      exact absurd rfl hNe
    · rintro ⟨hd, -⟩
      exact absurd hd (hNone d)

theorem Exclusive.signal (h : Exclusive s) (hPc : s.pc c = .sev) : Exclusive ({ s with event := fun _ => true }.goto c .out) where
  one := h.one
  word := h.word
  within d hd := by
    by_cases hEq : d = c
    · rw [hEq, goto_pc_self] at hd
      rcases hd with hd | hd | hd <;> cases hd
    · rw [goto_pc_of_ne hEq] at hd
      exact h.within d hd
  reserved d hd hMonitor := by
    by_cases hEq : d = c
    · rw [hEq, goto_pc_self] at hd
      cases hd
    · rw [goto_pc_of_ne hEq] at hd
      exact h.reserved d hd hMonitor
  owner d := by
    by_cases hEq : d = c
    · rw [hEq, goto_pc_self, goto_lk, goto_inside, h.owner c, hPc]
      simp
    · rw [goto_pc_of_ne hEq]
      exact h.owner d
  waits d hd hEvent := by cases hEvent

theorem Exclusive.instr (h : Exclusive s) (hStep : s.instr c = some s') : Exclusive s' := by
  rw [Machine.instr] at hStep
  cases hPc : s.pc c with
  | out =>
    rw [hPc] at hStep
    cases hStep
  | ldrex =>
    rw [hPc] at hStep
    obtain rfl := Option.some.inj hStep
    have hMonitor : ∀ d, s.pc d = .strex → Function.update s.monitor c true d = true → s.monitor d = true := fun d hd hm => by
      have hne : d ≠ c := by
        rintro rfl
        rw [hPc] at hd
        cases hd
      rwa [Function.update_of_ne hne] at hm
    apply (h.setMonitor hMonitor).goto
    · simp [hPc]
    · by_cases hZero : s.lk.locked = 0 <;> simp [hZero]
    · by_cases hZero : s.lk.locked = 0 <;> simp [hZero]
    · by_cases hZero : s.lk.locked = 0 <;> simp [hZero]
    · by_cases hZero : s.lk.locked = 0 <;> simp [hZero]
  | wfe =>
    rw [hPc] at hStep
    dsimp only at hStep
    split at hStep
    · obtain rfl := Option.some.inj hStep
      have hGoto : Exclusive (s.goto c .ldrex) := h.goto (by simp [hPc]) (by decide) (by simp) (by simp) (by simp)
      refine hGoto.setEvent fun d hd he => ?_
      have hne : d ≠ c := by
        rintro rfl
        rw [goto_pc_self] at hd
        cases hd
      change Function.update s.event c false d = false at he
      rwa [Function.update_of_ne hne] at he
    · cases hStep
  | strex =>
    rw [hPc] at hStep
    dsimp only at hStep
    split at hStep
    · obtain rfl := Option.some.inj hStep
      exact h.enter hPc ‹_›
    · obtain rfl := Option.some.inj hStep
      exact h.goto (by simp [hPc]) (by decide) (by simp) (by simp) (by simp)
  | setCpu =>
    rw [hPc] at hStep
    obtain rfl := Option.some.inj hStep
    exact h.setOwner (h.within c (Or.inl hPc)) (Or.inl ⟨rfl, rfl⟩)
  | clearCpu =>
    rw [hPc] at hStep
    obtain rfl := Option.some.inj hStep
    exact h.setOwner (h.within c (Or.inr (Or.inl hPc))) (Or.inr ⟨rfl, rfl⟩)
  | clearLocked =>
    rw [hPc] at hStep
    obtain rfl := Option.some.inj hStep
    exact h.leave hPc
  | sev =>
    rw [hPc] at hStep
    obtain rfl := Option.some.inj hStep
    exact h.signal hPc

theorem Exclusive.step (h : Exclusive s) {a : Act Cpu} (hOrderly : s.Orderly a) (hStep : s.step a = some s') : Exclusive s' := by
  cases a with
  | acquire c =>
    obtain ⟨hPc, hEq⟩ := Option.ite_none_right_eq_some.mp hStep
    cases hEq
    exact h.goto (by simp [hPc]) (by decide) (by simp) (by simp) (by simp)
  | release c =>
    obtain ⟨hPc, hEq⟩ := Option.ite_none_right_eq_some.mp hStep
    cases hEq
    exact h.goto (by simp [hPc]) (by decide) (fun _ => hOrderly c rfl) (by simp) (by simp)
  | step c => exact h.instr hStep
  | lose c =>
    obtain rfl := Option.some.inj hStep
    refine h.setMonitor fun d _ hm => ?_
    by_cases hEq : d = c
    · rw [hEq, Function.update_self] at hm
      cases hm
    · rwa [Function.update_of_ne hEq] at hm
  | wake c =>
    obtain ⟨hPc, hEq⟩ := Option.ite_none_right_eq_some.mp hStep
    cases hEq
    exact h.goto (by simp [hPc]) (by decide) (by simp) (by simp) (by simp)

theorem Exclusive.runs (h : Exclusive s) (hRuns : Runs s s') : Exclusive s' := by
  induction hRuns with
  | refl => exact h
  | tail _ hNext ih =>
    obtain ⟨a, hOrderly, hStep⟩ := hNext
    exact ih.step hOrderly hStep

def Act.cpu : Act Cpu → Cpu
  | .acquire c | .release c | .step c | .lose c | .wake c => c

theorem instr_other (hStep : s.instr d = some s') (hne : c ≠ d) : s'.pc c = s.pc c ∧ s'.inside c = s.inside c := by
  rw [Machine.instr] at hStep
  cases hPc : s.pc d
  all_goals rw [hPc] at hStep
  case out => cases hStep
  case wfe =>
    obtain ⟨-, hEq⟩ := Option.ite_none_right_eq_some.mp hStep
    cases hEq
    exact ⟨goto_pc_of_ne hne, rfl⟩
  case strex =>
    dsimp only at hStep
    split at hStep
    · obtain rfl := Option.some.inj hStep
      exact ⟨goto_pc_of_ne hne, Function.update_of_ne hne ..⟩
    · obtain rfl := Option.some.inj hStep
      exact ⟨goto_pc_of_ne hne, rfl⟩
  case clearLocked =>
    obtain rfl := Option.some.inj hStep
    exact ⟨goto_pc_of_ne hne, Function.update_of_ne hne ..⟩
  all_goals
    obtain rfl := Option.some.inj hStep
    exact ⟨goto_pc_of_ne hne, rfl⟩

theorem step_other {a : Act Cpu} (hStep : s.step a = some s') (hne : c ≠ a.cpu) : s'.pc c = s.pc c ∧ s'.inside c = s.inside c := by
  cases a with
  | step d => exact instr_other hStep hne
  | lose d =>
    obtain rfl := Option.some.inj hStep
    exact ⟨rfl, rfl⟩
  | acquire d | release d | wake d =>
    obtain ⟨-, hEq⟩ := Option.ite_none_right_eq_some.mp hStep
    cases hEq
    exact ⟨goto_pc_of_ne hne, rfl⟩

/-- The loop of `acquire` in a CPU that holds the lock. -/
theorem Exclusive.instr_again (h : Exclusive s) (hInside : s.inside c = true) (hSpins : (s.pc c).Spins) (hStep : s.instr c = some s') :
    s'.inside c = true ∧ (s'.pc c).Spins := by
  have hLocked : s.lk.locked ≠ 0 := h.word.mpr ⟨c, hInside⟩
  rw [Machine.instr] at hStep
  rcases hSpins with hPc | hPc | hPc
  · rw [hPc] at hStep
    obtain rfl := Option.some.inj hStep
    rw [if_neg hLocked]
    exact ⟨hInside, Or.inr (Or.inl goto_pc_self)⟩
  · rw [hPc] at hStep
    obtain ⟨-, hEq⟩ := Option.ite_none_right_eq_some.mp hStep
    cases hEq
    exact ⟨hInside, Or.inl goto_pc_self⟩
  · rw [hPc] at hStep
    dsimp only at hStep
    rw [if_neg fun hMonitor => hLocked (h.reserved c hPc hMonitor)] at hStep
    obtain rfl := Option.some.inj hStep
    exact ⟨hInside, Or.inl goto_pc_self⟩

/-- A CPU that holds the lock and acquires it again goes on spinning, whatever the others do. -/
theorem Exclusive.stuck (h : Exclusive s) (hInside : s.inside c = true) (hSpins : (s.pc c).Spins) {a : Act Cpu}
    (hStep : s.step a = some s') : s'.inside c = true ∧ (s'.pc c).Spins := by
  by_cases hCpu : c = a.cpu
  · cases a with
    | step d =>
      obtain rfl : c = d := hCpu
      exact h.instr_again hInside hSpins hStep
    | lose d =>
      obtain rfl := Option.some.inj hStep
      exact ⟨hInside, hSpins⟩
    | acquire d | release d =>
      obtain rfl : c = d := hCpu
      obtain ⟨hOut, -⟩ := Option.ite_none_right_eq_some.mp hStep
      rw [hOut] at hSpins
      rcases hSpins with hPc | hPc | hPc <;> cases hPc
    | wake d =>
      obtain rfl : c = d := hCpu
      obtain ⟨-, hEq⟩ := Option.ite_none_right_eq_some.mp hStep
      cases hEq
      exact ⟨hInside, Or.inl goto_pc_self⟩
  · obtain ⟨hPc, hIn⟩ := step_other hStep hCpu
    rw [hPc, hIn]
    exact ⟨hInside, hSpins⟩

theorem Exclusive.stuck_runs (h : Exclusive s) (hInside : s.inside c = true) (hSpins : (s.pc c).Spins) (hRuns : Runs s s') :
    s'.inside c = true ∧ (s'.pc c).Spins := by
  induction hRuns with
  | refl => exact ⟨hInside, hSpins⟩
  | tail hRuns hNext ih =>
    obtain ⟨a, -, hStep⟩ := hNext
    exact (h.runs hRuns).stuck ih.1 ih.2 hStep

/-- Instructions of any CPUs, without a `WFE` that ends on its own and with every monitor kept. -/
abbrev Executes : Machine Cpu → Machine Cpu → Prop := Relation.ReflTransGen fun s s' => ∃ c, s.instr c = some s'

theorem enters_strex (hPc : s.pc c = .strex) (hMonitor : s.monitor c = true) : ∃ s', Executes s s' ∧ s'.inside c = true := by
  refine ⟨_, .single ⟨c, by rw [Machine.instr, hPc]; exact if_pos hMonitor⟩, Function.update_self ..⟩

theorem enters_ldrex (hFree : s.lk.locked = 0) (hPc : s.pc c = .ldrex) : ∃ s', Executes s s' ∧ s'.inside c = true := by
  have hStep : s.instr c = some ({ s with monitor := Function.update s.monitor c true }.goto c .strex) := by
    rw [Machine.instr, hPc]
    dsimp only
    rw [if_pos hFree]
  obtain ⟨s', hExec, hInside⟩ := enters_strex (s := { s with monitor := Function.update s.monitor c true }.goto c .strex) (c := c)
    goto_pc_self (Function.update_self ..)
  exact ⟨s', .head ⟨c, hStep⟩ hExec, hInside⟩

theorem enters_wfe (hFree : s.lk.locked = 0) (hPc : s.pc c = .wfe) (hEvent : s.event c = true) :
    ∃ s', Executes s s' ∧ s'.inside c = true := by
  have hStep : s.instr c = some ({ s with event := Function.update s.event c false }.goto c .ldrex) := by
    rw [Machine.instr, hPc]
    exact if_pos hEvent
  obtain ⟨s', hExec, hInside⟩ := enters_ldrex (s := { s with event := Function.update s.event c false }.goto c .ldrex) (c := c)
    hFree goto_pc_self
  exact ⟨s', .head ⟨c, hStep⟩ hExec, hInside⟩

/-- A CPU that waits for a free lock can get it: no event has been missed. -/
theorem Exclusive.enters (h : Exclusive s) (hFree : s.lk.locked = 0) (hSpins : (s.pc c).Spins) :
    ∃ s', Executes s s' ∧ s'.inside c = true := by
  rcases hSpins with hPc | hPc | hPc
  · exact enters_ldrex hFree hPc
  · cases hEvent : s.event c with
    | true => exact enters_wfe hFree hPc hEvent
    | false =>
      obtain ⟨d, hSev⟩ := (h.waits c hPc hEvent).resolve_left (not_not_intro hFree)
      have hne : c ≠ d := by
        rintro rfl
        rw [hPc] at hSev
        cases hSev
      have hStep : s.instr d = some ({ s with event := fun _ => true }.goto d .out) := by rw [Machine.instr, hSev]
      obtain ⟨s', hExec, hInside⟩ := enters_wfe (s := { s with event := fun _ => true }.goto d .out) (c := c) hFree
        ((goto_pc_of_ne hne).trans hPc) rfl
      exact ⟨s', .head ⟨d, hStep⟩ hExec, hInside⟩
  · cases hMonitor : s.monitor c with
    | true => exact enters_strex hPc hMonitor
    | false =>
      have hStep : s.instr c = some (s.goto c .ldrex) := by
        rw [Machine.instr, hPc]
        dsimp only
        rw [hMonitor]
        rfl
      obtain ⟨s', hExec, hInside⟩ := enters_ldrex (s := s.goto c .ldrex) (c := c) hFree goto_pc_self
      exact ⟨s', .head ⟨c, hStep⟩ hExec, hInside⟩

theorem holding_iff (h : Exclusive s) : holding s.lk c = true ↔ s.inside c = true ∧ s.pc c ≠ .setCpu ∧ s.pc c ≠ .clearLocked := by
  rw [← h.owner c, holding, Bool.and_eq_true, bne_iff_ne, beq_iff_eq, and_iff_right_iff_imp]
  exact fun hOwner => h.word.mpr ⟨c, ((h.owner c).mp hOwner).1⟩

/-- What the lock promises. The last clause is about a CPU that holds it and acquires it again: nobody gets it any more. -/
structure Safe (s : Machine Cpu) : Prop where
  exclusive : ∀ c d, s.inside c = true → s.inside d = true → c = d
  holding : ∀ c, holding s.lk c = true ↔ s.inside c = true ∧ s.pc c ≠ .setCpu ∧ s.pc c ≠ .clearLocked
  enters : s.lk.locked = 0 → ∀ c, (s.pc c).Spins → ∃ s', Executes s s' ∧ s'.inside c = true
  again : ∀ c, s.inside c = true → (s.pc c).Spins → ∀ s', Runs s s' → (s'.pc c).Spins ∧ ∀ d, s'.inside d = true → d = c

/-- In every interleaving of any number of CPUs, as long as the lock is only released by the CPU that holds it. -/
theorem spinlock_safe (h : s.Fresh) (hRuns : Runs s s') : Safe s' := by
  have hExclusive := h.exclusive.runs hRuns
  refine ⟨hExclusive.one, fun c => holding_iff hExclusive, fun hFree c hSpins => hExclusive.enters hFree hSpins,
    fun c hInside hSpins s₂ hRuns₂ => ?_⟩
  obtain ⟨hInside₂, hSpins₂⟩ := hExclusive.stuck_runs hInside hSpins hRuns₂
  exact ⟨hSpins₂, fun d hd => (hExclusive.runs hRuns₂).one d c hd hInside₂⟩

end Steps

section Example

def fresh : Machine Bool := ⟨initlock, fun _ => .out, fun _ => false, fun _ => false, fun _ => false⟩

theorem fresh_fresh : fresh.Fresh := ⟨rfl, fun _ => rfl, fun _ => rfl⟩

def play (s : Machine Bool) : List (Act Bool) → Option (Machine Bool)
  | [] => some s
  | a :: as => (s.step a).bind fun s => play s as

def takes (c : Bool) : List (Act Bool) := [.acquire c, .step c, .step c, .step c]

theorem runs_of_play {s s' : Machine Bool} {as : List (Act Bool)} (h : play s as = some s') (hAs : ∀ c, .release c ∉ as) : Runs s s' := by
  induction as generalizing s with
  | nil =>
    cases h
    exact .refl
  | cons a as ih =>
    obtain ⟨s₁, hStep, hPlay⟩ := Option.bind_eq_some_iff.mp h
    have hOrderly : s.Orderly a := fun c hc => absurd (hc ▸ List.mem_cons_self) (hAs c)
    exact .head ⟨a, hOrderly, hStep⟩ (ih hPlay fun c hc => hAs c (List.mem_cons_of_mem a hc))

/-- One CPU has the lock and the other one waits for it. -/
theorem spinlock_safe_example : ∃ s, play fresh (takes false ++ [.acquire true, .step true]) = some s ∧ Safe s ∧
    holding s.lk false = true ∧ s.pc true = .wfe := by
  obtain ⟨s, hPlay⟩ : ∃ s, play fresh (takes false ++ [.acquire true, .step true]) = some s := ⟨_, rfl⟩
  refine ⟨s, hPlay, spinlock_safe fresh_fresh (runs_of_play hPlay fun c => by simp [takes]), ?_⟩
  cases hPlay
  exact ⟨rfl, rfl⟩

theorem release_not_holding : ∃ s, play fresh (takes false ++ [.release true, .step true, .step true, .step true] ++ takes true) = some s ∧
    s.inside false = true ∧ s.inside true = true := ⟨_, rfl, rfl, rfl⟩

end Example

end Xv6Rpi.Locks
