import Mathlib.Data.Fintype.Basic
import Mathlib.Data.List.FinRange
import Xv6Rpi.Base

/-! # The process table

The table of `proc.c` and what its functions do to it while they hold `ptable.lock`. What
they do to the processors is in the next module. A slot is named by its index; a null
pointer to a slot, to a channel or to a page is `none` or `0`. A `pid` is a C `int`, kept as
its 32 bits.
-/

namespace Xv6Rpi.Sched

def nproc : Nat := 64

abbrev Slot := Fin nproc

instance : NeZero nproc := ⟨by decide⟩

abbrev Pid := BitVec 32

inductive ProcState where
  | unused | embryo | sleeping | runnable | running | zombie
  deriving DecidableEq, Repr

/-- An address a process sleeps on: its own slot in `wait`, or one of another file. -/
inductive Chan where
  | proc (p : Slot)
  | addr (a : Nat)
  deriving DecidableEq

/-- A spin lock: `ptable.lock`, or one of another file. -/
inductive Lock where
  | ptable
  | other (a : Nat)
  deriving DecidableEq

/-- Where a process goes on when `swtch` comes back to it. -/
inductive Resume where
  | forkret
  | yield
  | sleep (lk : Nat)
  | wait
  | exit
  deriving DecidableEq

/-- The kernel stack of a process that does not run, up to its call of `swtch`: where it
goes on, and the `intena` that `sched` kept. -/
structure Context where
  resume : Resume
  intena : Bool
  deriving DecidableEq

structure Proc where
  pgdir : Nat
  kstack : Nat
  state : ProcState
  pid : Pid
  parent : Option Slot
  context : Context
  chan : Option Chan
  killed : Bool
  deriving DecidableEq

structure Ptable where
  proc : Slot → Proc
  nextpid : Pid
  initproc : Slot

def slots : List Slot := List.finRange nproc

@[simp]
theorem mem_slots (p : Slot) : p ∈ slots := List.mem_finRange p

namespace Ptable

def set (t : Ptable) (p : Slot) (f : Proc → Proc) : Ptable :=
  { t with proc := Function.update t.proc p (f (t.proc p)) }

@[simp]
theorem set_nextpid (t : Ptable) (p : Slot) (f : Proc → Proc) : (t.set p f).nextpid = t.nextpid := rfl

@[simp]
theorem set_initproc (t : Ptable) (p : Slot) (f : Proc → Proc) : (t.set p f).initproc = t.initproc := rfl

@[simp]
theorem set_proc (t : Ptable) (p : Slot) (f : Proc → Proc) : (t.set p f).proc p = f (t.proc p) := by
  simp [set]

theorem set_proc_of_ne (t : Ptable) {p q : Slot} (f : Proc → Proc) (hqp : q ≠ p) :
    (t.set p f).proc q = t.proc q := by
  simp [set, hqp]

theorem set_proc_eq (t : Ptable) (p q : Slot) (f : Proc → Proc) :
    (t.set p f).proc q = if q = p then f (t.proc q) else t.proc q := by
  rcases eq_or_ne q p with rfl | hqp
  · simp
  · simp [set_proc_of_ne t f hqp, hqp]

/-! ## allocproc and fork -/

/-- The part of `allocproc` under `ptable.lock`: the first `UNUSED` slot becomes an `EMBRYO`
with a new pid. -/
def allocproc (t : Ptable) : Option (Slot × Ptable) :=
  (slots.find? fun p => (t.proc p).state = .unused).map fun p =>
    (p, { t.set p fun q => { q with state := .embryo, pid := t.nextpid } with nextpid := t.nextpid + 1 })

/-- The rest of `allocproc`, `page` being what `alloc_page` returned. Without a page the
slot is given back as it is. -/
def allocKstack (t : Ptable) (p : Slot) (page : Nat) : Bool × Ptable :=
  if page = 0 then (false, t.set p fun q => { q with kstack := page, state := .unused })
  else (true, t.set p fun q => { q with kstack := page, context := ⟨.forkret, q.context.intena⟩ })

def forkCopy (t : Ptable) (p : Slot) (pgdir : Nat) : Bool × Ptable :=
  if pgdir = 0 then (false, t.set p fun q => { q with pgdir := pgdir, kstack := 0, state := .unused })
  else (true, t.set p fun q => { q with pgdir := pgdir })

def setParent (t : Ptable) (p curr : Slot) : Ptable := t.set p fun q => { q with parent := some curr }

def setState (t : Ptable) (p : Slot) (s : ProcState) : Ptable := t.set p fun q => { q with state := s }

/-- `fork` of the process in slot `curr`, in one piece: the pages are what `alloc_page` and
`copyuvm` return. -/
def fork (t : Ptable) (curr : Slot) (kstack pgdir : Nat) : Option Pid × Ptable :=
  match t.allocproc with
  | none => (none, t)
  | some (np, t) =>
    match t.allocKstack np kstack with
    | (false, t) => (none, t)
    | (true, t) =>
      match t.forkCopy np pgdir with
      | (false, t) => (none, t)
      | (true, t) => (some (t.proc np).pid, (t.setParent np curr).setState np .runnable)

/-! ## wakeup1, exit, wait and kill -/

def wakeup1 (t : Ptable) (chan : Option Chan) : Ptable :=
  { t with proc := fun p =>
      if (t.proc p).state = .sleeping ∧ (t.proc p).chan = chan then { t.proc p with state := .runnable }
      else t.proc p }

def passChild (curr : Slot) (t : Ptable) (p : Slot) : Ptable :=
  if (t.proc p).parent = some curr then
    let t := t.setParent p t.initproc
    if (t.proc p).state = .zombie then t.wakeup1 (some (.proc t.initproc)) else t
  else t

/-- `exit` of the process in slot `curr` from `acquire(&ptable.lock)` to `sched`. -/
def exit (t : Ptable) (curr : Slot) : Ptable :=
  let t := t.wakeup1 ((t.proc curr).parent.map .proc)
  let t := slots.foldl (passChild curr) t
  t.setState curr .zombie

inductive Waited where
  | reaped (p : Slot) (pid : Pid)
  | failed
  | sleeps
  deriving DecidableEq

def reapSlot (q : Proc) : Proc :=
  { q with kstack := 0, state := .unused, pid := 0, parent := none, killed := false }

/-- One scan of `wait`, with the stores of `sleep(curr_proc, &ptable.lock)` if it has to go
on waiting. -/
def wait (t : Ptable) (curr : Slot) : Waited × Ptable :=
  match slots.find? fun p => (t.proc p).parent = some curr ∧ (t.proc p).state = .zombie with
  | some p => (.reaped p (t.proc p).pid, t.set p reapSlot)
  | none =>
    if (!slots.any fun p => (t.proc p).parent = some curr) || (t.proc curr).killed then (.failed, t)
    else (.sleeps, t.set curr fun q => { q with chan := some (.proc curr), state := .sleeping })

def kill (t : Ptable) (pid : Pid) : Bool × Ptable :=
  match slots.find? fun p => (t.proc p).pid = pid with
  | some p =>
    (true, t.set p fun q =>
      { q with killed := true, state := if q.state = .sleeping then .runnable else q.state })
  | none => (false, t)

def userinit (kstack pgdir : Nat) : Ptable where
  proc := Function.update (fun _ => ⟨0, 0, .unused, 0, none, ⟨.forkret, false⟩, none, false⟩) 0
    ⟨pgdir, kstack, .runnable, 1, none, ⟨.forkret, false⟩, none, false⟩
  nextpid := 2
  initproc := 0

/-! ## What the loops do to a slot -/

def Wakes (s s' : ProcState) : Prop := s' = s ∨ s = .sleeping ∧ s' = .runnable

theorem Wakes.trans {s s' s'' : ProcState} (h : Wakes s s') (h' : Wakes s' s'') : Wakes s s'' := by
  rcases h with rfl | ⟨rfl, rfl⟩
  · exact h'
  · rcases h' with rfl | ⟨h', -⟩
    · exact .inr ⟨rfl, rfl⟩
    · cases h'

@[simp]
theorem wakeup1_nextpid (t : Ptable) (ch : Option Chan) : (t.wakeup1 ch).nextpid = t.nextpid := rfl

@[simp]
theorem wakeup1_initproc (t : Ptable) (ch : Option Chan) : (t.wakeup1 ch).initproc = t.initproc := rfl

theorem wakeup1_proc (t : Ptable) (ch : Option Chan) (p : Slot) : ∃ s, Wakes (t.proc p).state s ∧
    (t.wakeup1 ch).proc p = { t.proc p with state := s } ∧
    (s = .sleeping → (t.proc p).chan ≠ ch) := by
  by_cases h : (t.proc p).state = .sleeping ∧ (t.proc p).chan = ch
  · refine ⟨.runnable, .inr ⟨h.1, rfl⟩, ?_, by simp⟩
    simp [wakeup1, h]
  · refine ⟨(t.proc p).state, .inl rfl, ?_, fun hs hch => h ⟨hs, hch⟩⟩
    simp [wakeup1, h]

/-- One turn of the loop of `exit` changes states by wake-ups and the parent of its slot. -/
theorem passChild_proc (curr : Slot) (t : Ptable) (a p : Slot) : ∃ s, Wakes (t.proc p).state s ∧
    (passChild curr t a).proc p = { t.proc p with
      state := s
      parent := if p = a ∧ (t.proc p).parent = some curr then some t.initproc else (t.proc p).parent } ∧
    (s = .sleeping → (t.proc p).chan = some (.proc t.initproc) →
      (t.proc a).parent = some curr → (t.proc a).state ≠ .zombie) := by
  by_cases ha : (t.proc a).parent = some curr
  · by_cases hz : (t.proc a).state = .zombie
    · obtain ⟨s, hs, he, hne⟩ := wakeup1_proc (t.setParent a t.initproc) (some (.proc t.initproc)) p
      refine ⟨s, ?_, ?_, ?_⟩
      · rcases eq_or_ne p a with rfl | hpa
        · simpa [setParent] using hs
        · simpa [setParent, set_proc_of_ne _ _ hpa] using hs
      · rcases eq_or_ne p a with rfl | hpa
        · simpa [passChild, ha, hz, setParent] using he
        · simpa [passChild, ha, hz, setParent, set_proc_of_ne _ _ hpa, hpa] using he
      · intro hsl hch
        rcases eq_or_ne p a with rfl | hpa
        · exact absurd hch (by simpa [setParent] using hne hsl)
        · exact absurd hch (by simpa [setParent, set_proc_of_ne _ _ hpa] using hne hsl)
    · refine ⟨(t.proc p).state, .inl rfl, ?_, fun _ _ _ => hz⟩
      rcases eq_or_ne p a with rfl | hpa
      · simp [passChild, ha, hz, setParent]
      · simp [passChild, ha, hz, setParent, set_proc_of_ne _ _ hpa, hpa]
  · refine ⟨(t.proc p).state, .inl rfl, ?_, fun _ _ h => absurd h ha⟩
    rcases eq_or_ne p a with rfl | hpa
    · simp [passChild, ha]
    · simp [passChild, ha, hpa]

@[simp]
theorem passChild_initproc (curr : Slot) (t : Ptable) (a : Slot) :
    (passChild curr t a).initproc = t.initproc := by
  simp only [passChild]
  split
  · split <;> rfl
  · rfl

@[simp]
theorem passChild_nextpid (curr : Slot) (t : Ptable) (a : Slot) :
    (passChild curr t a).nextpid = t.nextpid := by
  simp only [passChild]
  split
  · split <;> rfl
  · rfl

theorem foldl_passChild_ids (curr : Slot) (l : List Slot) (t : Ptable) :
    (l.foldl (passChild curr) t).initproc = t.initproc ∧ (l.foldl (passChild curr) t).nextpid = t.nextpid := by
  induction l generalizing t with
  | nil => exact ⟨rfl, rfl⟩
  | cons a l ih => simpa using ih (passChild curr t a)

theorem foldl_passChild_proc (curr : Slot) (l : List Slot) (t : Ptable) (p : Slot) :
    ∃ s, Wakes (t.proc p).state s ∧
    (l.foldl (passChild curr) t).proc p = { t.proc p with
      state := s
      parent := if p ∈ l ∧ (t.proc p).parent = some curr then some t.initproc else (t.proc p).parent } ∧
    (s = .sleeping → (t.proc p).chan = some (.proc t.initproc) →
      ∀ a ∈ l, (t.proc a).parent = some curr → (t.proc a).state ≠ .zombie) := by
  induction l generalizing t with
  | nil => exact ⟨(t.proc p).state, .inl rfl, by simp, by simp⟩
  | cons a l ih =>
    obtain ⟨s, hs, he, hne⟩ := passChild_proc curr t a p
    obtain ⟨s', hs', he', hne'⟩ := ih (passChild curr t a)
    rw [he] at hs'
    refine ⟨s', hs.trans hs', ?_, ?_⟩
    · rw [List.foldl_cons, he', he, passChild_initproc]
      by_cases hc : (t.proc p).parent = some curr
      · rcases eq_or_ne p a with rfl | hpa
        · simp [hc]
        · simp [hc, hpa]
      · simp [hc]
    · intro hsl hch b hb hpar
      have hsl' : s = .sleeping := by
        rcases hs' with h | ⟨-, h⟩
        · exact h.symm.trans hsl
        · simp [h] at hsl
      rcases List.mem_cons.mp hb with rfl | hb
      · exact hne hsl' hch hpar
      · rcases eq_or_ne b a with rfl | hba
        · exact hne hsl' hch hpar
        · -- the turn for `a` left the parent of `b` alone and cannot have woken a zombie
          intro hz
          obtain ⟨sb, hsb, heb, -⟩ := passChild_proc curr t a b
          have hzb : sb = .zombie := by
            rcases hsb with h | ⟨h, -⟩
            · exact h.trans hz
            · simp [hz] at h
          have hch' : ((passChild curr t a).proc p).chan = some (.proc (passChild curr t a).initproc) := by
            simpa [he] using hch
          refine hne' hsl hch' b hb ?_ ?_
          · simpa [heb, hba] using hpar
          · simp [heb, hzb]

@[simp]
theorem exit_initproc (t : Ptable) (curr : Slot) : (t.exit curr).initproc = t.initproc := by
  simp only [exit, setState, set_initproc, foldl_passChild_ids, wakeup1_initproc]

@[simp]
theorem exit_nextpid (t : Ptable) (curr : Slot) : (t.exit curr).nextpid = t.nextpid := by
  simp only [exit, setState, set_nextpid, foldl_passChild_ids, wakeup1_nextpid]

/-- `exit` makes `curr` a zombie, passes its children to `init` and wakes whoever waits for
`curr` or, if there is a zombie among the children, for those of `init`. -/
theorem exit_proc (t : Ptable) (curr p : Slot) : ∃ s, Wakes (t.proc p).state s ∧
    (t.exit curr).proc p = { t.proc p with
      state := if p = curr then .zombie else s
      parent := if (t.proc p).parent = some curr then some t.initproc else (t.proc p).parent } ∧
    (s = .sleeping → (t.proc p).chan ≠ (t.proc curr).parent.map .proc ∧
      ((t.proc p).chan = some (.proc t.initproc) →
        ∀ a, (t.proc a).parent = some curr → (t.proc a).state ≠ .zombie)) := by
  let t₁ := t.wakeup1 ((t.proc curr).parent.map .proc)
  obtain ⟨s, hs, he, hne⟩ := wakeup1_proc t ((t.proc curr).parent.map .proc) p
  obtain ⟨s', hs', he', hne'⟩ := foldl_passChild_proc curr slots t₁ p
  have het : t₁.proc p = { t.proc p with state := s } := he
  rw [het] at hs'
  refine ⟨s', hs.trans hs', ?_, ?_⟩
  · have hExit : (t.exit curr).proc p =
        ((slots.foldl (passChild curr) t₁).setState curr .zombie).proc p := by
      simp only [exit, t₁]
    rw [hExit, setState, set_proc_eq, he', het]
    rcases eq_or_ne p curr with rfl | hpc
    · simp [t₁]
    · simp [t₁, hpc]
  · intro hsl
    have hsl' : s = .sleeping := by
      rcases hs' with h | ⟨-, h⟩
      · exact h.symm.trans hsl
      · simp [h] at hsl
    refine ⟨hne hsl', fun hch a hpar hz => ?_⟩
    obtain ⟨sa, hsa, hea, -⟩ := wakeup1_proc t ((t.proc curr).parent.map .proc) a
    have heta : t₁.proc a = { t.proc a with state := sa } := hea
    have hza : sa = .zombie := by
      rcases hsa with h | ⟨h, -⟩
      · exact h.trans hz
      · simp [hz] at h
    refine hne' hsl ?_ a (mem_slots a) ?_ ?_
    · rw [het]
      exact hch
    · rw [heta]
      exact hpar
    · rw [heta]
      exact hza

theorem allocproc_eq_some {t t' : Ptable} {p : Slot} (h : t.allocproc = some (p, t')) :
    (t.proc p).state = .unused ∧
    t' = { t.set p fun q => { q with state := .embryo, pid := t.nextpid } with nextpid := t.nextpid + 1 } := by
  simp only [allocproc, Option.map_eq_some_iff, Prod.mk.injEq] at h
  obtain ⟨q, hq, rfl, rfl⟩ := h
  exact ⟨by simpa using List.find?_some hq, rfl⟩

theorem wait_cases (t : Ptable) (curr : Slot) :
    (∃ p, (t.proc p).parent = some curr ∧ (t.proc p).state = .zombie ∧
      t.wait curr = (.reaped p (t.proc p).pid, t.set p reapSlot)) ∨
    (∀ p, (t.proc p).parent = some curr → (t.proc p).state ≠ .zombie) ∧
      (t.wait curr = (.failed, t) ∨ t.wait curr =
        (.sleeps, t.set curr fun q => { q with chan := some (.proc curr), state := .sleeping })) := by
  rw [wait]
  cases hf : slots.find? fun p => (t.proc p).parent = some curr ∧ (t.proc p).state = .zombie with
  | some p =>
    have hp := List.find?_some hf
    simp only [decide_eq_true_eq] at hp
    exact .inl ⟨p, hp.1, hp.2, rfl⟩
  | none =>
    refine .inr ⟨fun p hp hz => ?_, ?_⟩
    · simpa [hp, hz] using List.find?_eq_none.mp hf p (mem_slots p)
    · dsimp only
      split
      · exact .inl rfl
      · exact .inr rfl

theorem kill_proc (t : Ptable) (pid : Pid) (p : Slot) : ∃ s k, Wakes (t.proc p).state s ∧
    (t.kill pid).2.proc p = { t.proc p with state := s, killed := k } := by
  rw [kill]
  cases slots.find? fun p => (t.proc p).pid = pid with
  | none => exact ⟨_, (t.proc p).killed, .inl rfl, rfl⟩
  | some q =>
    rcases eq_or_ne p q with rfl | hpq
    · refine ⟨if (t.proc p).state = .sleeping then .runnable else (t.proc p).state, true, ?_, ?_⟩
      · split
        · exact .inr ⟨‹_›, rfl⟩
        · exact .inl rfl
      · simp
    · exact ⟨_, (t.proc p).killed, .inl rfl, by simp [set_proc_of_ne _ _ hpq]⟩

@[simp]
theorem kill_initproc (t : Ptable) (pid : Pid) : (t.kill pid).2.initproc = t.initproc := by
  rw [kill]
  split <;> rfl

@[simp]
theorem kill_nextpid (t : Ptable) (pid : Pid) : (t.kill pid).2.nextpid = t.nextpid := by
  rw [kill]
  split <;> rfl

end Ptable

end Xv6Rpi.Sched
