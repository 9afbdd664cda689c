import Xv6Rpi.Sched.Table

/-! # Whom `kill` affects

Calls of `fork`, `exit`, `wait` and `kill`, one after the other. `kill` looks for its pid in
all slots, also in those that are not in use: a slot that was never used or was reaped has
pid 0, and one that a failed `fork` gave back still has its pid. Its mark then stays in the
slot until the next `fork` takes it.
-/

namespace Xv6Rpi.Sched

inductive Syscall where
  | fork (curr : Slot) (kstack pgdir : Nat)
  | exit (curr : Slot)
  | wait (curr : Slot)
  | kill (pid : Pid)

def Syscall.isFork : Syscall → Bool
  | .fork _ _ _ => true
  | _ => false

namespace Ptable

def CanCall (t : Ptable) (p : Slot) : Prop := (t.proc p).state = .runnable ∨ (t.proc p).state = .running

instance (t : Ptable) (p : Slot) : Decidable (t.CanCall p) := inferInstanceAs (Decidable (_ ∨ _))

/-- The table after a call; a `wait` may leave its caller asleep. -/
def call (t : Ptable) : Syscall → Option Ptable
  | .fork curr kstack pgdir => if t.CanCall curr then some (t.fork curr kstack pgdir).2 else none
  | .exit curr => if t.CanCall curr ∧ curr ≠ t.initproc then some (t.exit curr) else none
  | .wait curr => if t.CanCall curr then some (t.wait curr).2 else none
  | .kill pid => some (t.kill pid).2

/-- Every call of a sequence has `P`, at the table it is made at. -/
def Along (P : Ptable → Syscall → Prop) : Ptable → List Syscall → Prop
  | _, [] => True
  | t, x :: xs => P t x ∧ ∀ t', t.call x = some t' → Along P t' xs

/-- `kill` returns 0 only for a process in use, and a process that `allocproc` returns is not
marked as killed. -/
def Affects (t : Ptable) : Syscall → Prop
  | .kill pid => (t.kill pid).1 = true → ∃ p, (t.proc p).state ≠ .unused ∧ (t.proc p).pid = pid
  | .fork _ _ _ => ∀ p t', t.allocproc = some (p, t') → (t'.proc p).killed = false
  | _ => True

/-- The pid that `kill` is called with is in no slot that is not in use. -/
def NoneUnused (t : Ptable) : Syscall → Prop
  | .kill pid => ∀ p, (t.proc p).state = .unused → (t.proc p).pid ≠ pid
  | _ => True

/-- Only slots in use are marked as killed. -/
def Unmarked (t : Ptable) : Prop := ∀ p, (t.proc p).state = .unused → (t.proc p).killed = false

/-- Pids are not 0 where they are in use, and differ where they are not 0; `n` is the number
of calls of `fork` so far. -/
structure Pids (t : Ptable) (n : Nat) : Prop where
  next : ∃ k, k ≤ n ∧ t.nextpid = BitVec.ofNat 32 (k + 2) ∧
    ∀ p, ∃ j, j < k + 2 ∧ (t.proc p).pid = BitVec.ofNat 32 j
  used : ∀ p, (t.proc p).state ≠ .unused → (t.proc p).pid ≠ 0
  distinct : ∀ p q, (t.proc p).pid = (t.proc q).pid → (t.proc p).pid ≠ 0 → p = q

variable {t t' : Ptable}

/-- `fork` changes one slot, which was not in use and has the new pid afterwards. -/
theorem fork_cases (t : Ptable) (curr : Slot) (kstack pgdir : Nat) :
    (t.fork curr kstack pgdir).2 = t ∨
    ∃ p, (t.proc p).state = .unused ∧ (t.fork curr kstack pgdir).2.nextpid = t.nextpid + 1 ∧
      (∀ q, q ≠ p → (t.fork curr kstack pgdir).2.proc q = t.proc q) ∧
      ((t.fork curr kstack pgdir).2.proc p).pid = t.nextpid ∧
      ((t.fork curr kstack pgdir).2.proc p).killed = (t.proc p).killed := by
  rw [fork]
  cases hAlloc : t.allocproc with
  | none => exact .inl rfl
  | some r =>
    obtain ⟨p, t₁⟩ := r
    obtain ⟨hp, rfl⟩ := allocproc_eq_some hAlloc
    refine .inr ⟨p, hp, ?_⟩
    rcases eq_or_ne kstack 0 with rfl | hk
    · simp only [allocKstack, if_true]
      exact ⟨rfl, fun q hq => by simp [set_proc_of_ne _ _ hq], by simp, by simp⟩
    · simp only [allocKstack, if_neg hk]
      rcases eq_or_ne pgdir 0 with rfl | hg
      · simp only [forkCopy, if_true]
        exact ⟨rfl, fun q hq => by simp [set_proc_of_ne _ _ hq], by simp, by simp⟩
      · simp only [forkCopy, if_neg hg]
        exact ⟨rfl, fun q hq => by simp [setState, setParent, set_proc_of_ne _ _ hq],
          by simp [setState, setParent], by simp [setState, setParent]⟩

theorem kill_eq (t : Ptable) (pid : Pid) :
    ((t.kill pid).1 = false ∧ (∀ p, (t.proc p).pid ≠ pid) ∧ (t.kill pid).2 = t) ∨
    (t.kill pid).1 = true ∧ ∃ p, (t.proc p).pid = pid ∧ ∀ q, q ≠ p → (t.kill pid).2.proc q = t.proc q := by
  rw [kill]
  cases hf : slots.find? fun p => (t.proc p).pid = pid with
  | none =>
    refine .inl ⟨rfl, fun p hp => ?_, rfl⟩
    simpa [hp] using List.find?_eq_none.mp hf p (mem_slots p)
  | some p =>
    have hp := List.find?_some hf
    simp only [decide_eq_true_eq] at hp
    exact .inr ⟨rfl, p, hp, fun q hq => by simp [set_proc_of_ne _ _ hq]⟩

/-! ## Marks -/

theorem Unmarked.fork (h : Unmarked t) (curr : Slot) (kstack pgdir : Nat) :
    Unmarked (t.fork curr kstack pgdir).2 := by
  rcases t.fork_cases curr kstack pgdir with he | ⟨p, hp, -, hOther, -, hk⟩
  · rwa [he]
  · intro q hq
    rcases eq_or_ne q p with rfl | hne
    · rw [hk]
      exact h q hp
    · rw [hOther q hne] at hq ⊢
      exact h q hq

theorem Unmarked.call (h : Unmarked t) {x : Syscall} (hx : t.NoneUnused x) (hc : t.call x = some t') :
    Unmarked t' := by
  cases x with
  | fork curr kstack pgdir =>
    obtain ⟨-, he⟩ := Option.ite_none_right_eq_some.mp hc
    obtain rfl := Option.some.inj he
    exact h.fork curr kstack pgdir
  | exit curr =>
    obtain ⟨-, he⟩ := Option.ite_none_right_eq_some.mp hc
    obtain rfl := Option.some.inj he
    intro p hp
    obtain ⟨s, hs, he, -⟩ := t.exit_proc curr p
    rw [he] at hp ⊢
    simp only at hp ⊢
    split at hp
    · cases hp
    · rcases hs with hs | ⟨-, hs⟩
      · exact h p (hs.symm.trans hp)
      · simp [hp] at hs
  | wait curr =>
    obtain ⟨-, he⟩ := Option.ite_none_right_eq_some.mp hc
    obtain rfl := Option.some.inj he
    intro p hp
    rcases t.wait_cases curr with ⟨q, -, -, hw⟩ | ⟨-, hw | hw⟩
    · rw [hw] at hp ⊢
      rcases eq_or_ne p q with rfl | hne
      · simp [reapSlot]
      · simp only [set_proc_of_ne _ _ hne] at hp ⊢
        exact h p hp
    · rw [hw] at hp ⊢
      exact h p hp
    · rw [hw] at hp ⊢
      rcases eq_or_ne p curr with rfl | hne
      · simp at hp
      · simp only [set_proc_of_ne _ _ hne] at hp ⊢
        exact h p hp
  | kill pid =>
    obtain rfl := Option.some.inj hc
    intro p hp
    obtain ⟨s, k, hs, he⟩ := t.kill_proc pid p
    have hu : (t.proc p).state = .unused := by
      rw [he] at hp
      rcases hs with hs | ⟨-, hs⟩
      · exact hs.symm.trans hp
      · simp only [hs] at hp
        cases hp
    -- the mark went to a slot with the pid, and this one does not have it
    rcases t.kill_eq pid with ⟨-, -, hSame⟩ | ⟨-, q, hq, hOther⟩
    · rw [hSame]
      exact h p hu
    · have hne : p ≠ q := by
        rintro rfl
        exact hx p hu hq
      rw [hOther p hne]
      exact h p hu

theorem Unmarked.affects (h : Unmarked t) {x : Syscall} (hx : t.NoneUnused x) : t.Affects x := by
  cases x with
  | fork curr kstack pgdir =>
    intro p t' ha
    obtain ⟨hp, rfl⟩ := allocproc_eq_some ha
    simpa using h p hp
  | kill pid =>
    intro hk
    rcases t.kill_eq pid with ⟨hf, -, -⟩ | ⟨-, p, hp, -⟩
    · simp [hk] at hf
    · exact ⟨p, fun hu => hx p hu hp, hp⟩
  | _ => trivial

/-! ## Pids -/

theorem Pids.noneUnused {n : Nat} (h : Pids t n) {x : Syscall} (hx : t.Affects x) : t.NoneUnused x := by
  cases x with
  | kill pid =>
    intro p hu hp
    have hFound : (t.kill pid).1 = true := by
      rcases t.kill_eq pid with ⟨-, hNone, -⟩ | ⟨hk, -⟩
      · exact absurd hp (hNone p)
      · exact hk
    obtain ⟨q, hq, hqp⟩ := hx hFound
    have he : (t.proc q).pid = (t.proc p).pid := hqp.trans hp.symm
    obtain rfl := h.distinct q p he (h.used q hq)
    exact hq hu
  | _ => trivial

theorem Pids.keep {n : Nat} (h : Pids t n) (hNext : t'.nextpid = t.nextpid)
    (hPid : ∀ p, (t'.proc p).pid = (t.proc p).pid ∧ ((t'.proc p).state = .unused ↔ (t.proc p).state = .unused) ∨
      (t'.proc p).pid = 0 ∧ (t'.proc p).state = .unused) : Pids t' n := by
  have hOld (p : Slot) (hp : (t'.proc p).pid ≠ 0) : (t'.proc p).pid = (t.proc p).pid := by
    rcases hPid p with ⟨he, -⟩ | ⟨he, -⟩
    · exact he
    · exact absurd he hp
  obtain ⟨k, hk, hn, hAll⟩ := h.next
  refine ⟨⟨k, hk, hNext.trans hn, fun p => ?_⟩, fun p hp => ?_, fun p q he hp => ?_⟩
  · rcases hPid p with ⟨he, -⟩ | ⟨he, -⟩
    · rw [he]
      exact hAll p
    · exact ⟨0, by omega, he⟩
  · rcases hPid p with ⟨he, hs⟩ | ⟨-, hs⟩
    · rw [he]
      exact h.used p fun hu => hp (hs.mpr hu)
    · exact absurd hs hp
  · have hp' := hOld p hp
    have hq' := hOld q (he ▸ hp)
    exact h.distinct p q (hp'.symm.trans (he.trans hq')) (hp' ▸ hp)

theorem Pids.fork {n : Nat} (h : Pids t n) (hn : n + 2 < 2 ^ 32) (curr : Slot) (kstack pgdir : Nat) :
    Pids (t.fork curr kstack pgdir).2 (n + 1) := by
  obtain ⟨k, hk, hNext, hAll⟩ := h.next
  rcases t.fork_cases curr kstack pgdir with he | ⟨p, hp, hNext', hOther, hPid, -⟩
  · rw [he]
    exact ⟨⟨k, by omega, hNext, hAll⟩, h.used, h.distinct⟩
  · have hNew (q : Slot) : (t.proc q).pid ≠ t.nextpid := by
      obtain ⟨j, hj, he⟩ := hAll q
      rw [he, hNext]
      intro hv
      have := congrArg BitVec.toNat hv
      simp only [BitVec.toNat_ofNat] at this
      omega
    have hNeZero : t.nextpid ≠ 0 := by
      rw [hNext]
      intro hv
      have := congrArg BitVec.toNat hv
      simp only [BitVec.toNat_ofNat, BitVec.ofNat_eq_ofNat] at this
      omega
    refine ⟨⟨k + 1, by omega, ?_, fun q => ?_⟩, fun q hq => ?_, fun q r he hq => ?_⟩
    · rw [hNext', hNext, show k + 1 + 2 = (k + 2) + 1 by omega, BitVec.ofNat_add (k + 2) 1]
      rfl
    · rcases eq_or_ne q p with rfl | hne
      · exact ⟨k + 2, by omega, hPid.trans hNext⟩
      · rw [hOther q hne]
        obtain ⟨j, hj, he⟩ := hAll q
        exact ⟨j, by omega, he⟩
    · rcases eq_or_ne q p with rfl | hne
      · rw [hPid]
        exact hNeZero
      · rw [hOther q hne] at hq ⊢
        exact h.used q hq
    · rcases eq_or_ne q p with rfl | hqp
      · rcases eq_or_ne r q with rfl | hrq
        · rfl
        · rw [hPid, hOther r hrq] at he
          exact absurd he.symm (hNew r)
      · rcases eq_or_ne r p with rfl | hrp
        · rw [hPid, hOther q hqp] at he
          exact absurd he (hNew q)
        · rw [hOther q hqp, hOther r hrp] at he
          rw [hOther q hqp] at hq
          exact h.distinct q r he hq

theorem Pids.call {n : Nat} (h : Pids t n) (hn : n + 2 < 2 ^ 32) {x : Syscall} (hc : t.call x = some t') :
    Pids t' (n + if x.isFork then 1 else 0) := by
  cases x with
  | fork curr kstack pgdir =>
    obtain ⟨-, he⟩ := Option.ite_none_right_eq_some.mp hc
    obtain rfl := Option.some.inj he
    exact h.fork hn curr kstack pgdir
  | exit curr =>
    obtain ⟨⟨hCan, -⟩, he⟩ := Option.ite_none_right_eq_some.mp hc
    obtain rfl := Option.some.inj he
    refine h.keep (t.exit_nextpid curr) fun p => .inl ?_
    obtain ⟨s, hs, he, -⟩ := t.exit_proc curr p
    rw [he]
    refine ⟨rfl, ?_⟩
    rcases eq_or_ne p curr with rfl | hne
    · rcases hCan with hr | hr <;> simp [hr]
    · rcases hs with rfl | ⟨hs, rfl⟩
      · simp [hne]
      · simp [hne, hs]
  | wait curr =>
    obtain ⟨hCan, he⟩ := Option.ite_none_right_eq_some.mp hc
    obtain rfl := Option.some.inj he
    rcases t.wait_cases curr with ⟨q, -, -, hw⟩ | ⟨-, hw | hw⟩
    · rw [hw]
      refine h.keep rfl fun p => ?_
      rcases eq_or_ne p q with rfl | hne
      · exact .inr (by simp [reapSlot])
      · exact .inl (by simp [set_proc_of_ne _ _ hne])
    · rw [hw]
      exact h
    · rw [hw]
      refine h.keep rfl fun p => .inl ?_
      rcases eq_or_ne p curr with rfl | hne
      · rcases hCan with hr | hr <;> simp [hr]
      · simp [set_proc_of_ne _ _ hne]
  | kill pid =>
    obtain rfl := Option.some.inj hc
    refine h.keep (t.kill_nextpid pid) fun p => .inl ?_
    obtain ⟨s, k, hs, he⟩ := t.kill_proc pid p
    rw [he]
    rcases hs with rfl | ⟨hs, rfl⟩
    · simp
    · simp [hs]

theorem Unmarked.along (h : Unmarked t) {xs : List Syscall} (hx : Along NoneUnused t xs) :
    Along Affects t xs := by
  induction xs generalizing t with
  | nil => trivial
  | cons x xs ih =>
    obtain ⟨hHead, hTail⟩ := hx
    exact ⟨h.affects hHead, fun t' ht' => ih (h.call hHead ht') (hTail t' ht')⟩

theorem Pids.along {n : Nat} (h : Pids t n) {xs : List Syscall}
    (hn : n + xs.countP Syscall.isFork + 2 < 2 ^ 32) (hx : Along Affects t xs) : Along NoneUnused t xs := by
  induction xs generalizing t n with
  | nil => trivial
  | cons x xs ih =>
    rw [List.countP_cons] at hn
    obtain ⟨hHead, hTail⟩ := hx
    exact ⟨h.noneUnused hHead, fun t' ht' => ih (h.call (by omega) ht') (by omega) (hTail t' ht')⟩

theorem userinit_proc (kstack pgdir : Nat) {p : Slot} (hp : p ≠ 0) :
    (userinit kstack pgdir).proc p = ⟨0, 0, .unused, 0, none, ⟨.forkret, false⟩, none, false⟩ := by
  simp [userinit, hp]

theorem userinit_pids (kstack pgdir : Nat) : Pids (userinit kstack pgdir) 0 := by
  refine ⟨⟨0, by omega, rfl, fun p => ?_⟩, fun p hp => ?_, fun p q he hp => ?_⟩
  · rcases eq_or_ne p 0 with rfl | hne
    · exact ⟨1, by omega, rfl⟩
    · exact ⟨0, by omega, by rw [userinit_proc kstack pgdir hne]; rfl⟩
  · rcases eq_or_ne p 0 with rfl | hne
    · simp [userinit]
    · simp [userinit_proc kstack pgdir hne] at hp
  · rcases eq_or_ne p 0 with rfl | hne
    · rcases eq_or_ne q 0 with rfl | hne
      · rfl
      · rw [userinit_proc kstack pgdir hne] at he
        exact absurd (he.symm.trans rfl) (by decide : (0 : Pid) ≠ 1)
    · simp [userinit_proc kstack pgdir hne] at hp

theorem userinit_unmarked (kstack pgdir : Nat) : Unmarked (userinit kstack pgdir) := by
  intro p hp
  rcases eq_or_ne p 0 with rfl | hne
  · simp [userinit] at hp
  · rw [userinit_proc kstack pgdir hne]

/-- Over every sequence of calls in which no `kill` has a pid that is in a slot not in use,
`kill` returns 0 only for processes in use and every new process starts unmarked. As long as
`nextpid` has not wrapped around, no other sequence has this. -/
theorem kill_affects_live_iff (kstack pgdir : Nat) (xs : List Syscall) :
    (Along NoneUnused (userinit kstack pgdir) xs → Along Affects (userinit kstack pgdir) xs) ∧
    (xs.countP Syscall.isFork < 2 ^ 31 → Along Affects (userinit kstack pgdir) xs →
      Along NoneUnused (userinit kstack pgdir) xs) := by
  constructor
  · exact (userinit_unmarked kstack pgdir).along
  · intro hForks hx
    exact (userinit_pids kstack pgdir).along (by omega) hx

theorem kill_affects_live_iff_fork_kill : Along Affects (userinit 1 1) [.fork 0 1 1, .kill 2] := by
  refine (kill_affects_live_iff 1 1 [.fork 0 1 1, .kill 2]).1 ⟨trivial, fun t ht => ⟨?_, fun _ _ => trivial⟩⟩
  obtain rfl := Option.some.inj ht
  intro p hp
  revert p
  decide +kernel

/-- A `fork` for which `copyuvm` fails, a `kill` of the pid it took, and another `fork`. -/
theorem kill_affects_unused :
    ¬ Along Affects (userinit 1 1) [.fork 0 1 0, .kill 2, .fork 0 1 1] := by
  rintro ⟨-, h⟩
  have hKill := (h _ rfl).1
  obtain ⟨p, hp, hPid⟩ := hKill (by decide +kernel)
  revert p
  decide +kernel

end Ptable

end Xv6Rpi.Sched
