import Mathlib.Data.Fintype.Card
import Xv6Rpi.Sched.Cpus

/-! # The turns of the scheduler

`scheduler` looks at the slots one after the other, and when a process comes back it goes on behind the
slot of that process. A process that is ready to run is found when the loop gets to it. So each processor
looks at every other slot at most once before.
-/

namespace Xv6Rpi.Sched

/-- The slot that the loop looks at next, `i` being the one of its last `swtch`. -/
def Pc.turn (i : Nat) : Pc → Nat
  | .scan j => j
  | .swtched j => j + 1
  | pc => if pc.mode = .sched then 0 else i + 1

/-- How many slots the loop passes from slot `i` on until it gets to slot `p`. -/
def distance (p : Slot) (i : Nat) : Nat := if i < nproc then (p + nproc - i) % nproc else p

/-- How many slots a processor may still look at. -/
def Cpu.left (p : Slot) (k : Cpu) : Nat := if k.pc.mode = .dead then 0 else distance p (k.pc.turn k.scheduler) + 1

def Pc.looks : Pc → Option Slot
  | .scan i => if h : i < nproc then some ⟨i, h⟩ else none
  | _ => none

section Distance

variable {p : Slot} {i : Nat}

theorem distance_succ (hi : i < nproc) (hp : (p : Nat) ≠ i) : distance p (i + 1) + 1 = distance p i := by
  have hLt := p.isLt
  rw [distance, distance, if_pos hi]
  unfold nproc at *
  split
  · omega
  · omega

theorem distance_end (hi : ¬i < nproc) : distance p i = distance p 0 := by
  have hLt := p.isLt
  rw [distance, distance, if_neg hi, if_pos (by decide), Nat.sub_zero, Nat.add_mod_right, Nat.mod_eq_of_lt hLt]

theorem looks_eq_some {pc : Pc} {q : Slot} (h : pc.looks = some q) : pc = .scan q := by
  cases pc with
  | scan j =>
    rw [Pc.looks] at h
    split at h
    · rw [← Option.some.inj h]
    · cases h
  | _ => cases h

theorem left_of_looks {k : Cpu} {q : Slot} (h : k.pc.looks = some q) : k.left p = distance p q + 1 := by
  rw [Cpu.left, looks_eq_some h]
  rfl

theorem left_dead {k : Cpu} (h : k.pc.mode = .dead) : k.left p = 0 := if_pos h

theorem left_le {k : Cpu} : k.left p ≤ distance p (k.pc.turn k.scheduler) + 1 := by
  rw [Cpu.left]
  split
  · exact Nat.zero_le _
  · exact le_rfl

/-- The processor does not go on behind the slot that it comes to next. -/
theorem left_le_of {k k' : Cpu} (hDead : k.pc.mode = .dead → k'.pc.mode = .dead)
    (hTurn : k'.pc.mode = .dead ∨ k'.pc.turn k'.scheduler = k.pc.turn k.scheduler) : k'.left p ≤ k.left p := by
  rcases hTurn with hTurn | hTurn
  · rw [left_dead hTurn]
    exact Nat.zero_le _
  · rw [Cpu.left, Cpu.left, hTurn]
    by_cases hk : k.pc.mode = .dead
    · rw [if_pos (hDead hk), if_pos hk]
    · rw [if_neg hk]
      split
      · exact Nat.zero_le _
      · exact le_rfl

end Distance

@[simp]
theorem popcli_scheduler (k : Cpu) (pc : Pc) : (popcli k pc).scheduler = k.scheduler := by
  rw [popcli]
  split
  · rfl
  · split <;> rfl

namespace Machine

variable {C : Type} [DecidableEq C]

/-- The slots that processor `c` looks at in a run. -/
def looks (c : C) : Machine C → List (C × Act C) → List Slot
  | _, [] => []
  | m, (c', a) :: as =>
    match m.step c' a with
    | none => []
    | some m' => if c' = c then (m.cpu c).pc.looks.toList ++ m'.looks c as else m'.looks c as

/-- The process in slot `p` is ready to run all the time. -/
def Waits (p : Slot) : Machine C → List (C × Act C) → Prop
  | m, [] => m.state p = .runnable
  | m, (c, a) :: as => m.state p = .runnable ∧ ∀ m', m.step c a = some m' → m'.Waits p as

variable {m m' : Machine C} {c c' : C} {p : Slot}

theorem Waits.runnable {as : List (C × Act C)} (h : m.Waits p as) : m.state p = .runnable := by
  cases as with
  | nil => exact h
  | cons a as => exact h.1

theorem Step.other (hs : m.Step c' m') (hc : c ≠ c') :
    (m'.cpu c).pc = (m.cpu c).pc ∧ (m'.cpu c).scheduler = (m.cpu c).scheduler := by
  cases hs with
  | quiet m' hq =>
    cases hq with
    | enable c'' on =>
      rcases eq_or_ne c c'' with rfl | hne
      · simp
      · simp [setCpu_cpu_of_ne _ _ _ hne]
    | give lk pc b hpc => simp [release_cpu_of_ne _ _ _ _ hc, setCpu_cpu_of_ne _ _ _ hc]
    | _ => simp [setCpu_cpu_of_ne _ _ _ hc]
  | _ => simp [setCpu_cpu_of_ne _ _ _ hc, goto_cpu_of_ne _ _ _ hc]

/-- The loop looks at a slot: the processor switches to it or goes on to the one behind it. -/
theorem next_of_looks (hs : m.next c = some m') {q : Slot} (hq : (m.cpu c).pc.looks = some q)
    (hp : m.state p = .runnable) (hp' : m'.state p = .runnable) : (m'.cpu c).left p ≤ distance p q := by
  have hpc := looks_eq_some hq
  have hBehind (hne : p ≠ q) (hTurn : (m'.cpu c).pc.turn (m'.cpu c).scheduler = q + 1) :
      (m'.cpu c).left p ≤ distance p q := by
    refine left_le.trans ?_
    rw [hTurn, distance_succ q.isLt fun hEq => hne (Fin.ext hEq)]
  simp only [next, hpc, q.isLt, dite_true, Fin.eta] at hs
  by_cases hRun : (m.tbl.proc q).state = .runnable
  · rw [if_pos hRun, switch] at hs
    by_cases hDir : (m.tbl.proc q).pgdir = 0
    · rw [if_pos hDir] at hs
      obtain rfl := Option.some.inj hs
      rw [left_dead (by rw [setCpu_cpu]; rfl)]
      exact Nat.zero_le _
    · rw [if_neg hDir] at hs
      obtain rfl := Option.some.inj hs
      refine hBehind ?_ ?_
      · rintro rfl
        simp [state, log, Ptable.setState] at hp'
      · simp [log, Pc.turn, Pc.mode]
  · rw [if_neg hRun] at hs
    obtain rfl := Option.some.inj hs
    refine hBehind (fun hEq => hRun (hEq ▸ hp)) ?_
    rw [goto_cpu]
    rfl

theorem next_of_end (hs : m.next c = some m') {i : Nat} (hpc : (m.cpu c).pc = .scan i) (hi : ¬i < nproc) :
    (m'.cpu c).left p ≤ (m.cpu c).left p := by
  simp only [next, hpc, hi, dite_false, Option.some.injEq] at hs
  subst hs
  have hLeft : (m.cpu c).left p = distance p i + 1 := by
    rw [Cpu.left, hpc]
    rfl
  rw [release_cpu, hLeft, distance_end hi]
  rcases popcli_pc (m.cpu c) .idle with hPc | ⟨e, hPc⟩
  · refine left_le.trans ?_
    rw [hPc]
    rfl
  · rw [left_dead (by rw [hPc]; rfl)]
    exact Nat.zero_le _

/-- Outside the loop nothing changes the place where it goes on. -/
theorem step_scheduler {a : Act C} (hs : m.step c a = some m') (hpc : ∀ i, (m.cpu c).pc ≠ .scan i) :
    (m'.cpu c).scheduler = (m.cpu c).scheduler := by
  have hAcquire {m₁ : Machine C} {lk : Lock} {pc : Pc} (hk : (m₁.cpu c).scheduler = (m.cpu c).scheduler)
      (h : m₁.acquire c lk pc = some m') : (m'.cpu c).scheduler = (m.cpu c).scheduler := by
    obtain ⟨-, rfl⟩ := acquire_eq_some h
    simpa [pushcli] using hk
  cases a with
  | next =>
    rw [step, next] at hs
    split at hs
    case h_1 =>
      split at hs
      · exact hAcquire (by simp) hs
      · cases hs
    case h_2 i hi => exact absurd hi (hpc i)
    case h_3 =>
      obtain rfl := Option.some.inj hs
      simp
    case h_4 => exact hAcquire rfl hs
    case h_5 f hf =>
      cases f with
      | wakeup chan irq =>
        obtain rfl := Option.some.inj hs
        simp [log]
      | kill pid =>
        obtain rfl := Option.some.inj hs
        simp
      | sleep chan lk =>
        obtain rfl := Option.some.inj hs
        simp
      | allocproc =>
        rw [body] at hs
        split at hs
        · obtain rfl := Option.some.inj hs
          simp
        · obtain rfl := Option.some.inj hs
          simp [log]
      | yield =>
        obtain ⟨p, -, rfl⟩ := Option.map_eq_some_iff.mp hs
        simp
      | exit =>
        obtain ⟨p, -, rfl⟩ := Option.map_eq_some_iff.mp hs
        simp
      | wait =>
        obtain ⟨p, -, rfl⟩ := Option.map_eq_some_iff.mp hs
        split <;> simp [log]
    case h_6 =>
      obtain ⟨p, -, rfl⟩ := Option.map_eq_some_iff.mp hs
      simp [log]
    case h_7 k hk =>
      obtain ⟨p, -, rfl⟩ := Option.map_eq_some_iff.mp hs
      rw [sched]
      split
      · simp
      · split
        · simp
        · split
          · simp
          · split <;> simp
    case h_8 k hk =>
      obtain ⟨p, -, rfl⟩ := Option.map_eq_some_iff.mp hs
      cases k <;> simp [resume, resume.restore, resume.clear]
    case h_9 =>
      obtain rfl := Option.some.inj hs
      simp
    case h_10 => exact hAcquire rfl hs
    case h_11 =>
      obtain ⟨p, -, rfl⟩ := Option.map_eq_some_iff.mp hs
      simp
    case h_12 =>
      obtain rfl := Option.some.inj hs
      simp
    case h_13 =>
      obtain ⟨p, -, rfl⟩ := Option.map_eq_some_iff.mp hs
      simp [log]
    all_goals cases hs
  | page a =>
    rw [step] at hs
    split at hs
    · obtain rfl := Option.some.inj hs
      simp
    · obtain rfl := Option.some.inj hs
      simp
    · cases hs
  | acquire lk =>
    rw [step] at hs
    split at hs
    · exact hAcquire rfl hs
    · cases hs
  | release lk =>
    rw [step] at hs
    split at hs
    · obtain rfl := Option.some.inj hs
      simp
    · cases hs
  | invoke f =>
    rw [step] at hs
    unfold invoke at hs
    split at hs
    case h_3 =>
      split at hs
      · obtain rfl := Option.some.inj hs
        simp
      · obtain rfl := Option.some.inj hs
        simp
    case h_9 => cases hs
    all_goals
      obtain rfl := Option.some.inj hs
      simp
  | mode on =>
    rw [step] at hs
    split at hs
    · obtain rfl := Option.some.inj hs
      simp
    · cases hs
  | interrupt =>
    rw [step] at hs
    split at hs
    · obtain rfl := Option.some.inj hs
      simp
    · cases hs
  | iret =>
    rw [step] at hs
    split at hs
    · obtain rfl := Option.some.inj hs
      simp
    · cases hs
  | enable c' on =>
    rw [step] at hs
    split at hs
    · obtain rfl := Option.some.inj hs
      rcases eq_or_ne c c' with rfl | hne
      · simp
      · simp [setCpu_cpu_of_ne _ _ _ hne]
    · cases hs

theorem step_panic {a : Act C} {e : Panic} (hpc : (m.cpu c).pc = .panic e) : m.step c a = none := by
  cases a <;> simp [step, next, invoke, hpc]

theorem step_scan {a : Act C} {i : Nat} (hpc : (m.cpu c).pc = .scan i) (hs : m.step c a = some m') :
    m.next c = some m' := by
  cases a with
  | next => exact hs
  | _ => simp [step, invoke, hpc] at hs

theorem exec_panic {as : List (C × Act C)} {e : Panic} (hpc : (m.cpu c).pc = .panic e) (hExec : m.exec as = some m') :
    (m'.cpu c).pc = .panic e := by
  refine exec_keeps (P := fun m => (m.cpu c).pc = .panic e) (fun m c' a m' hs hm => ?_) hExec hpc
  have hne : c ≠ c' := by
    rintro rfl
    rw [step_panic hm] at hs
    cases hs
  exact ((step_cases hs).other hne).1.trans hm

end Machine

/-! ## The place of the loop in code that is not part of it -/

theorem Pc.Moves.turn {pc pc' : Pc} (h : pc.Moves pc') (hpc : ∀ i, pc ≠ .scan i) (i : Nat) :
    pc'.mode = .dead ∨ pc'.turn i = pc.turn i := by
  cases h with
  | scan j => exact absurd rfl (hpc j)
  | runCall f hf => exact .inr (by simp [Pc.turn, Pc.mode, Call.mode_of_ne hf])
  | initExiting | schedPanic | zombieExit => exact .inl rfl
  | _ => exact .inr rfl

theorem Pc.Takes.turn {pc pc' : Pc} {lk : Lock} (h : pc.Takes lk pc') (i : Nat) : pc'.turn i = pc.turn i := by
  cases h <;> rfl

theorem Pc.Gives.turn {pc pc' : Pc} {lk : Lock} (h : pc.Gives lk pc') (hpc : ∀ i, pc ≠ .scan i) (i : Nat) :
    pc'.turn i = pc.turn i := by
  cases h with
  | scan j => exact absurd rfl (hpc j)
  | leave n => cases n <;> rfl
  | _ => rfl

namespace Machine

variable {C : Type} [DecidableEq C] {m m' : Machine C} {c c' : C} {p : Slot}

theorem Step.turn (hs : m.Step c m') (hpc : ∀ i, (m.cpu c).pc ≠ .scan i)
    (hSame : (m'.cpu c).scheduler = (m.cpu c).scheduler) :
    (m'.cpu c).pc.mode = .dead ∨ (m'.cpu c).pc.turn (m'.cpu c).scheduler = (m.cpu c).pc.turn (m.cpu c).scheduler := by
  rw [hSame]
  cases hs with
  | quiet m' hq =>
    cases hq with
    | enable c' on =>
      rcases eq_or_ne c c' with rfl | hne
      · exact .inr (by simp)
      · exact .inr (by rw [setCpu_cpu_of_ne _ _ _ hne])
    | move k hProc hncli hMoves _ =>
      rw [setCpu_cpu]
      exact hMoves.turn hpc _
    | noPgdir q hScan hq => exact absurd hScan (hpc q)
    | swtched i hSwtched =>
      rw [setCpu_cpu, hSwtched]
      exact .inr rfl
    | take lk pc b hTakes hFree =>
      rw [logs_cpu, setCpu_cpu]
      exact .inr (hTakes.turn _)
    | give lk pc b hGives =>
      rw [release_cpu]
      rcases popcli_pc ((m.setCpu c { m.cpu c with intena := b }).cpu c) pc with hPc | ⟨e, hPc⟩
      · rw [hPc]
        exact .inr (hGives.turn hpc _)
      · rw [hPc]
        exact .inl rfl
  | switch q hScan hq => exact absurd hScan (hpc q)
  | sched q k hSched _ _ =>
    rw [goto_cpu, hSched]
    exact .inr rfl
  | wakeup chan irq hBody =>
    rw [logs_cpu, goto_cpu, hBody]
    cases irq <;> exact .inr rfl
  | sleepBack q lk b hBack _ =>
    rw [setCpu_cpu, hBack]
    exact .inr rfl
  | waitBack q b hBack _ =>
    rw [setCpu_cpu, hBack]
    exact .inr rfl
  | kill x hBody =>
    rw [goto_cpu, hBody]
    exact .inr rfl
  | allocproc q hBody _ =>
    rw [logs_cpu, goto_cpu, hBody]
    exact .inr rfl
  | yield q hBody _ =>
    rw [goto_cpu, hBody]
    exact .inr rfl
  | exit q hBody _ =>
    rw [logs_cpu, goto_cpu, hBody]
    exact .inr rfl
  | reaped q r hBody _ _ _ =>
    rw [logs_cpu, goto_cpu, hBody]
    exact .inr rfl
  | waitSleeps q hBody _ _ =>
    rw [logs_cpu, goto_cpu, hBody]
    exact .inr rfl
  | sleep q chan lk hSleep _ =>
    rw [logs_cpu, goto_cpu, hSleep]
    exact .inr rfl
  | noKstack q hFork =>
    rw [goto_cpu, hFork]
    exact .inr rfl
  | kstack q b hFork =>
    rw [goto_cpu, hFork]
    exact .inr rfl
  | noCopy q hFork =>
    rw [goto_cpu, hFork]
    exact .inr rfl
  | copy q b hFork =>
    rw [goto_cpu, hFork]
    exact .inr rfl
  | parent q r hFork _ =>
    rw [goto_cpu, hFork]
    exact .inr rfl
  | ready q hFork =>
    rw [goto_cpu, hFork]
    exact .inr rfl
  | forked q x hFork _ =>
    rw [logs_cpu, goto_cpu, hFork]
    exact .inr rfl

/-- No step takes a processor past the slot of a process that is ready to run. -/
theorem step_left {a : Act C} (hs : m.step c' a = some m') (hp : m.state p = .runnable) (hp' : m'.state p = .runnable) :
    (m'.cpu c).left p ≤ (m.cpu c).left p ∧
    (c' = c → ∀ q, (m.cpu c).pc.looks = some q → (m'.cpu c).left p ≤ distance p q) := by
  rcases eq_or_ne c c' with rfl | hne
  · by_cases hScan : ∃ i, (m.cpu c).pc = .scan i
    · obtain ⟨i, hi⟩ := hScan
      have hNext := step_scan hi hs
      refine ⟨?_, fun _ q hq => next_of_looks hNext hq hp hp'⟩
      by_cases hLt : i < nproc
      · have hLooks : (m.cpu c).pc.looks = some ⟨i, hLt⟩ := by
          rw [hi]
          exact dif_pos hLt
        rw [left_of_looks hLooks]
        exact (next_of_looks hNext hLooks hp hp').trans (Nat.le_succ _)
      · exact next_of_end hNext hi hLt
    · have hpc (i : Nat) : (m.cpu c).pc ≠ .scan i := fun hi => hScan ⟨i, hi⟩
      refine ⟨left_le_of (fun hDead => ?_) ((step_cases hs).turn hpc (step_scheduler hs hpc)), fun _ q hq => ?_⟩
      · cases hPc : (m.cpu c).pc with
        | panic e =>
          rw [step_panic hPc] at hs
          cases hs
        | call f => rcases f.mode_cases with hf | hf <;> simp [hPc, Pc.mode, hf] at hDead
        | body f => rcases f.mode_cases with hf | hf <;> simp [hPc, Pc.mode, hf] at hDead
        | leave n => cases n <;> simp [hPc, Pc.mode] at hDead
        | _ => simp [hPc, Pc.mode] at hDead
      · exact absurd (looks_eq_some hq) (hpc q)
  · obtain ⟨hPc, hSched⟩ := (step_cases hs).other hne
    refine ⟨?_, fun hEq => absurd hEq.symm hne⟩
    rw [Cpu.left, Cpu.left, hPc, hSched]

/-- The slots that a processor looks at come nearer to the slot of the process. -/
theorem looks_sorted {as : List (C × Act C)} (hWaits : m.Waits p as) (c : C) :
    (m.looks c as).Pairwise (fun q r : Slot => distance p r < distance p q) ∧
    ∀ q ∈ m.looks c as, distance p q < (m.cpu c).left p := by
  induction as generalizing m with
  | nil => exact ⟨.nil, by simp [looks]⟩
  | cons a as ih =>
    obtain ⟨c', a⟩ := a
    rw [looks]
    cases hs : m.step c' a with
    | none => exact ⟨.nil, by simp⟩
    | some m' =>
      have hWaits' := hWaits.2 m' hs
      obtain ⟨hSorted, hBelow⟩ := ih hWaits'
      obtain ⟨hLeft, hLook⟩ := step_left (c := c) hs hWaits.1 hWaits'.runnable
      have hRest : ∀ q ∈ m'.looks c as, distance p q < (m.cpu c).left p := fun q hq => (hBelow q hq).trans_le hLeft
      dsimp only
      split
      · cases hq : (m.cpu c).pc.looks with
        | none => exact ⟨hSorted, hRest⟩
        | some q =>
          refine ⟨List.pairwise_cons.mpr ⟨fun r hr => (hBelow r hr).trans_le (hLook ‹_› q hq), hSorted⟩, ?_⟩
          intro r hr
          rcases List.mem_cons.mp hr with rfl | hr
          · rw [left_of_looks hq]
            exact Nat.lt_succ_self _
          · exact hRest r hr
      · exact ⟨hSorted, hRest⟩

/-- A processor that looks at a slot with a process ready to run switches to the process, or panics. -/
theorem panic_of_looks {as : List (C × Act C)} (hWaits : m.Waits p as) (hLooks : p ∈ m.looks c as)
    (hExec : m.exec as = some m') : (m'.cpu c).pc = .panic .switchuvmNoPgdir := by
  induction as generalizing m with
  | nil => simp [looks] at hLooks
  | cons a as ih =>
    obtain ⟨c', a⟩ := a
    obtain ⟨m₁, hs, hExec⟩ := Option.bind_eq_some_iff.mp hExec
    have hWaits₁ := hWaits.2 m₁ hs
    rw [looks, hs] at hLooks
    dsimp only at hLooks
    split at hLooks
    · rename_i hc
      subst hc
      rcases List.mem_append.mp hLooks with hLook | hLooks
      · have hScan := looks_eq_some (Option.mem_toList.mp hLook)
        have hNext := step_scan hScan hs
        have hRun : (m.tbl.proc p).state = .runnable := hWaits.1
        simp only [next, hScan, p.isLt, dite_true, Fin.eta, hRun, if_pos] at hNext
        obtain rfl := Option.some.inj hNext
        have hRun₁ := hWaits₁.runnable
        rw [switch] at hRun₁ hExec
        split at hRun₁
        · rw [if_pos ‹_›] at hExec
          exact exec_panic (by rw [setCpu_cpu]) hExec
        · simp [state, log, Ptable.setState] at hRun₁
      · exact ih hWaits₁ hLooks hExec
    · exact ih hWaits₁ hLooks hExec

/-- As long as a process is ready to run, no processor looks at a slot twice, and none at the slot of the
process, unless it finds no page directory there. So each processor switches to at most one process of
every other slot before it switches to this one. -/
theorem scheduler_fair (m : Machine C) (p : Slot) (as : List (C × Act C)) (hWaits : m.Waits p as) (c : C) :
    (m.looks c as).Nodup ∧ (m.looks c as).length ≤ nproc ∧
    (p ∈ m.looks c as → ∀ m', m.exec as = some m' → (m'.cpu c).pc = .panic .switchuvmNoPgdir) := by
  have hNodup : (m.looks c as).Nodup := (looks_sorted hWaits c).1.imp fun hLt hEq => by
    rw [hEq] at hLt
    exact lt_irrefl _ hLt
  refine ⟨hNodup, ?_, fun hLooks m' hExec => panic_of_looks hWaits hLooks hExec⟩
  have hCard := hNodup.length_le_card
  rwa [Fintype.card_fin] at hCard

instance decidableWaits (p : Slot) : (m : Machine C) → (as : List (C × Act C)) → Decidable (m.Waits p as)
  | m, [] => inferInstanceAs (Decidable (m.state p = .runnable))
  | m, (c, a) :: as =>
    match hStep : m.step c a with
    | none => decidable_of_iff (m.state p = .runnable) ⟨fun h => ⟨h, fun m' hm' => by simp [hStep] at hm'⟩, And.left⟩
    | some m₁ =>
      have := decidableWaits p m₁ as
      decidable_of_iff (m.state p = .runnable ∧ m₁.Waits p as)
        (and_congr_right fun _ => ⟨fun h m' hm' => Option.some.inj (hStep.symm.trans hm') ▸ h, fun h => h m₁ hStep⟩)

/-- `init` and the processes in slots 1 and 3 wait. -/
def threeWait : Machine (Fin 4) :=
  let m := Machine.boot 1 1 fun _ => true
  let ready (t : Ptable) (p : Slot) : Ptable := t.set p fun q => { q with state := .runnable, pgdir := 1 }
  m.withTbl (ready (ready m.tbl 1) 3)

/-- Processor 1 switches to `init` and processor 2 to the process in slot 1. Then `init` yields. -/
def twoTurns : List (Fin 4 × Act (Fin 4)) :=
  List.replicate 3 (1, .next) ++ List.replicate 4 (2, .next) ++ (1, .invoke .yield) :: List.replicate 6 (1, .next)

theorem scheduler_fair_three : threeWait.Waits 3 twoTurns ∧ (threeWait.exec twoTurns).isSome ∧
    threeWait.looks 1 twoTurns = [0, 1, 2] ∧ threeWait.looks 2 twoTurns = [0, 1] ∧
    (threeWait.looks 1 twoTurns).Nodup ∧ (threeWait.looks 1 twoTurns).length ≤ nproc := by
  have hWaits : threeWait.Waits 3 twoTurns := by decide
  obtain ⟨hNodup, hLength, _⟩ := scheduler_fair threeWait 3 twoTurns hWaits 1
  exact ⟨hWaits, by decide, by decide, by decide, hNodup, hLength⟩

end Machine

end Xv6Rpi.Sched
