import Mathlib.Data.Finset.Card
import Xv6Rpi.Lib.Trace
import Xv6Rpi.Sched.Cpus

/-! # No wake-up is lost

`lockOf` names the lock that goes with a channel. Code that calls `sleep` and `wakeup` with
the lock held, and gives back only locks it holds, is `Lawful`. A process in `sleep` gives
its lock back only after it holds `ptable.lock`, which `wakeup` needs too.
-/

namespace Xv6Rpi.Sched

variable {C : Type}

/-- Somebody other than slot `p` calls `wakeup1` on the channel. -/
def Event.Foreign (p : Slot) (chan : Chan) : Event C → Prop
  | .woke _ q ch => ch = some chan ∧ q ≠ some p
  | _ => False

def Event.Wakes (chan : Chan) : Event C → Prop
  | .woke _ _ ch => ch = some chan
  | _ => False

theorem Event.Foreign.wakes {p : Slot} {ch : Chan} {e : Event C} (h : e.Foreign p ch) : e.Wakes ch := by
  cases e with
  | woke c q ch' => exact h.1
  | _ => exact h.elim

def Event.Acquires (p : Slot) (lk : Lock) : Event C → Prop
  | .acquired _ q lk' => q = some p ∧ lk' = lk
  | _ => False

def Event.Sleeps (p : Slot) (chan : Chan) : Event C → Prop
  | .slept q ch => q = p ∧ ch = chan
  | _ => False

namespace Machine

/-- What the claim asks of the callers of `sleep` and `wakeup`. -/
def Lawful (lockOf : Chan → Lock) (m : Machine C) (c : C) : Act C → Prop
  | .release lk => m.locks (.other lk) = some c
  | .invoke (.sleep chan lk) => lockOf (.addr chan) = .other lk ∧ m.locks (.other lk) = some c
  | .invoke (.wakeup chan _) => m.locks (lockOf chan) = some c
  | _ => True

instance [DecidableEq C] (lockOf : Chan → Lock) (m : Machine C) (c : C) (a : Act C) :
    Decidable (m.Lawful lockOf c a) :=
  match a with
  | .release lk => inferInstanceAs (Decidable (m.locks (.other lk) = some c))
  | .invoke (.sleep chan lk) =>
    inferInstanceAs (Decidable (lockOf (.addr chan) = .other lk ∧ m.locks (.other lk) = some c))
  | .invoke (.wakeup chan _) => inferInstanceAs (Decidable (m.locks (lockOf chan) = some c))
  | .invoke .allocproc | .invoke .exit | .invoke .wait | .invoke .yield | .invoke (.kill _)
  | .next | .page _ | .acquire _ | .mode _ | .interrupt | .iret | .enable _ _ => .isTrue trivial

def obeys [DecidableEq C] (lockOf : Chan → Lock) : Machine C → List (C × Act C) → Bool
  | _, [] => true
  | m, (c, a) :: as => decide (m.Lawful lockOf c a) && ((m.step c a).all fun m' => obeys lockOf m' as)

end Machine

/-- The lock that code inside `sleep` or `wakeup` was called with and still has. -/
def Pc.needs (lockOf : Chan → Lock) : Pc → Option Lock
  | .call (.sleep _ lk) | .body (.sleep _ lk) => some (.other lk)
  | .call (.wakeup chan _) | .body (.wakeup chan _) => some (lockOf chan)
  | _ => none

def Pc.Agrees (lockOf : Chan → Lock) : Pc → Prop
  | .call (.sleep chan lk) | .body (.sleep chan lk) | .sleep chan lk => lockOf (.addr chan) = .other lk
  | _ => True

def Pc.bare : Pc → Bool
  | .idle | .scan _ | .swtched _ => true
  | _ => false

namespace Machine

/-- `ncli` counts the locks of a processor, code in `sleep` or `wakeup` has its lock, and the
scheduler has no lock but the table's. -/
structure Locking (lockOf : Chan → Lock) (m : Machine C) : Prop where
  count : ∀ c, (m.cpu c).pc.mode ≠ .dead →
    ∃ L : Finset Lock, (∀ lk, m.locks lk = some c ↔ lk ∈ L) ∧ (m.cpu c).ncli = L.card
  needs : ∀ c lk, (m.cpu c).pc.needs lockOf = some lk → m.locks lk = some c
  agrees : ∀ c, (m.cpu c).pc.Agrees lockOf
  bare : ∀ c, (m.cpu c).pc.bare = true → ∀ lk, m.locks (.other lk) ≠ some c

/-- Slot `p` runs with the lock of `chan` held, or it is in `sleep` and has just given that
lock for the table's. -/
def Guarded (lockOf : Chan → Lock) (m : Machine C) (p : Slot) (chan : Chan) : Prop :=
  (∃ c, (m.cpu c).pc.mode = .proc ∧ (m.cpu c).proc = some p ∧ m.locks (lockOf chan) = some c) ∨
  ∃ c a lk, (m.cpu c).pc = .sleep a lk ∧ (m.cpu c).proc = some p ∧ chan = .addr a

def Asleep (m : Machine C) (p : Slot) (chan : Chan) : Prop :=
  m.state p = .sleeping ∧ (m.tbl.proc p).chan = some chan

variable {lockOf : Chan → Lock} {m m' : Machine C} {c : C}

theorem Locking.frame (h : Locking lockOf m)
    (hOther : ∀ c', c' ≠ c → (m'.cpu c').pc = (m.cpu c').pc ∧ (m'.cpu c').ncli = (m.cpu c').ncli)
    (hLocks : ∀ c', c' ≠ c → ∀ lk, m'.locks lk = some c' ↔ m.locks lk = some c')
    (hCount : (m'.cpu c).pc.mode ≠ .dead →
      ∃ L : Finset Lock, (∀ lk, m'.locks lk = some c ↔ lk ∈ L) ∧ (m'.cpu c).ncli = L.card)
    (hNeeds : ∀ lk, (m'.cpu c).pc.needs lockOf = some lk → m'.locks lk = some c)
    (hAgrees : (m'.cpu c).pc.Agrees lockOf)
    (hBare : (m'.cpu c).pc.bare = true → ∀ lk, m'.locks (.other lk) ≠ some c) : Locking lockOf m' := by
  refine ⟨fun c' => ?_, fun c' lk => ?_, fun c' => ?_, fun c' => ?_⟩
  · rcases eq_or_ne c' c with rfl | hne
    · exact hCount
    · simp only [(hOther c' hne).1, (hOther c' hne).2, hLocks c' hne]
      exact h.count c'
  · rcases eq_or_ne c' c with rfl | hne
    · exact hNeeds lk
    · rw [(hOther c' hne).1, hLocks c' hne]
      exact h.needs c' lk
  · rcases eq_or_ne c' c with rfl | hne
    · exact hAgrees
    · rw [(hOther c' hne).1]
      exact h.agrees c'
  · rcases eq_or_ne c' c with rfl | hne
    · exact hBare
    · simp only [(hOther c' hne).1, ne_eq, hLocks c' hne]
      exact h.bare c'

theorem Locking.still (h : Locking lockOf m)
    (hOther : ∀ c', c' ≠ c → (m'.cpu c').pc = (m.cpu c').pc ∧ (m'.cpu c').ncli = (m.cpu c').ncli)
    (hLocks : m'.locks = m.locks) (hncli : (m'.cpu c).ncli = (m.cpu c).ncli)
    (hAlive : (m'.cpu c).pc.mode ≠ .dead → (m.cpu c).pc.mode ≠ .dead)
    (hNeeds : ∀ lk, (m'.cpu c).pc.needs lockOf = some lk → m.locks lk = some c)
    (hAgrees : (m'.cpu c).pc.Agrees lockOf)
    (hBare : (m'.cpu c).pc.bare = true → ∀ lk, m.locks (.other lk) ≠ some c) : Locking lockOf m' := by
  refine h.frame hOther (fun c' _ lk => by rw [hLocks]) (fun hd => ?_) (by rwa [hLocks]) hAgrees (by rwa [hLocks])
  rw [hLocks, hncli]
  exact h.count c (hAlive hd)

variable [DecidableEq C]

theorem Locking.take (h : Locking lockOf m) {lk : Lock} {pc : Pc} {b : Bool}
    (hpc : (m.cpu c).pc.Takes lk pc) (hFree : m.locks lk = none) :
    Locking lockOf (({ m with locks := Function.update m.locks lk (some c) }.setCpu c
      { pushcli { m.cpu c with irq := b } with pc := pc }).logs [.acquired c (m.cpu c).proc lk]) := by
  obtain ⟨-, -, hMode, hAlive, -⟩ := hpc.keeps
  refine h.frame (c := c) (fun c' hne => by simp [setCpu_cpu_of_ne _ _ _ hne]) (fun c' hne lk' => ?_) (fun _ => ?_)
    ?_ ?_ ?_
  · rcases eq_or_ne lk' lk with rfl | hlk
    · simp [hFree, Ne.symm hne]
    · simp [hlk]
  · obtain ⟨L, hL, hn⟩ := h.count c hAlive
    have hNot : lk ∉ L := by simp [← hL, hFree]
    refine ⟨insert lk L, fun lk' => ?_, ?_⟩
    · rcases eq_or_ne lk' lk with rfl | hlk
      · simp
      · simp [hlk, hL]
    · simp [pushcli, hn, Finset.card_insert_of_notMem hNot]
  · intro lk' hlk'
    have hOld : (m.cpu c).pc.needs lockOf = some lk' := by
      simp only [logs_cpu, setCpu_cpu] at hlk'
      generalize (m.cpu c).pc = pc₀ at hpc
      cases hpc with
      | call f => cases f <;> exact hlk'
      | _ => cases hlk'
    have hHeld := h.needs c lk' hOld
    have hne : lk' ≠ lk := by
      rintro rfl
      simp [hFree] at hHeld
    simpa [hne] using hHeld
  · have hOld := h.agrees c
    simp only [logs_cpu, setCpu_cpu]
    generalize (m.cpu c).pc = pc₀ at hpc hOld
    cases hpc with
    | call f => cases f <;> exact hOld
    | _ => trivial
  · intro hb lk' hlk'
    simp only [logs_cpu, setCpu_cpu] at hb
    have hNoOther := h.bare c
    generalize hpc₀ : (m.cpu c).pc = pc₀ at hpc hNoOther
    cases hpc with
    | idle => exact hNoOther rfl lk' (by simpa using hlk')
    | _ => cases hb

theorem Locking.give (h : Locking lockOf m) {lk : Lock} {pc : Pc} {b : Bool}
    (hpc : (m.cpu c).pc.Gives lk pc) (hHeld : m.locks lk = some c) :
    Locking lockOf ((m.setCpu c { m.cpu c with intena := b }).release c lk pc) := by
  obtain ⟨-, -, hMode, hAlive, -⟩ := hpc.keeps
  obtain ⟨L, hL, hn⟩ := h.count c (by rcases hAlive with ha | ha <;> simp [ha])
  have hMem : lk ∈ L := (hL lk).mp hHeld
  have hPos : 0 < L.card := Finset.card_pos.mpr ⟨lk, hMem⟩
  have hpc' : ((popcli { m.cpu c with intena := b } pc).pc = pc ∧
      (popcli { m.cpu c with intena := b } pc).ncli = (m.cpu c).ncli - 1) ∨
      ∃ e, (popcli { m.cpu c with intena := b } pc).pc = .panic e := by
    rw [popcli]
    split
    · exact .inr ⟨_, rfl⟩
    · split
      · exact .inr ⟨_, rfl⟩
      · exact .inl ⟨rfl, rfl⟩
  have hNeeds : pc.needs lockOf = none := by
    generalize (m.cpu c).pc = pc₀ at hpc
    cases hpc with
    | leave n => cases n <;> rfl
    | _ => rfl
  have hAgrees : pc.Agrees lockOf := by
    have hOld := h.agrees c
    generalize (m.cpu c).pc = pc₀ at hpc hOld
    cases hpc with
    | sleep chan lk => exact hOld
    | leave n => cases n <;> trivial
    | _ => trivial
  refine h.frame (c := c)
    (fun c' hne => by simp [release_cpu_of_ne _ _ _ _ hne, setCpu_cpu_of_ne _ _ _ hne]) (fun c' hne lk' => ?_)
    (fun hd => ?_) (fun lk' hlk' => ?_) ?_ (fun hb lk' hlk' => ?_)
  · rcases eq_or_ne lk' lk with rfl | hlk
    · simp [hHeld, Ne.symm hne]
    · simp [hlk]
  · rw [release_cpu, setCpu_cpu] at hd ⊢
    rcases hpc' with ⟨-, hn'⟩ | ⟨e, he⟩
    · refine ⟨L.erase lk, fun lk' => ?_, ?_⟩
      · rcases eq_or_ne lk' lk with rfl | hlk
        · simp
        · simp [hlk, hL]
      · rw [hn', hn, Finset.card_erase_of_mem hMem]
        omega
    · simp [he, Pc.mode] at hd
  · rw [release_cpu, setCpu_cpu] at hlk'
    rcases hpc' with ⟨he, -⟩ | ⟨e, he⟩
    · rw [he, hNeeds] at hlk'
      cases hlk'
    · rw [he] at hlk'
      cases hlk'
  · rw [release_cpu, setCpu_cpu]
    rcases hpc' with ⟨he, -⟩ | ⟨e, he⟩
    · rwa [he]
    · rw [he]
      trivial
  · rw [release_cpu, setCpu_cpu] at hb
    have hOld : m.locks (.other lk') = some c := by
      rcases eq_or_ne (Lock.other lk') lk with rfl | hlk
      · exact hHeld
      · simpa [hlk] using hlk'
    have hNoOther := h.bare c
    rcases hpc' with ⟨he, -⟩ | ⟨e, he⟩
    · rw [he] at hb
      generalize (m.cpu c).pc = pc₀ at hpc hNoOther
      cases hpc with
      | scan i => exact hNoOther rfl lk' hOld
      | leave n => cases n <;> cases hb
      | _ => cases hb
    · rw [he] at hb
      cases hb

omit [DecidableEq C] in
theorem Locking.goes (h : Locking lockOf m) (hOther : ∀ c', c' ≠ c → m'.cpu c' = m.cpu c')
    (hLocks : m'.locks = m.locks) (hncli : (m'.cpu c).ncli = (m.cpu c).ncli)
    (hAlive : (m.cpu c).pc.mode ≠ .dead) (hNeeds : (m'.cpu c).pc.needs lockOf = none)
    (hAgrees : (m'.cpu c).pc.Agrees lockOf) (hBare : (m'.cpu c).pc.bare = false) : Locking lockOf m' :=
  h.still (fun c' hne => by rw [hOther c' hne]; exact ⟨rfl, rfl⟩) hLocks hncli (fun _ => hAlive)
    (by simp [hNeeds]) hAgrees (by simp [hBare])

theorem Locking.code (h : Locking lockOf m) (hc : Cpus m) (hs : m.Step c m') (hRun : (m.cpu c).pc ≠ .run)
    (hHandler : (m.cpu c).pc ≠ .handler) : Locking lockOf m' := by
  cases hs with
  | quiet m' hq =>
    cases hq with
    | enable c' on =>
      refine h.still (c := c') (fun c'' hne => by simp [setCpu_cpu_of_ne _ _ _ hne]) rfl (by simp) (by simp)
        ?_ ?_ ?_
      · simpa using h.needs c'
      · simpa using h.agrees c'
      · simpa using h.bare c'
    | move k hProc hncli hpc hExit =>
      have hMode := hpc.keeps.2.1
      have hOldNeeds := h.needs c
      have hOldAgrees := h.agrees c
      have hOldBare := h.bare c
      refine h.still (c := c) (fun c' hne => by simp [setCpu_cpu_of_ne _ _ _ hne]) rfl (by simpa using hncli) ?_ ?_
        ?_ ?_
      all_goals rw [setCpu_cpu]
      · intro hd
        rcases hMode with he | he
        · rwa [← he]
        · exact absurd he hd
      all_goals
        generalize (m.cpu c).pc = pc₀ at hpc hRun hHandler hOldNeeds hOldAgrees hOldBare
        generalize k.pc = pc₁ at hpc
      · cases hpc with
        | stay => exact hOldNeeds
        | iret => exact absurd rfl hHandler
        | handlerCall chan => exact absurd rfl hHandler
        | runCall f hf => exact absurd rfl hRun
        | _ => simp [Pc.needs]
      · cases hpc with
        | stay => exact hOldAgrees
        | iret => exact absurd rfl hHandler
        | handlerCall chan => exact absurd rfl hHandler
        | runCall f hf => exact absurd rfl hRun
        | _ => trivial
      · cases hpc with
        | stay => exact hOldBare
        | iret => exact absurd rfl hHandler
        | handlerCall chan => exact absurd rfl hHandler
        | runCall f hf => exact absurd rfl hRun
        | scan i => exact fun _ => hOldBare rfl
        | _ => simp [Pc.bare]
    | noPgdir p hpc hp =>
      exact h.goes (c := c) (fun c' hne => by simp [setCpu_cpu_of_ne _ _ _ hne]) rfl (by simp) (by simp [hpc, Pc.mode])
        (by simp [Pc.needs]) (by simp [Pc.Agrees]) (by simp [Pc.bare])
    | swtched i hpc =>
      refine h.still (c := c) (fun c' hne => by simp [setCpu_cpu_of_ne _ _ _ hne]) rfl (by simp)
        (fun _ => by simp [hpc, Pc.mode]) (by simp [Pc.needs]) (by simp [Pc.Agrees]) (fun _ => ?_)
      exact h.bare c (by rw [hpc]; rfl)
    | take lk pc b hpc hFree => exact h.take hpc hFree
    | give lk pc b hpc =>
      refine h.give hpc ?_
      have hTable := hpc.keeps.2.1
      have hNeeds := h.needs c
      have hHolds := hc.holds c
      generalize (m.cpu c).pc = pc₀ at hpc hRun hHandler hNeeds hTable hHolds
      cases hpc with
      | sleep chan lk => exact hNeeds _ rfl
      | run lk => exact absurd rfl hRun
      | handler lk => exact absurd rfl hHandler
      | _ => exact hHolds (hTable rfl)
  | switch p hpc hp =>
    exact h.goes (c := c) (fun c' hne => by simp [setCpu_cpu_of_ne _ _ _ hne]) rfl (by simp) (by simp [hpc, Pc.mode])
      (by simp [Pc.needs]) (by simp [Pc.Agrees]) (by simp [Pc.bare])
  | sched p k hpc hProc hncli =>
    -- with one lock counted, the table's is the only one
    refine h.still (c := c) (fun c' hne => by simp [goto_cpu_of_ne _ _ _ hne]) rfl (by simp)
      (fun _ => by simp [hpc, Pc.mode]) (by simp [Pc.needs]) (by simp [Pc.Agrees]) (fun _ lk hlk => ?_)
    obtain ⟨L, hL, hn⟩ := h.count c (by simp [hpc, Pc.mode])
    have hTable : Lock.ptable ∈ L := (hL _).mp (hc.holds c (by rw [hpc]; rfl))
    have hOne : L.card ≤ 1 := by omega
    cases Finset.card_le_one.mp hOne _ hTable _ ((hL _).mp hlk)
  | sleepBack p lk b hpc hProc =>
    exact h.goes (c := c) (fun c' hne => by simp [setCpu_cpu_of_ne _ _ _ hne]) rfl (by simp) (by simp [hpc, Pc.mode])
      (by simp [Pc.needs]) (by simp [Pc.Agrees]) (by simp [Pc.bare])
  | waitBack p b hpc hProc =>
    exact h.goes (c := c) (fun c' hne => by simp [setCpu_cpu_of_ne _ _ _ hne]) rfl (by simp) (by simp [hpc, Pc.mode])
      (by simp [Pc.needs]) (by simp [Pc.Agrees]) (by simp [Pc.bare])
  | wakeup chan irq hpc =>
    refine h.goes (c := c) (fun c' hne => by simp [goto_cpu_of_ne _ _ _ hne]) rfl (by simp) ?_
      (by simp [Pc.needs]) (by simp [Pc.Agrees]) (by simp [Pc.bare])
    cases irq <;> simp [hpc, Pc.mode, Call.mode]
  | _ =>
    have hpc := ‹(m.cpu c).pc = _›
    exact h.goes (c := c) (fun c' hne => by simp [goto_cpu_of_ne _ _ _ hne]) rfl (by simp)
      (by rw [hpc]; simp [Pc.mode, Call.mode]) (by simp [Pc.needs]) (by simp [Pc.Agrees]) (by simp [Pc.bare])

theorem next_pc (h : m.next c = some m') : (m.cpu c).pc ≠ .run ∧ (m.cpu c).pc ≠ .handler := by
  constructor
  · intro hpc
    rw [next, hpc] at h
    cases h
  · intro hpc
    rw [next, hpc] at h
    cases h

/-- The code outside `proc.c` goes from `pc` to a call. -/
theorem Locking.invoke (h : Locking lockOf m) {f : Call} (hs : m.invoke c f = some m')
    (hl : m.Lawful lockOf c (.invoke f)) : Locking lockOf m' := by
  have hGoto (pc : Pc) (hAlive : (m.cpu c).pc.mode ≠ .dead)
      (hNeeds : ∀ lk, pc.needs lockOf = some lk → m.locks lk = some c) (hAgrees : pc.Agrees lockOf)
      (hBare : pc.bare = false) : Locking lockOf (m.goto c pc) :=
    h.still (c := c) (fun c' hne => by simp [goto_cpu_of_ne _ _ _ hne]) rfl (by simp) (fun _ => hAlive)
      (by simpa using hNeeds) (by simpa using hAgrees) (by simp [hBare])
  unfold Machine.invoke at hs
  split at hs
  case h_1 hpc =>
    obtain rfl := Option.some.inj hs
    exact hGoto _ (by simp [hpc, Pc.mode]) (fun lk hlk => Option.some.inj hlk ▸ hl) trivial rfl
  case h_2 hpc =>
    obtain rfl := Option.some.inj hs
    exact hGoto _ (by simp [hpc, Pc.mode]) (fun lk hlk => Option.some.inj hlk ▸ hl) trivial rfl
  case h_3 hpc =>
    split at hs
    · obtain rfl := Option.some.inj hs
      exact hGoto _ (by simp [hpc, Pc.mode]) (by simp [Pc.needs]) trivial rfl
    · obtain rfl := Option.some.inj hs
      exact hGoto _ (by simp [hpc, Pc.mode]) (by simp [Pc.needs]) trivial rfl
  case h_8 hpc =>
    obtain rfl := Option.some.inj hs
    exact hGoto _ (by simp [hpc, Pc.mode]) (fun lk hlk => Option.some.inj hlk ▸ hl.2) hl.1 rfl
  case h_9 => cases hs
  all_goals
    rename_i hpc
    obtain rfl := Option.some.inj hs
    exact hGoto _ (by simp [hpc, Pc.mode]) (by simp [Pc.needs]) trivial rfl

theorem Locking.step (h : Locking lockOf m) (hc : Cpus m) {a : Act C} (hs : m.step c a = some m')
    (hl : m.Lawful lockOf c a) : Locking lockOf m' := by
  cases a with
  | next => exact h.code hc (next_step hs) (next_pc hs).1 (next_pc hs).2
  | invoke f => exact h.invoke hs hl
  | page a =>
    refine h.code hc (step_cases hs) ?_ ?_ <;>
    · intro hpc
      rw [Machine.step, hpc] at hs
      cases hs
  | acquire lk =>
    rw [Machine.step] at hs
    split at hs
    · rename_i hpc
      obtain ⟨hFree, rfl⟩ := acquire_eq_some hs
      refine h.take (b := (m.cpu c).irq) ?_ hFree
      rcases hpc with hpc | hpc
      · rw [hpc]
        exact .run lk
      · rw [hpc]
        exact .handler lk
    · cases hs
  | release lk =>
    rw [Machine.step] at hs
    split at hs
    · rename_i hpc
      obtain rfl := Option.some.inj hs
      have hGives : (m.cpu c).pc.Gives (.other lk) (m.cpu c).pc := by
        rcases hpc with hpc | hpc
        · rw [hpc]
          exact .run lk
        · rw [hpc]
          exact .handler lk
      have hg := h.give (b := (m.cpu c).intena) hGives hl
      have hSame : m.setCpu c { m.cpu c with intena := (m.cpu c).intena } = m := by
        simp [setCpu]
      rwa [hSame] at hg
    · cases hs
  | mode on =>
    rw [Machine.step] at hs
    split at hs
    · obtain rfl := Option.some.inj hs
      refine h.still (c := c) (fun c' hne => by simp [setCpu_cpu_of_ne _ _ _ hne]) rfl (by simp) (by simp) ?_ ?_ ?_
      · simpa using h.needs c
      · simpa using h.agrees c
      · simpa using h.bare c
    · cases hs
  | interrupt =>
    rw [Machine.step] at hs
    split at hs
    · rename_i hpc
      obtain rfl := Option.some.inj hs
      exact h.goes (c := c) (fun c' hne => by simp [setCpu_cpu_of_ne _ _ _ hne]) rfl (by simp)
        (by simp [hpc.1, Pc.mode]) (by simp [Pc.needs]) (by simp [Pc.Agrees]) (by simp [Pc.bare])
    · cases hs
  | iret =>
    rw [Machine.step] at hs
    split at hs
    · rename_i hpc
      obtain rfl := Option.some.inj hs
      have hAlive : (m.cpu c).pc.mode ≠ .dead := by simp [hpc.1, Pc.mode]
      refine h.still (c := c) (fun c' hne => by simp [setCpu_cpu_of_ne _ _ _ hne]) rfl (by simp)
        (fun _ => hAlive) (by simp [Pc.needs]) (by simp [Pc.Agrees]) (fun _ lk hlk => ?_)
      obtain ⟨L, hL, hn⟩ := h.count c hAlive
      have hEmpty : L = ∅ := Finset.card_eq_zero.mp (by omega)
      have hMem := (hL _).mp hlk
      simp [hEmpty] at hMem
    · cases hs
  | enable c' on =>
    rw [Machine.step] at hs
    split at hs
    · obtain rfl := Option.some.inj hs
      refine h.still (c := c') (fun c'' hne => by simp [setCpu_cpu_of_ne _ _ _ hne]) rfl (by simp) (by simp) ?_ ?_ ?_
      · simpa using h.needs c'
      · simpa using h.agrees c'
      · simpa using h.bare c'
    · cases hs

/-! ## The lock of a sleeper, event by event -/

omit [DecidableEq C] in
theorem Guarded.elim {p : Slot} {ch : Chan} {R : Prop} (hg : Guarded lockOf m' p ch)
    (hOther : ∀ c', c' ≠ c → (m'.cpu c').pc = (m.cpu c').pc ∧ (m'.cpu c').proc = (m.cpu c').proc)
    (hLocks : ∀ c', c' ≠ c → ∀ lk, m'.locks lk = some c' → m.locks lk = some c')
    (hOld : Guarded lockOf m p ch → R)
    (hRuns : (m'.cpu c).pc.mode = .proc → (m'.cpu c).proc = some p → m'.locks (lockOf ch) = some c → R)
    (hGoing : ∀ a lk, (m'.cpu c).pc = .sleep a lk → (m'.cpu c).proc = some p → ch = .addr a → R) : R := by
  rcases hg with ⟨c', hm, hp, hl⟩ | ⟨c', a, lk, hpc, hp, hch⟩
  · rcases eq_or_ne c' c with rfl | hne
    · exact hRuns hm hp hl
    · rw [(hOther c' hne).1] at hm
      rw [(hOther c' hne).2] at hp
      exact hOld (.inl ⟨c', hm, hp, hLocks c' hne _ hl⟩)
  · rcases eq_or_ne c' c with rfl | hne
    · exact hGoing a lk hpc hp hch
    · rw [(hOther c' hne).1] at hpc
      rw [(hOther c' hne).2] at hp
      exact hOld (.inr ⟨c', a, lk, hpc, hp, hch⟩)

theorem Quiet.guarded (hk : Locking lockOf m) (hq : m.Quiet c m') {p : Slot} {ch : Chan}
    (hg : Guarded lockOf m' p ch) : ∃ es, m'.trace = es ++ m.trace ∧ (∀ e ∈ es, ¬ e.Foreign p ch) ∧
    ((∃ e ∈ es, e.Acquires p (lockOf ch)) ∨ Guarded lockOf m p ch) := by
  cases hq with
  | enable c' on =>
    refine ⟨[], rfl, by simp, .inr ?_⟩
    exact hg.elim (m := m) (c := c') (fun c'' hne => by simp [setCpu_cpu_of_ne _ _ _ hne]) (fun _ _ _ hl => hl) id
      (fun hm hp hl => .inl ⟨c', by simpa using hm, by simpa using hp, hl⟩)
      (fun a lk hpc hp hch => .inr ⟨c', a, lk, by simpa using hpc, by simpa using hp, hch⟩)
  | move k hProc hncli hpc hExit =>
    refine ⟨[], rfl, by simp, .inr ?_⟩
    refine hg.elim (m := m) (c := c) (fun c' hne => by simp [setCpu_cpu_of_ne _ _ _ hne]) (fun _ _ _ hl => hl) id
      (fun hm hp hl => ?_) (fun a lk hpc' hp hch => ?_)
    · rw [setCpu_cpu] at hm hp
      rcases hpc.keeps.2.1 with he | he
      · exact .inl ⟨c, he ▸ hm, hProc ▸ hp, hl⟩
      · simp [hm] at he
    · rw [setCpu_cpu] at hpc' hp
      rw [hpc'] at hpc
      have hSame : (m.cpu c).pc = .sleep a lk := by
        generalize (m.cpu c).pc = pc₀ at hpc
        cases hpc
        rfl
      exact .inr ⟨c, a, lk, hSame, hProc ▸ hp, hch⟩
  | noPgdir q hpc hq =>
    refine ⟨[], rfl, by simp, .inr ?_⟩
    exact hg.elim (m := m) (c := c) (fun c' hne => by simp [setCpu_cpu_of_ne _ _ _ hne]) (fun _ _ _ hl => hl) id
      (fun hm => by simp [Pc.mode] at hm) (fun a lk hpc' => by simp at hpc')
  | swtched i hpc =>
    refine ⟨[], rfl, by simp, .inr ?_⟩
    exact hg.elim (m := m) (c := c) (fun c' hne => by simp [setCpu_cpu_of_ne _ _ _ hne]) (fun _ _ _ hl => hl) id
      (fun hm => by simp [Pc.mode] at hm) (fun a lk hpc' => by simp at hpc')
  | take lk pc b hpc hFree =>
    refine ⟨[.acquired c (m.cpu c).proc lk], rfl, by simp [Event.Foreign], ?_⟩
    obtain ⟨-, -, hMode, -, -⟩ := hpc.keeps
    refine hg.elim (m := m) (c := c) (fun c' hne => by simp [setCpu_cpu_of_ne _ _ _ hne]) (fun c' hne lk' hl => ?_)
      .inr (fun hm hp hl => ?_) (fun a lk' hpc' hp hch => ?_)
    · rcases eq_or_ne lk' lk with rfl | hlk
      · simp [Ne.symm hne] at hl
      · simpa [hlk] using hl
    · simp only [logs_cpu, setCpu_cpu, pushcli_proc] at hm hp
      rcases eq_or_ne (lockOf ch) lk with hlk | hlk
      · exact .inl ⟨_, List.mem_singleton_self _, hp, hlk.symm⟩
      · exact .inr (.inl ⟨c, hMode ▸ hm, hp, by simpa [hlk] using hl⟩)
    · simp only [logs_cpu, setCpu_cpu] at hpc'
      rw [hpc'] at hpc
      generalize (m.cpu c).pc = pc₀ at hpc
      cases hpc
  | give lk pc b hpc =>
    refine ⟨[], rfl, by simp, .inr ?_⟩
    obtain ⟨-, -, hMode, -, -⟩ := hpc.keeps
    have hSub (c' : C) (lk' : Lock) (hl : Function.update m.locks lk none lk' = some c') :
        m.locks lk' = some c' := by
      rcases eq_or_ne lk' lk with rfl | hlk
      · simp at hl
      · simpa [hlk] using hl
    refine hg.elim (m := m) (c := c)
      (fun c' hne => by simp [release_cpu_of_ne _ _ _ _ hne, setCpu_cpu_of_ne _ _ _ hne])
      (fun c' _ lk' hl => hSub c' lk' hl) id (fun hm hp hl => ?_) (fun a lk' hpc' hp hch => ?_)
    · rw [release_cpu] at hm hp
      rw [popcli_proc, setCpu_cpu] at hp
      rcases popcli_pc ((m.setCpu c { m.cpu c with intena := b }).cpu c) pc with he | ⟨e, he⟩
      · rw [he, hMode] at hm
        exact .inl ⟨c, hm, hp, hSub c _ hl⟩
      · rw [he] at hm
        cases hm
    · rw [release_cpu] at hpc' hp
      rw [popcli_proc, setCpu_cpu] at hp
      rcases popcli_pc ((m.setCpu c { m.cpu c with intena := b }).cpu c) pc with he | ⟨e, he⟩
      · -- `sleep` gives its lock back with the table's held
        rw [he] at hpc'
        subst hpc'
        have hBody : (m.cpu c).pc = .body (.sleep a lk') := by
          generalize (m.cpu c).pc = pc₀ at hpc
          generalize hsl : Pc.sleep a lk' = pc₁ at hpc
          cases hpc with
          | sleep chan lk =>
            cases hsl
            rfl
          | leave n => cases n <;> cases hsl
          | _ => cases hsl
        have hAgrees := hk.agrees c
        rw [hBody] at hAgrees
        refine .inl ⟨c, by rw [hBody]; rfl, hp, ?_⟩
        rw [hch, hAgrees]
        exact hk.needs c _ (by rw [hBody]; rfl)
      · rw [he] at hpc'
        cases hpc'

omit [DecidableEq C] in
/-- A step of `c` that takes no lock and does not enter the code of a process makes no guard. -/
theorem Guarded.of_write {p : Slot} {ch : Chan} (hg : Guarded lockOf m' p ch)
    (hOther : ∀ c', c' ≠ c → m'.cpu c' = m.cpu c') (hLocks : m'.locks = m.locks)
    (hMode : (m'.cpu c).pc.mode = .proc → (m.cpu c).pc.mode = .proc ∧ (m'.cpu c).proc = (m.cpu c).proc)
    (hpc : ∀ a lk, (m'.cpu c).pc ≠ .sleep a lk) : Guarded lockOf m p ch := by
  refine hg.elim (c := c) (fun c' hne => by rw [hOther c' hne]; exact ⟨rfl, rfl⟩) (fun c' _ lk hl => hLocks ▸ hl)
    id (fun hm hp hl => ?_) (fun a lk hpc' => absurd hpc' (hpc a lk))
  obtain ⟨hm', hp'⟩ := hMode hm
  exact .inl ⟨c, hm', hp' ▸ hp, hLocks ▸ hl⟩

omit [DecidableEq C] in
/-- Who calls `wakeup1` on a channel with its lock and the table's held is the one process
that can guard it. -/
theorem Guarded.owner (hc : Cpus m) {p : Slot} {ch : Chan} (hg : Guarded lockOf m p ch)
    (hHolding : (m.cpu c).pc.holding = true) (hNot : ∀ a lk, (m.cpu c).pc ≠ .sleep a lk)
    (hLock : m.locks (lockOf ch) = some c) : (m.cpu c).pc.mode = .proc ∧ (m.cpu c).proc = some p := by
  rcases hg with ⟨c', hm, hp, hl⟩ | ⟨c', a, lk, hpc, -, -⟩
  · obtain rfl : c = c' := Option.some.inj (hLock.symm.trans hl)
    exact ⟨hm, hp⟩
  · have hHeld := hc.holds c' (by rw [hpc]; rfl)
    obtain rfl : c = c' := Option.some.inj ((hc.holds c hHolding).symm.trans hHeld)
    exact absurd hpc (hNot a lk)

omit [DecidableEq C] in
theorem wakes_exitEvents {q : Slot} {ch : Chan} {e : Event C} (he : e ∈ m.exitEvents c q) (hw : e.Wakes ch) :
    (m.tbl.proc q).parent.map .proc = some ch ∨
    ch = .proc m.tbl.initproc ∧ ∃ a, (m.tbl.proc a).parent = some q ∧ (m.tbl.proc a).state = .zombie := by
  rw [exitEvents] at he
  rcases List.mem_cons.mp he with rfl | he
  · exact hw.elim
  · rcases List.mem_append.mp he with he | he
    · split at he
      · rename_i hAny
        obtain rfl := List.mem_singleton.mp he
        obtain ⟨a, -, ha⟩ := List.any_eq_true.mp hAny
        exact .inr ⟨(Option.some.inj hw).symm, a, of_decide_eq_true ha⟩
      · cases he
    · obtain rfl := List.mem_singleton.mp he
      exact .inl hw

/-- A step makes a guard only by giving the lock to the slot, and no step wakes a channel
from outside while it is guarded. -/
theorem Step.guarded (hc : Cpus m) (hk : Locking lockOf m) (hTable : ∀ p, lockOf (.proc p) = .ptable)
    (hs : m.Step c m') {p : Slot} {ch : Chan} (hg : Guarded lockOf m' p ch) :
    ∃ es, m'.trace = es ++ m.trace ∧ (∀ e ∈ es, ¬ e.Foreign p ch) ∧
    ((∃ e ∈ es, e.Acquires p (lockOf ch)) ∨ Guarded lockOf m p ch) := by
  cases hs with
  | quiet m' hq => exact hq.guarded hk hg
  | switch q hpc hq =>
    refine ⟨[.acquired c (some q) .ptable], rfl, by simp [Event.Foreign], ?_⟩
    have hBare := hk.bare c (by rw [hpc]; rfl)
    refine hg.elim (m := m) (c := c) (fun c' hne => by simp [setCpu_cpu_of_ne _ _ _ hne]) (fun _ _ _ hl => hl) .inr
      (fun hm hp hl => ?_) (fun a lk hpc' => by simp at hpc')
    simp only [logs_cpu, setCpu_cpu] at hp
    refine .inl ⟨_, List.mem_singleton_self _, hp, ?_⟩
    cases hlk : lockOf ch with
    | ptable => rfl
    | other a =>
      rw [hlk] at hl
      exact absurd hl (hBare a)
  | wakeup chan irq hpc =>
    have hOld : Guarded lockOf m p ch := by
      refine hg.of_write (c := c) (fun c' hne => by simp [goto_cpu_of_ne _ _ _ hne]) rfl (fun hm => ?_) (by simp)
      cases irq with
      | true => simp [Pc.mode] at hm
      | false => exact ⟨by rw [hpc]; rfl, by simp⟩
    refine ⟨[.woke c (m.cpu c).proc (some chan)], rfl, fun e he hf => ?_, .inr hOld⟩
    obtain rfl := List.mem_singleton.mp he
    obtain ⟨hch, hne⟩ := hf
    obtain rfl := Option.some.inj hch
    exact hne (hOld.owner hc (by rw [hpc]; rfl) (by simp [hpc]) (hk.needs c _ (by rw [hpc]; rfl))).2
  | exit q hpc hProc =>
    have hOld : Guarded lockOf m p ch :=
      hg.of_write (c := c) (fun c' hne => by simp [goto_cpu_of_ne _ _ _ hne]) rfl (by simp [Pc.mode]) (by simp)
    refine ⟨m.exitEvents c q, rfl, fun e he hf => ?_, .inr hOld⟩
    have hHeld := hc.holds c (by rw [hpc]; rfl)
    -- the lock of a slot's channel is the table's, which `exit` holds
    have hLock : lockOf ch = .ptable := by
      rcases wakes_exitEvents he (Event.Foreign.wakes hf) with hw | ⟨rfl, -⟩
      · obtain ⟨r, -, rfl⟩ := Option.map_eq_some_iff.mp hw
        exact hTable r
      · exact hTable _
    rcases hg with ⟨c', hm, -, hl⟩ | ⟨c', a, lk, hpc', -, -⟩
    · rw [hLock] at hl
      obtain rfl : c = c' := Option.some.inj (hHeld.symm.trans hl)
      simp [Pc.mode] at hm
    · have hcc : c' ≠ c := by
        rintro rfl
        simp at hpc'
      rw [logs_cpu, goto_cpu_of_ne _ _ _ hcc] at hpc'
      have hHeld' := hc.holds c' (by rw [show (m.cpu c').pc = .sleep a lk from hpc']; rfl)
      exact hcc (Option.some.inj (hHeld'.symm.trans hHeld))
  | sched q k hpc hProc hncli =>
    exact ⟨[], rfl, by simp, .inr (hg.of_write (c := c) (fun c' hne => by simp [goto_cpu_of_ne _ _ _ hne]) rfl
      (by simp [Pc.mode]) (by simp))⟩
  | yield q hpc hProc =>
    exact ⟨[], rfl, by simp, .inr (hg.of_write (c := c) (fun c' hne => by simp [goto_cpu_of_ne _ _ _ hne]) rfl
      (by simp [Pc.mode]) (by simp))⟩
  | waitSleeps q hpc hProc hNone =>
    exact ⟨[_], rfl, by simp [Event.Foreign], .inr (hg.of_write (c := c)
      (fun c' hne => by simp [goto_cpu_of_ne _ _ _ hne]) rfl (by simp [Pc.mode]) (by simp))⟩
  | sleep q chan lk hpc hProc =>
    exact ⟨[_], rfl, by simp [Event.Foreign], .inr (hg.of_write (c := c)
      (fun c' hne => by simp [goto_cpu_of_ne _ _ _ hne]) rfl (by simp [Pc.mode]) (by simp))⟩
  | sleepBack q lk b hpc hProc =>
    exact ⟨[], rfl, by simp, .inr (hg.of_write (c := c) (fun c' hne => by simp [setCpu_cpu_of_ne _ _ _ hne]) rfl
      (fun _ => ⟨by rw [hpc]; rfl, by simp⟩) (by simp))⟩
  | waitBack q b hpc hProc =>
    exact ⟨[], rfl, by simp, .inr (hg.of_write (c := c) (fun c' hne => by simp [setCpu_cpu_of_ne _ _ _ hne]) rfl
      (fun _ => ⟨by rw [hpc]; rfl, by simp⟩) (by simp))⟩
  | allocproc q hpc hq =>
    exact ⟨[_], rfl, by simp [Event.Foreign], .inr (hg.of_write (c := c)
      (fun c' hne => by simp [goto_cpu_of_ne _ _ _ hne]) rfl (fun _ => ⟨by rw [hpc]; rfl, by simp⟩) (by simp))⟩
  | reaped q r hpc hProc hr hz =>
    exact ⟨[_], rfl, by simp [Event.Foreign], .inr (hg.of_write (c := c)
      (fun c' hne => by simp [goto_cpu_of_ne _ _ _ hne]) rfl (fun _ => ⟨by rw [hpc]; rfl, by simp⟩) (by simp))⟩
  | forked q pid hpc hProc =>
    exact ⟨[_], rfl, by simp [Event.Foreign], .inr (hg.of_write (c := c)
      (fun c' hne => by simp [goto_cpu_of_ne _ _ _ hne]) rfl (fun _ => ⟨by rw [hpc]; rfl, by simp⟩) (by simp))⟩
  | _ =>
    have hpc := ‹(m.cpu c).pc = _›
    exact ⟨[], rfl, by simp, .inr (hg.of_write (c := c) (fun c' hne => by simp [goto_cpu_of_ne _ _ _ hne]) rfl
      (fun _ => ⟨by rw [hpc]; rfl, by simp⟩) (by simp))⟩

omit [DecidableEq C] in
theorem Asleep.of_wakes {p : Slot} {ch : Chan} {s : ProcState} (ha : Asleep m' p ch)
    (hw : Ptable.Wakes (m.state p) s) (hs : m'.state p = s) (hch : (m'.tbl.proc p).chan = (m.tbl.proc p).chan) :
    Asleep m p ch := by
  obtain ⟨hsl, hch'⟩ := ha
  refine ⟨?_, hch ▸ hch'⟩
  rcases hw with he | ⟨-, he⟩
  · exact he.symm.trans (hs.symm.trans hsl)
  · rw [hs, he] at hsl
    cases hsl

/-- A slot goes to sleep from a guarded place, and does not stay asleep through a wake-up of
its channel. -/
theorem Step.asleep (hc : Cpus m) (hTable : ∀ p, lockOf (.proc p) = .ptable) (hs : m.Step c m') {p : Slot}
    {ch : Chan} (ha : Asleep m' p ch) :
    ∃ es, m'.trace = es ++ m.trace ∧ (es = [.slept p ch] ∧ Guarded lockOf m p ch ∨
      Asleep m p ch ∧ ∀ e ∈ es, ¬ e.Wakes ch) := by
  -- a step that changes slot `q` to one that is awake, or leaves its state and channel alone
  have hSlot (q : Slot) (f : Proc → Proc) (hm' : m'.tbl.proc = (m.tbl.set q f).proc)
      (hf : (f (m.tbl.proc q)).state ≠ .sleeping ∨ (f (m.tbl.proc q)).chan = none ∨
        (f (m.tbl.proc q)).state = (m.tbl.proc q).state ∧ (f (m.tbl.proc q)).chan = (m.tbl.proc q).chan) :
      Asleep m p ch := by
    obtain ⟨hsl, hch⟩ := ha
    rw [state, hm'] at hsl
    rw [hm'] at hch
    rcases eq_or_ne p q with rfl | hne
    · rw [Ptable.set_proc] at hsl hch
      rcases hf with hf | hf | ⟨hf, hf'⟩
      · exact absurd hsl hf
      · simp [hf] at hch
      · exact ⟨hf.symm.trans hsl, hf'.symm.trans hch⟩
    · rw [Ptable.set_proc_of_ne _ _ hne] at hsl hch
      exact ⟨hsl, hch⟩
  cases hs with
  | quiet m' hq =>
    cases hq with
    | take lk pc b hpc hFree => exact ⟨[_], rfl, .inr ⟨ha, by simp [Event.Wakes]⟩⟩
    | _ => exact ⟨[], rfl, .inr ⟨ha, by simp⟩⟩
  | switch q hpc hq => exact ⟨[_], rfl, .inr ⟨hSlot q _ rfl (.inl (by simp)), by simp [Event.Wakes]⟩⟩
  | sched q k hpc hProc hncli => exact ⟨[], rfl, .inr ⟨hSlot q _ rfl (.inr (.inr ⟨rfl, rfl⟩)), by simp⟩⟩
  | sleepBack q lk b hpc hProc => exact ⟨[], rfl, .inr ⟨hSlot q _ rfl (.inr (.inl rfl)), by simp⟩⟩
  | waitBack q b hpc hProc => exact ⟨[], rfl, .inr ⟨hSlot q _ rfl (.inr (.inl rfl)), by simp⟩⟩
  | wakeup chan irq hpc =>
    obtain ⟨s, hw, he, hNot⟩ := m.tbl.wakeup1_proc (some chan) p
    have hOld : Asleep m p ch := by
      refine ha.of_wakes hw ?_ ?_
      · simp [state, he]
      · simp [he]
    refine ⟨[_], rfl, .inr ⟨hOld, fun e hmem hwk => ?_⟩⟩
    obtain rfl := List.mem_singleton.mp hmem
    have hsl := ha.1
    simp only [state, logs_tbl, goto_tbl, withTbl_tbl, he] at hsl
    exact hNot hsl (hOld.2.trans hwk.symm)
  | kill pid hpc =>
    obtain ⟨s, k, hw, he⟩ := m.tbl.kill_proc pid p
    refine ⟨[], rfl, .inr ⟨ha.of_wakes hw ?_ ?_, by simp⟩⟩
    · simp [state, he]
    · simp [he]
  | allocproc q hpc hq =>
    exact ⟨[_], rfl, .inr ⟨hSlot q (fun q => { q with state := .embryo, pid := m.tbl.nextpid }) rfl
      (.inl (by simp)), by simp [Event.Wakes]⟩⟩
  | yield q hpc hProc => exact ⟨[], rfl, .inr ⟨hSlot q _ rfl (.inl (by simp)), by simp⟩⟩
  | exit q hpc hProc =>
    obtain ⟨s, hw, he, hNot⟩ := m.tbl.exit_proc q p
    have hsl := ha.1
    simp only [state, logs_tbl, goto_tbl, withTbl_tbl, he] at hsl
    have hpq : p ≠ q := by
      rintro rfl
      simp at hsl
    rw [if_neg hpq] at hsl
    have hOld : Asleep m p ch := by
      refine ha.of_wakes hw ?_ ?_
      · simp [state, he, hpq]
      · simp [he]
    refine ⟨m.exitEvents c q, rfl, .inr ⟨hOld, fun e hmem hwk => ?_⟩⟩
    obtain ⟨hNotParent, hNotInit⟩ := hNot hsl
    rcases wakes_exitEvents hmem hwk with hpar | ⟨rfl, a, hz⟩
    · exact hNotParent (hOld.2.trans hpar.symm)
    · exact hNotInit hOld.2 a hz.1 hz.2
  | reaped q r hpc hProc hr hz =>
    exact ⟨[_], rfl, .inr ⟨hSlot r _ rfl (.inl (by simp [Ptable.reapSlot])), by simp [Event.Wakes]⟩⟩
  | waitSleeps q hpc hProc hNone =>
    rcases eq_or_ne p q with rfl | hne
    · obtain rfl : Chan.proc p = ch := Option.some.inj (by simpa using ha.2)
      refine ⟨[_], rfl, .inl ⟨rfl, .inl ⟨c, by rw [hpc]; rfl, hProc, ?_⟩⟩⟩
      rw [hTable]
      exact hc.holds c (by rw [hpc]; rfl)
    · refine ⟨[_], rfl, .inr ⟨?_, by simp [Event.Wakes]⟩⟩
      simpa [Asleep, state, Ptable.set_proc_of_ne _ _ hne] using ha
  | sleep q chan lk hpc hProc =>
    rcases eq_or_ne p q with rfl | hne
    · obtain rfl : Chan.addr chan = ch := Option.some.inj (by simpa using ha.2)
      exact ⟨[_], rfl, .inl ⟨rfl, .inr ⟨c, chan, lk, hpc, hProc, rfl⟩⟩⟩
    · refine ⟨[_], rfl, .inr ⟨?_, by simp [Event.Wakes]⟩⟩
      simpa [Asleep, state, Ptable.set_proc_of_ne _ _ hne] using ha
  | noKstack q hpc => exact ⟨[], rfl, .inr ⟨hSlot q _ rfl (.inl (by simp)), by simp⟩⟩
  | noCopy q hpc => exact ⟨[], rfl, .inr ⟨hSlot q _ rfl (.inl (by simp)), by simp⟩⟩
  | ready q hpc => exact ⟨[], rfl, .inr ⟨hSlot q _ rfl (.inl (by simp)), by simp⟩⟩
  | kstack q a hpc => exact ⟨[], rfl, .inr ⟨hSlot q _ rfl (.inr (.inr ⟨rfl, rfl⟩)), by simp⟩⟩
  | copy q a hpc => exact ⟨[], rfl, .inr ⟨hSlot q _ rfl (.inr (.inr ⟨rfl, rfl⟩)), by simp⟩⟩
  | parent q curr hpc hProc => exact ⟨[], rfl, .inr ⟨hSlot q _ rfl (.inr (.inr ⟨rfl, rfl⟩)), by simp⟩⟩
  | forked q pid hpc hProc => exact ⟨[_], rfl, .inr ⟨ha, by simp [Event.Wakes]⟩⟩

/-- Since a guarded slot got the lock of the channel, nobody else woke the channel. A sleeper
went to sleep in such a place, and since then nobody woke the channel. -/
structure Kept (lockOf : Chan → Lock) (m : Machine C) : Prop where
  guarded : ∀ p ch, Guarded lockOf m p ch →
    Since (fun e => ¬ e.Foreign p ch) (fun e => e.Acquires p (lockOf ch)) m.trace
  asleep : ∀ p ch, Asleep m p ch → ∃ l₁ l₂, m.trace = l₁ ++ .slept p ch :: l₂ ∧ (∀ e ∈ l₁, ¬ e.Wakes ch) ∧
    Since (fun e => ¬ e.Foreign p ch) (fun e => e.Acquires p (lockOf ch)) l₂

theorem Kept.step (h : Kept lockOf m) (hc : Cpus m) (hk : Locking lockOf m)
    (hTable : ∀ p, lockOf (.proc p) = .ptable) (hs : m.Step c m') : Kept lockOf m' := by
  constructor
  · intro p ch hg
    obtain ⟨es, hes, hNot, ⟨e, he, hq⟩ | hOld⟩ := hs.guarded hc hk hTable hg
    · rw [hes]
      exact .of_mem he hq hNot
    · rw [hes]
      exact (h.guarded p ch hOld).append hNot
  · intro p ch ha
    obtain ⟨es, hes, ⟨rfl, hg⟩ | ⟨hOld, hNot⟩⟩ := hs.asleep hc hTable ha
    · exact ⟨[], m.trace, hes, by simp, h.guarded p ch hg⟩
    · obtain ⟨l₁, l₂, ht, hl₁, hSince⟩ := h.asleep p ch hOld
      refine ⟨es ++ l₁, l₂, by rw [hes, ht, List.append_assoc], fun e he => ?_, hSince⟩
      rcases List.mem_append.mp he with he | he
      · exact hNot e he
      · exact hl₁ e he

omit [DecidableEq C] in
theorem Locking.boot (kstack pgdir : Nat) (enabled : C → Bool) : Locking lockOf (boot kstack pgdir enabled) where
  count c _ := ⟨∅, by simp [Machine.boot], rfl⟩
  needs c lk h := by cases h
  agrees c := trivial
  bare c _ lk h := by cases h

omit [DecidableEq C] in
theorem Kept.boot (kstack pgdir : Nat) (enabled : C → Bool) : Kept lockOf (boot kstack pgdir enabled) where
  guarded p ch h := by
    rcases h with ⟨c, hm, -, -⟩ | ⟨c, a, lk, hpc, -, -⟩
    · cases hm
    · cases hpc
  asleep p ch h := by
    obtain ⟨hs, -⟩ := h
    simp only [state, Machine.boot, Ptable.userinit, Function.update_apply] at hs
    split at hs <;> cases hs

theorem Kept.exec (hTable : ∀ p, lockOf (.proc p) = .ptable) {as : List (C × Act C)} (h : Kept lockOf m)
    (hc : Cpus m) (hk : Locking lockOf m) (hObeys : obeys lockOf m as = true) (hExec : m.exec as = some m') :
    Kept lockOf m' := by
  induction as generalizing m with
  | nil => exact Option.some.inj hExec ▸ h
  | cons a as ih =>
    obtain ⟨c, a⟩ := a
    obtain ⟨m₁, hm₁, hExec⟩ := Option.bind_eq_some_iff.mp hExec
    rw [obeys, hm₁, Option.all_some, Bool.and_eq_true, decide_eq_true_eq] at hObeys
    have hs := step_cases hm₁
    exact ih (h.step hc hk hTable hs) (hc.step hs) (hk.step hc hm₁ hObeys.1) hObeys.2 hExec

/-- In every run whose callers of `sleep` and `wakeup` hold the lock of the channel, a process
that sleeps on a channel went to sleep after the last wake-up of the channel took effect, and
between its taking of the lock and its going to sleep no one else woke the channel. -/
theorem no_lost_wakeup (lockOf : Chan → Lock) (hTable : ∀ p, lockOf (.proc p) = .ptable) (kstack pgdir : Nat)
    (enabled : C → Bool) (as : List (C × Act C)) (m : Machine C)
    (hExec : (Machine.boot kstack pgdir enabled).exec as = some m)
    (hObeys : obeys lockOf (Machine.boot kstack pgdir enabled) as = true)
    (p : Slot) (ch : Chan) (hs : m.state p = .sleeping) (hch : (m.tbl.proc p).chan = some ch) :
    ∃ l₁ l₂, m.trace = l₁ ++ .slept p ch :: l₂ ∧ (∀ e ∈ l₁, ¬ e.Wakes ch) ∧
      Since (fun e => ¬ e.Foreign p ch) (fun e => e.Acquires p (lockOf ch)) l₂ :=
  ((Kept.boot kstack pgdir enabled).exec hTable (Cpus.boot kstack pgdir enabled)
    (Locking.boot kstack pgdir enabled) hObeys hExec).asleep p ch ⟨hs, hch⟩

def lockOfAddr : Chan → Lock
  | .proc _ => .ptable
  | .addr a => .other a

/-- `init` starts to run, takes a lock and goes to sleep. -/
def lockAndSleep : List (Fin 4 × Act (Fin 4)) :=
  [(0, .next), (0, .next), (0, .next), (0, .acquire 7), (0, .invoke (.sleep 7 7)), (0, .next), (0, .next), (0, .next)]

theorem no_lost_wakeup_init : ∃ m : Machine (Fin 4),
    (Machine.boot 1 1 fun _ => true).exec lockAndSleep = some m ∧
    m.state 0 = .sleeping ∧ (m.tbl.proc 0).chan = some (.addr 7) ∧
    ∃ l₁ l₂, m.trace = l₁ ++ .slept 0 (.addr 7) :: l₂ ∧ (∀ e ∈ l₁, ¬ e.Wakes (.addr 7)) ∧
      Since (fun e => ¬ e.Foreign 0 (.addr 7)) (fun e => e.Acquires 0 (.other 7)) l₂ :=
  ⟨_, rfl, rfl, rfl, no_lost_wakeup lockOfAddr (fun _ => rfl) 1 1 (fun _ => true) lockAndSleep _ rfl
    (by decide +kernel) 0 (.addr 7) rfl rfl⟩

end Machine

end Xv6Rpi.Sched
