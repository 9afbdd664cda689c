import Mathlib.Data.List.Flatten
import Xv6Rpi.Fs.Crash

/-! # Transactions, crashes and restarts in any order

Over its life a disk sees many transactions, and the machine stops whenever it likes: in a transaction, in a commit, or in the
recovery that follows. Afterwards every transaction that was committed is there, in order, and of a transaction that was cut off
all or nothing is there; it is all when the header had been written.
-/

namespace Xv6Rpi.Fs

open Writes

inductive LogEvent where
  /-- A transaction from `begin_trans` to the end of `commit_trans`. -/
  | commit (ws : List Write)
  /-- The machine stops after the first `k` sector writes of a transaction, and starts again. -/
  | crash (ws : List Write) (k : Nat)

def LogEvent.writes : LogEvent → List Write
  | .commit ws | .crash ws _ => ws

/-- The writes that are there afterwards: `log_write` writes one sector each time, and the next one is the header. -/
def LogEvent.effect : LogEvent → List Write
  | .commit ws => ws
  | .crash ws k => if ws.length < k then ws else []

def mountedLog (d : Disk) : Log := { readHead (logOf (readsb d)) d with n := 0 }

/-- The machine starts, and stops again in the recovery as often as it likes before one runs to its end. -/
def Restarts (d : Disk) (r : Log × Disk) : Prop :=
  ∃ d₁, Relation.ReflTransGen Interrupted d d₁ ∧ r = (mountedLog d₁, apply (initlog d₁) d₁)

def Happens (s : Log × Disk) : LogEvent → Log × Disk → Prop
  | .commit ws, s' => ∃ r, logWrites (beginTrans s.1) ws = .ok r ∧
      s' = ((commitTrans r.1 (apply r.2 s.2)).1, apply (r.2 ++ (commitTrans r.1 (apply r.2 s.2)).2) s.2)
  | .crash ws k, s' => ∃ trace, transaction s.1 ws s.2 = .ok trace ∧ Restarts (apply (trace.take k) s.2) s'

/-- A run of transactions and crashes. -/
inductive History : Log × Disk → List LogEvent → Log × Disk → Prop
  | nil (s : Log × Disk) : History s [] s
  | cons {s s₁ s' : Log × Disk} {e : LogEvent} {es : List LogEvent} (hHappens : Happens s e s₁) (hRest : History s₁ es s') :
      History s (e :: es) s'

section Restart

variable {l : Log} {d d' target : Disk}

theorem StandsFor.restarts (h : StandsFor l d target) (hSuper : ¬l.Holds 1) {r : Log × Disk} (hRestarts : Restarts d r) :
    Ready r.1 r.2 ∧ r.1.start = l.start ∧ r.1.size = l.size ∧ ∀ s, ¬l.Holds s → r.2 s = target s := by
  obtain ⟨d₁, hRun, rfl⟩ := hRestarts
  have hMid : StandsFor l d₁ target := by
    induction hRun with
    | refl => exact h
    | tail _ hStep ih =>
      obtain ⟨k, rfl⟩ := hStep
      exact ih.interrupted hSuper k
  have hPlace : logOf (readsb d₁) = l := hMid.place
  have hReady : Ready (logOf (readsb d₁)) (apply (initlog d₁) d₁) :=
    ready_initlog (hPlace.symm ▸ hMid) (by rwa [hPlace])
  have hStart : (logOf (readsb d₁)).start = l.start := by rw [hPlace]
  have hSize : (logOf (readsb d₁)).size = l.size := by rw [hPlace]
  exact ⟨⟨hReady.start, hReady.size, rfl, hReady.clean, hReady.super⟩, hStart, hSize, fun s hs => hMid.recovered hs⟩

end Restart

section Step

variable {l l' : Log} {d d' : Disk} {ws : List Write} {r : Log × List Write}

theorem logWrite_length {sector : Nat} {data : Block} (hr : logWrite l sector data = .ok r) : r.2.length = 1 := by
  rw [Fs.logWrite] at hr
  split at hr
  · cases hr
  split at hr
  · cases hr
  · obtain rfl := Except.ok.inj hr
    rfl

theorem logWrites_length (hr : logWrites l ws = .ok r) : r.2.length = ws.length := by
  induction ws generalizing l r with
  | nil =>
    obtain rfl := Except.ok.inj hr
    rfl
  | cons w ws ih =>
    obtain ⟨r₁, h₁, hr⟩ := bind_eq_ok.mp hr
    obtain ⟨r₂, h₂, rfl⟩ := map_eq_ok.mp hr
    rw [List.length_append, logWrite_length h₁, ih h₂, List.length_cons, Nat.add_comm]

theorem Filled.eq_nil {lt : Log} {d₁ : Disk} (h : Filled l lt ws d d₁) (hn : ¬0 < lt.n) : ws = [] := by
  cases ws with
  | nil => rfl
  | cons w ws =>
    obtain ⟨i, hi, -⟩ := (h.logged.mem w.1).mpr ⟨w, List.mem_cons_self, rfl⟩
    omega

theorem Ready.cut (h : Ready l d) (hHomes : Homes l ws) {trace : List Write} (hTrace : transaction l ws d = .ok trace) (k : Nat) :
    StandsFor (logOf (readsb d)) (apply (trace.take k) d) (apply (LogEvent.crash ws k).effect d) := by
  obtain ⟨r, hr, rfl⟩ := map_eq_ok.mp hTrace
  obtain ⟨hFilled, hIn⟩ := h.filled hHomes hr
  have hLen := logWrites_length hr
  by_cases hk : ws.length < k
  · -- the header has been written
    rw [LogEvent.effect, if_pos hk, List.take_append, List.take_of_length_le (by omega), apply_append]
    by_cases hn : 0 < r.1.n
    · obtain ⟨i, hi⟩ : ∃ i, k - r.2.length = i + 1 := ⟨k - r.2.length - 1, by omega⟩
      have hSuper : ¬(logOf (readsb d)).Holds 1 := by
        rw [h.holds_iff]
        exact h.super
      rw [hFilled.commitTrans_eq hn, hi, List.take_succ_cons, apply_cons]
      exact hFilled.standsFor_new.interrupted hSuper i
    · rw [hFilled.eq_nil hn, commitTrans, if_neg hn, List.take_nil]
      exact h.standsFor_old hIn
  · rw [LogEvent.effect, if_neg hk, List.take_append_of_le_length (by omega)]
    exact h.standsFor_old fun w hw => hIn w (List.mem_of_mem_take hw)

theorem Ready.commits (h : Ready l d) (hHomes : Homes l ws) (hr : logWrites (beginTrans l) ws = .ok r) :
    Ready (commitTrans r.1 (apply r.2 d)).1 (apply (r.2 ++ (commitTrans r.1 (apply r.2 d)).2) d) ∧
      (commitTrans r.1 (apply r.2 d)).1.start = l.start ∧ (commitTrans r.1 (apply r.2 d)).1.size = l.size ∧
      ∀ s, ¬l.Holds s → apply (r.2 ++ (commitTrans r.1 (apply r.2 d)).2) d s = apply ws d s := by
  obtain ⟨hFilled, hIn⟩ := h.filled hHomes hr
  have hSuper : ¬(logOf (readsb d)).Holds 1 := by
    rw [h.holds_iff]
    exact h.super
  rw [apply_append]
  by_cases hn : 0 < r.1.n
  · have hNew := hFilled.standsFor_new
    have hPlace := hNew.place
    have hEnd := hNew.interrupted hSuper (initlog (Function.update (apply r.2 d) l.start (commitHead r.1 (apply r.2 d)))).length
    rw [List.take_length] at hEnd
    have hReady : Ready (logOf (readsb (Function.update (apply r.2 d) l.start (commitHead r.1 (apply r.2 d))))) _ :=
      ready_initlog (hPlace.symm ▸ hNew) (by rwa [hPlace])
    have hSame : (commitTrans r.1 (apply r.2 d)).1 = { r.1 with n := 0, busy := false } := by
      rw [commitTrans, if_pos hn]
    rw [hSame, hFilled.commitTrans_eq hn, apply_cons]
    refine ⟨⟨?_, ?_, rfl, ?_, ?_⟩, hFilled.start, hFilled.size, fun s hs => ?_⟩
    · rw [hEnd.place]
      exact hFilled.start.trans h.start
    · rw [hEnd.place]
      exact hFilled.size.trans h.size
    · have hClean := hReady.clean
      rw [hPlace, ← h.start] at hClean
      exact (congrArg (fun x => getWord (apply _ _ x) 0) hFilled.start).trans hClean
    · exact fun hHolds => h.super ((hFilled.holds_iff 1).mp hHolds)
    · exact hNew.recovered (by rwa [h.holds_iff])
  · obtain rfl := hFilled.eq_nil hn
    obtain rfl := Except.ok.inj hr
    have hSame : (commitTrans (beginTrans l) (apply [] d)) = ({ beginTrans l with busy := false }, []) := by
      rw [commitTrans, if_neg hn]
    rw [hSame]
    exact ⟨⟨h.start, h.size, h.empty, h.clean, h.super⟩, rfl, rfl, fun _ _ => rfl⟩

theorem Ready.happens {s s' : Log × Disk} {e : LogEvent} (h : Ready s.1 s.2) (hHomes : Homes s.1 e.writes) (hHappens : Happens s e s') :
    Ready s'.1 s'.2 ∧ s'.1.start = s.1.start ∧ s'.1.size = s.1.size ∧ ∀ x, ¬s.1.Holds x → s'.2 x = apply e.effect s.2 x := by
  cases e with
  | commit ws =>
    obtain ⟨r, hr, rfl⟩ := hHappens
    exact h.commits hHomes hr
  | crash ws k =>
    obtain ⟨trace, hTrace, hRestarts⟩ := hHappens
    have hSuper : ¬(logOf (readsb s.2)).Holds 1 := by
      rw [h.holds_iff]
      exact h.super
    obtain ⟨hReady, hStart, hSize, hSame⟩ := (h.cut hHomes hTrace k).restarts hSuper hRestarts
    exact ⟨hReady, hStart.trans h.start.symm, hSize.trans h.size.symm, fun x hx => hSame x (by rwa [h.holds_iff])⟩

end Step

section Run

variable {l l' : Log} {s s' : Log × Disk} {es : List LogEvent}

theorem Homes.congr {ws : List Write} (h : Homes l ws) (hStart : l'.start = l.start) (hSize : l'.size = l.size) : Homes l' ws where
  lt := h.lt
  out w hw := by
    rw [Log.Holds, hStart, hSize]
    exact h.out w hw
  super w hw hOne := by
    rw [hStart, hSize]
    exact h.super w hw hOne

/-- Committed transactions are durable, and a transaction that is cut off is there as a whole or not at all: after any run of
transactions, crashes and restarts that may be cut off too, the disk outside the log holds the effects of the events, in order,
and the log is ready for the next transaction. -/
theorem transactions_durable (hReady : Ready s.1 s.2) (hHomes : ∀ e ∈ es, Homes s.1 e.writes) (hRun : History s es s') :
    Ready s'.1 s'.2 ∧ ∀ x, ¬s.1.Holds x → s'.2 x = apply (es.flatMap LogEvent.effect) s.2 x := by
  induction hRun with
  | nil s => exact ⟨hReady, fun _ _ => rfl⟩
  | @cons s s₁ s' e es hHappens _ ih =>
    obtain ⟨hReady₁, hStart, hSize, hSame⟩ := hReady.happens (hHomes e List.mem_cons_self) hHappens
    obtain ⟨hReady', hSame'⟩ := ih hReady₁ fun e' he' => (hHomes e' (List.mem_cons_of_mem _ he')).congr hStart hSize
    refine ⟨hReady', fun x hx => ?_⟩
    have hx₁ : ¬s₁.1.Holds x := by
      rw [Log.Holds, hStart, hSize]
      exact hx
    rw [hSame' x hx₁, List.flatMap_cons, apply_append]
    exact apply_congr (Or.inr (hSame x hx))

end Run

section Example

/-- What happens when no recovery is cut off. -/
def LogEvent.run (s : Log × Disk) : LogEvent → Option (Log × Disk)
  | .commit ws => ((logWrites (beginTrans s.1) ws).map fun r =>
      ((commitTrans r.1 (apply r.2 s.2)).1, apply (r.2 ++ (commitTrans r.1 (apply r.2 s.2)).2) s.2)).toOption
  | .crash ws k => ((transaction s.1 ws s.2).map fun trace =>
      (mountedLog (apply (trace.take k) s.2), apply (initlog (apply (trace.take k) s.2)) (apply (trace.take k) s.2))).toOption

def runEvents (s : Log × Disk) : List LogEvent → Option (Log × Disk)
  | [] => some s
  | e :: es => (e.run s).bind fun s₁ => runEvents s₁ es

theorem happens_run {s s' : Log × Disk} {e : LogEvent} (h : e.run s = some s') : Happens s e s' := by
  cases e with
  | commit ws =>
    obtain ⟨r, hr, hEq⟩ := map_eq_ok.mp (toOption_eq_some.mp h)
    exact ⟨r, hr, hEq.symm⟩
  | crash ws k =>
    obtain ⟨trace, hTrace, hEq⟩ := map_eq_ok.mp (toOption_eq_some.mp h)
    exact ⟨trace, hTrace, _, .refl, hEq.symm⟩

theorem history_run {s s' : Log × Disk} {es : List LogEvent} (h : runEvents s es = some s') : History s es s' := by
  induction es generalizing s with
  | nil =>
    obtain rfl := Option.some.inj h
    exact .nil s
  | cons e es ih =>
    obtain ⟨s₁, h₁, hRest⟩ := Option.bind_eq_some_iff.mp h
    exact .cons (happens_run h₁) (ih hRest)

/-- A transaction, one that is cut off before its header is written, and one that is cut off after it. -/
def exampleEvents : List LogEvent :=
  [.commit [(5, fun _ => 7), (6, fun _ => 8)], .crash [(5, fun _ => 1), (7, fun _ => 1)] 2, .crash [(6, fun _ => 9), (5, fun _ => 3)] 3]

theorem transactions_durable_example : ∃ s', History (logOf ⟨40, 0, 0, 10⟩, exampleDisk) exampleEvents s' ∧
    s'.2 5 = (fun _ => 3) ∧ s'.2 6 = (fun _ => 9) ∧ s'.2 7 = zeroBlock := by
  have hSome : (runEvents (logOf ⟨40, 0, 0, 10⟩, exampleDisk) exampleEvents).isSome = true := by decide +kernel
  obtain ⟨s', hRun⟩ := Option.isSome_iff_exists.mp hSome
  have hHistory := history_run hRun
  have hHomes : ∀ e ∈ exampleEvents, Homes (logOf ⟨40, 0, 0, 10⟩) e.writes := by
    simp only [exampleEvents, List.forall_mem_cons, LogEvent.writes]
    exact ⟨⟨by simp, by simp [Log.Holds, logOf], by simp⟩, ⟨by simp, by simp [Log.Holds, logOf], by simp⟩,
      ⟨by simp, by simp [Log.Holds, logOf], by simp⟩, by simp⟩
  have hSame := (transactions_durable exampleDisk_ready hHomes hHistory).2
  have hOut : ∀ x < 30, ¬(logOf ⟨40, 0, 0, 10⟩).Holds x := fun x hx hHolds => by
    have hLow : 30 ≤ x := hHolds.1
    omega
  exact ⟨s', hHistory, hSame 5 (hOut 5 (by decide)), hSame 6 (hOut 6 (by decide)), hSame 7 (hOut 7 (by decide))⟩

end Example

end Xv6Rpi.Fs
