import Xv6Rpi.Base
import Xv6Rpi.Lib.Run

/-! # cpuutil of main.c

The words `cpus[i].enabled` are given for every index, also for those that are not in the table. The
loop that is to find another CPU that is on adds up `cpus[NCPU].enabled`, a word behind the table.
So it is that word which decides whether a CPU may be switched off.
-/

namespace Xv6Rpi.Syscall

def ncpu : Nat := 4

/-- The words `cpus[i].enabled`; those of the table are the ones with `0 ≤ i < ncpu`. -/
abbrev Enabled := Int → BitVec 32

def IsCpu (i : Int) : Prop := 0 ≤ i ∧ i < ncpu

instance (i : Int) : Decidable (IsCpu i) := inferInstanceAs (Decidable (_ ∧ _))

/-- The loop of `cpuutil` below `i`: the sum, and the indices into `cpus` that it takes. -/
def othersOn (cpus : Enabled) (cpunum : Int) : Nat → BitVec 32 × List Int
  | 0 => (0, [])
  | i + 1 =>
    let r := othersOn cpus cpunum i
    if (i : Int) ≠ cpunum then (r.1 + cpus ncpu, r.2 ++ [(ncpu : Int)]) else r

/-- What `cpuutil` returns, the words it leaves, and the indices into `cpus` that it takes. -/
structure Answer where
  ret : BitVec 32
  cpus : Enabled
  used : List Int

def setEnabled (cpus : Enabled) (cpunum enabled : BitVec 32) (used : List Int) : Answer :=
  if enabled ≠ 0 ∧ enabled ≠ 1 then ⟨-1, cpus, used⟩
  else ⟨0, Function.update cpus cpunum.toInt enabled, used ++ [cpunum.toInt]⟩

def cpuutil (cpus : Enabled) (cpunum mode enabled : BitVec 32) : Answer :=
  if mode = 0 then ⟨cpus cpunum.toInt, cpus, [cpunum.toInt]⟩
  else if mode = 1 then
    if cpunum.toInt < 0 ∨ cpunum.toInt ≥ ncpu then ⟨-1, cpus, []⟩
    else if enabled = 0 then
      let others := othersOn cpus cpunum.toInt ncpu
      if others.1 = 0 then ⟨-1, cpus, others.2⟩ else setEnabled cpus cpunum enabled others.2
    else setEnabled cpus cpunum enabled []
  else ⟨-1, cpus, []⟩

section Calls

/-- A call, with the words that memory outside of the table holds when it is made. -/
structure UtilCall where
  cpunum : BitVec 32
  mode : BitVec 32
  enabled : BitVec 32
  foreign : Enabled

def amid (cpus foreign : Enabled) : Enabled := fun i => if IsCpu i then cpus i else foreign i

def UtilCall.answer (cpus : Enabled) (c : UtilCall) : Answer :=
  cpuutil (amid cpus c.foreign) c.cpunum c.mode c.enabled

def utilStep (cpus : Enabled) (c : UtilCall) : Option Enabled := some (c.answer cpus).cpus

def UtilCall.Disables (c : UtilCall) : Prop := c.mode = 1 ∧ IsCpu c.cpunum.toInt ∧ c.enabled = 0

def UtilCall.Refused (cpus : Enabled) (c : UtilCall) : Prop := (c.answer cpus).ret = -1

/-- `scheduler` of that CPU leaves its loop. -/
def SomeOn (cpus : Enabled) : Prop := ∃ i, IsCpu i ∧ cpus i ≠ 0

def OtherOn (cpus : Enabled) (c : UtilCall) : Prop := ∃ i, IsCpu i ∧ i ≠ c.cpunum.toInt ∧ cpus i ≠ 0

variable {cpus : Enabled} {c : UtilCall}

theorem amid_of_isCpu {foreign : Enabled} {i : Int} (h : IsCpu i) : amid cpus foreign i = cpus i := if_pos h

theorem amid_ncpu (cpus foreign : Enabled) : amid cpus foreign ncpu = foreign ncpu := if_neg (by decide)

/-- The loop takes the word behind the table three times, whichever CPU is left out. -/
theorem othersOn_eq {i : Int} (h : IsCpu i) :
    othersOn cpus i ncpu = (0 + cpus ncpu + cpus ncpu + cpus ncpu, [(ncpu : Int), ncpu, ncpu]) := by
  have hCase : i = 0 ∨ i = 1 ∨ i = 2 ∨ i = 3 := by
    simp only [IsCpu, ncpu] at h
    omega
  rcases hCase with rfl | rfl | rfl | rfl
  all_goals rfl

theorem three_mul_mod {x : Nat} (hLt : x < 2 ^ 32) (h : 3 * x % 2 ^ 32 = 0) : x = 0 :=
  have hCoprime : Nat.Coprime (2 ^ 32) 3 := by decide
  Nat.eq_zero_of_dvd_of_lt (hCoprime.dvd_of_dvd_mul_left (Nat.dvd_of_mod_eq_zero h)) hLt

theorem othersOn_zero {i : Int} (h : IsCpu i) : (othersOn cpus i ncpu).1 = 0 ↔ cpus ncpu = 0 := by
  rw [othersOn_eq h]
  dsimp only
  constructor
  · intro hSum
    have hNat := congrArg BitVec.toNat hSum
    simp only [BitVec.toNat_add, show (0 : BitVec 32).toNat = 0 from rfl, Nat.zero_add,
      Nat.mod_add_mod] at hNat
    have hThree : 3 * (cpus ncpu).toNat % 2 ^ 32 = 0 := by
      rwa [show 3 = 1 + 1 + 1 from rfl, Nat.add_mul, Nat.add_mul, Nat.one_mul]
    exact BitVec.eq_of_toNat_eq (three_mul_mod (cpus ncpu).isLt hThree)
  · intro hZero
    rw [hZero]
    rfl

/-- The guard of the last CPU looks at the word behind the table alone. -/
theorem answer_disable (h : c.Disables) : c.answer cpus =
    if c.foreign ncpu = 0 then ⟨-1, amid cpus c.foreign, [(ncpu : Int), ncpu, ncpu]⟩
    else ⟨0, Function.update (amid cpus c.foreign) c.cpunum.toInt 0, [(ncpu : Int), ncpu, ncpu, c.cpunum.toInt]⟩ := by
  obtain ⟨hMode, hCpu, hOff⟩ := h
  have hIn : ¬(c.cpunum.toInt < 0 ∨ c.cpunum.toInt ≥ ncpu) := by
    obtain ⟨h1, h2⟩ := hCpu
    omega
  rw [UtilCall.answer, cpuutil, if_neg (by rw [hMode]; decide), if_pos hMode, if_neg hIn, if_pos hOff]
  dsimp only
  by_cases hZero : c.foreign ncpu = 0
  · rw [if_pos hZero, if_pos (by rw [othersOn_zero hCpu, amid_ncpu, hZero]), othersOn_eq hCpu]
  · rw [if_neg hZero, if_neg (by rwa [othersOn_zero hCpu, amid_ncpu]), setEnabled, if_neg (by rw [hOff]; simp),
      othersOn_eq hCpu, hOff]
    rfl

theorem refused_iff (h : c.Disables) : c.Refused cpus ↔ c.foreign ncpu = 0 := by
  rw [UtilCall.Refused, answer_disable h]
  by_cases hZero : c.foreign ncpu = 0
  · rw [if_pos hZero]
    exact iff_of_true rfl hZero
  · rw [if_neg hZero]
    exact iff_of_false (show ¬(0 : BitVec 32) = -1 by decide) hZero

theorem answer_of_not_refused (h : c.Disables) (hNot : ¬c.Refused cpus) :
    (c.answer cpus).cpus = Function.update (amid cpus c.foreign) c.cpunum.toInt 0 := by
  rw [refused_iff h] at hNot
  rw [answer_disable h, if_neg hNot]

theorem setEnabled_on {cpunum enabled : BitVec 32} {used : List Int} (hNz : enabled ≠ 0) {i : Int} (hOn : cpus i ≠ 0) :
    (setEnabled cpus cpunum enabled used).cpus i ≠ 0 := by
  rw [setEnabled]
  split
  · exact hOn
  · dsimp only
    by_cases hEq : i = cpunum.toInt
    · rwa [hEq, Function.update_self]
    · rwa [Function.update_of_ne hEq]

/-- Apart from a request to switch a CPU off that is granted, no call switches one off. -/
theorem answer_on (h : c.Disables → c.Refused cpus) {i : Int} (hi : IsCpu i) (hOn : cpus i ≠ 0) :
    (c.answer cpus).cpus i ≠ 0 := by
  have hAmid : amid cpus c.foreign i ≠ 0 := by rwa [amid_of_isCpu hi]
  by_cases hDis : c.Disables
  · rw [answer_disable hDis, if_pos ((refused_iff hDis).mp (h hDis))]
    exact hAmid
  · rw [UtilCall.answer, cpuutil]
    split
    · exact hAmid
    · split
      · rename_i hMode
        split
        · exact hAmid
        · rename_i hCpu
          have hNz : c.enabled ≠ 0 := by
            intro hOff
            exact hDis ⟨hMode, ⟨by omega, by omega⟩, hOff⟩
          rw [if_neg hNz]
          exact setEnabled_on hNz hAmid
      · exact hAmid

theorem SomeOn.answer (h : SomeOn cpus) (hExact : c.Disables → OtherOn cpus c ∨ c.Refused cpus) :
    SomeOn (c.answer cpus).cpus := by
  by_cases hKept : c.Disables → c.Refused cpus
  · obtain ⟨i, hi, hOn⟩ := h
    exact ⟨i, hi, answer_on hKept hi hOn⟩
  · obtain ⟨hDis, hNot⟩ := Classical.not_imp.mp hKept
    obtain ⟨i, hi, hNe, hOn⟩ := (hExact hDis).resolve_right hNot
    refine ⟨i, hi, ?_⟩
    rw [answer_of_not_refused hDis hNot, Function.update_of_ne hNe, amid_of_isCpu hi]
    exact hOn

/-- The word behind the table says what the table says. -/
def UtilCall.Honest (cpus : Enabled) (c : UtilCall) : Prop := c.Disables → (c.foreign ncpu = 0 ↔ ¬OtherOn cpus c)

/-- A request to switch a CPU off is refused exactly when no other is on. -/
def UtilCall.Exact (cpus : Enabled) (c : UtilCall) : Prop := c.Disables → (c.Refused cpus ↔ ¬OtherOn cpus c)

theorem exact_iff : c.Exact cpus ↔ c.Honest cpus := by
  constructor
  · intro h hDis
    rw [← h hDis, refused_iff hDis]
  · intro h hDis
    rw [← h hDis, refused_iff hDis]

end Calls

/-- A run of calls refuses the right requests and always leaves a CPU on if and only if at each
request to switch one off the word behind the table is zero just when no other CPU is on. -/
theorem last_cpu_stays_on {cpus : Enabled} (hOn : SomeOn cpus) (calls : List UtilCall) :
    Along utilStep (fun cpus c cpus' => c.Exact cpus ∧ SomeOn cpus') cpus calls ↔
      Along utilStep (fun cpus c _ => c.Honest cpus) cpus calls := by
  induction calls generalizing cpus with
  | nil => exact Iff.rfl
  | cons c calls ih =>
    constructor
    · intro h cpus' hStep
      obtain ⟨⟨hExact, hOn'⟩, hRest⟩ := h cpus' hStep
      exact ⟨exact_iff.mp hExact, (ih hOn').mp hRest⟩
    · intro h cpus' hStep
      obtain ⟨hHonest, hRest⟩ := h cpus' hStep
      have hExact := exact_iff.mpr hHonest
      obtain rfl := Option.some.inj hStep
      have hOn' : SomeOn (c.answer cpus).cpus := hOn.answer fun hDis => by
        rw [hExact hDis]
        exact Classical.em _
      exact ⟨⟨hExact, hOn'⟩, (ih hOn').mpr hRest⟩

def bootCpus : Enabled := fun i => if i = 0 then 1 else 0

theorem last_cpu_stays_on_boot : Along utilStep (fun cpus c cpus' => c.Exact cpus ∧ SomeOn cpus') bootCpus
    [⟨0, 0, 0, fun _ => 0⟩, ⟨2, 1, 1, fun _ => 5⟩] :=
  (last_cpu_stays_on ⟨0, by decide, by decide⟩ _).mpr fun cpus' _ =>
    ⟨fun h => absurd h.1 (by decide), fun cpus'' _ => ⟨fun h => absurd h.2.2 (by decide), trivial⟩⟩

/-- With a non-zero word behind the table the last CPU is switched off; with a zero word there one of
two CPUs is not. -/
theorem last_cpu_switched_off :
    (¬Along utilStep (fun cpus c cpus' => c.Exact cpus ∧ SomeOn cpus') bootCpus [⟨0, 1, 0, fun _ => 1⟩]) ∧
    ¬Along utilStep (fun cpus c cpus' => c.Exact cpus ∧ SomeOn cpus') (fun i => if i = 0 ∨ i = 1 then 1 else 0)
      [⟨1, 1, 0, fun _ => 0⟩] := by
  constructor
  · intro h
    obtain ⟨⟨-, i, ⟨hLow, hHigh⟩, hOn⟩, -⟩ := h _ rfl
    have hCase : i = 0 ∨ i = 1 ∨ i = 2 ∨ i = 3 := by
      simp only [ncpu] at hHigh
      omega
    rcases hCase with rfl | rfl | rfl | rfl
    all_goals exact hOn (by decide)
  · intro h
    obtain ⟨⟨hExact, -⟩, -⟩ := h _ rfl
    have hRefused := (hExact ⟨rfl, by decide, rfl⟩).mp (show _ = (-1 : BitVec 32) by decide)
    exact hRefused ⟨0, by decide, by decide, by decide⟩

end Xv6Rpi.Syscall
