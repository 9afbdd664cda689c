import Xv6Rpi.Fs.Log

/-! # Crashes

The machine can stop between any two sector writes. Recovery reads the header, copies the
logged blocks to their homes again and clears the header; it can be stopped too. The
invariant says what a disk stands for: the contents that recovery would leave outside the
log.
-/

namespace Xv6Rpi.Fs

open Writes

def Log.Holds (l : Log) (s : Nat) : Prop := l.start ≤ s ∧ s ≤ l.start + (l.size - 1)

def logged (l : Log) (d : Disk) : List Write := (List.range l.n).map fun i => (l.sector i, d (l.slot i))

section Header

theorem getWord_putSectors_zero (b : Block) (sector : Nat → Nat) (m : Nat) :
    getWord (putSectors b sector m) 0 = getWord b 0 := by
  induction m with
  | zero => rfl
  | succ m ih => rw [putSectors, getWord_setWord_of_disjoint _ (by omega), ih]

theorem getWord_putSectors {b : Block} {sector : Nat → Nat} {m i : Nat} (hi : i < m) :
    getWord (putSectors b sector m) (4 + 4 * i) = sector i % 2 ^ 32 := by
  induction m with
  | zero => omega
  | succ m ih =>
    rw [putSectors]
    by_cases h : i = m
    · rw [h, getWord_setWord_self]
    · rw [getWord_setWord_of_disjoint _ (by omega), ih (by omega)]

theorem readHead_putSectors {l : Log} {d : Disk} {b : Block} {n : Nat} {sector : Nat → Nat}
    (hn : n ≤ logsize) (hSector : ∀ i < n, sector i < 2 ^ 32)
    (hd : d l.start = putSectors (setWord b 0 n) sector n) :
    (readHead l d).n = n ∧ ∀ i < n, (readHead l d).sector i = sector i := by
  have hCount : loopBound (getWord (d l.start) 0) = n := by
    rw [hd, getWord_putSectors_zero, getWord_setWord_self]
    simp only [logsize] at hn
    rw [Nat.mod_eq_of_lt (by omega), loopBound, if_pos (by omega)]
  refine ⟨hCount, fun i hi => ?_⟩
  simp only [readHead, hCount, if_pos hi]
  rw [hd, getWord_putSectors hi, Nat.mod_eq_of_lt (hSector i hi)]

end Header

section Install

variable {l l' : Log} {d d' : Disk}

theorem logged_congr (hn : l'.n = l.n) (hSector : ∀ i < l.n, l'.sector i = l.sector i)
    (hSlot : ∀ i < l.n, d' (l'.slot i) = d (l.slot i)) : logged l' d' = logged l d := by
  rw [logged, logged, hn]
  apply List.map_congr_left
  intro i hi
  have hi := List.mem_range.mp hi
  rw [hSector i hi, hSlot i hi]

theorem slot_holds {i : Nat} (hi : i + 1 < l.size) : l.Holds (l.slot i) := by
  simp only [Log.Holds, Log.slot]
  omega

theorem slot_ne_start (i : Nat) : l.slot i ≠ l.start := by
  simp only [Log.slot]
  omega

theorem readHead_slot (l : Log) (d : Disk) (i : Nat) : (readHead l d).slot i = l.slot i := rfl

theorem writeHead_zero (l : Log) (d : Disk) :
    writeHead { l with n := 0 } d = [(l.start, setWord (d l.start) 0 0)] := rfl

/-- With all homes outside the log, the slots stay as they are while they are copied. -/
theorem installFrom_eq (tail k : Nat) (hSize : tail + k + 1 ≤ l.size ∨ k = 0)
    (hHome : ∀ i, tail ≤ i → i < tail + k → ¬l.Holds (l.sector i)) :
    installFrom l tail k d = (List.range' tail k).map fun i => (l.sector i, d (l.slot i)) := by
  induction k generalizing tail d with
  | zero => rfl
  | succ k ih =>
    rw [installFrom, List.range'_succ, List.map_cons,
      ih (tail + 1) (Or.inl (by omega)) fun i h1 h2 => hHome i (by omega) (by omega)]
    congr 1
    apply List.map_congr_left
    intro i hi
    have hi := List.mem_range'_1.mp hi
    have hne : l.slot i ≠ l.sector tail := by
      intro hEq
      apply hHome tail le_rfl (by omega)
      rw [← hEq]
      exact slot_holds (by omega)
    rw [Function.update_of_ne hne]

theorem installTrans_eq (hSize : l.n + 1 ≤ l.size ∨ l.n = 0) (hHome : ∀ i < l.n, ¬l.Holds (l.sector i)) :
    installTrans l d = logged l d := by
  rw [installTrans, installFrom_eq 0 l.n (by omega) fun i _ hi => hHome i (by omega), logged,
    List.range_eq_range']

end Install

section Recovery

/-- A disk whose log lies at the place of `l` and that recovery turns into `target`
outside the log. -/
structure StandsFor (l : Log) (d target : Disk) : Prop where
  place : logOf (readsb d) = l
  size : (readHead l d).n + 1 ≤ l.size ∨ (readHead l d).n = 0
  home : ∀ i < (readHead l d).n, ¬l.Holds ((readHead l d).sector i)
  super : ∀ i < (readHead l d).n, (readHead l d).sector i = 1 → logOf (decodeSb (d (l.slot i))) = l
  target : ∀ s, ¬l.Holds s → apply (logged (readHead l d) d) d s = target s

variable {l : Log} {d d' target : Disk}

theorem start_holds : l.Holds l.start := ⟨le_rfl, by omega⟩

/-- Nothing but the header and the blocks it names decides what a disk stands for. -/
theorem StandsFor.of_home (h : StandsFor l d target) (hPlace : logOf (readsb d') = l)
    (hHead : d' l.start = d l.start) (hSlot : ∀ i < (readHead l d).n, d' (l.slot i) = d (l.slot i))
    (hHome : ∀ s, ¬l.Holds s → (∃ w ∈ logged (readHead l d) d, w.1 = s) ∨ d' s = d s) :
    StandsFor l d' target := by
  have hRead : readHead l d' = readHead l d := by
    rw [readHead, readHead, hHead]
  have hLogged : logged (readHead l d) d' = logged (readHead l d) d :=
    logged_congr rfl (fun _ _ => rfl) hSlot
  refine ⟨hPlace, by rw [hRead]; exact h.size, by rw [hRead]; exact h.home, ?_, ?_⟩
  · rw [hRead]
    intro i hi hOne
    rw [hSlot i hi]
    exact h.super i hi hOne
  · intro s hs
    rw [hRead, hLogged, ← h.target s hs]
    exact apply_congr (hHome s hs)

theorem StandsFor.initlog_eq (h : StandsFor l d target) :
    initlog d = logged (readHead l d) d ++
      [(l.start, setWord (apply (logged (readHead l d) d) d l.start) 0 0)] := by
  have hInstall : installTrans (readHead l d) d = logged (readHead l d) d := installTrans_eq h.size h.home
  rw [initlog, h.place, recoverFromLog]
  simp only [hInstall]
  rfl

theorem StandsFor.ne_of_mem_logged (h : StandsFor l d target) {w : Write}
    (hw : w ∈ logged (readHead l d) d) {s : Nat} (hs : l.Holds s) : w.1 ≠ s := by
  obtain ⟨i, hi, rfl⟩ := List.mem_map.mp hw
  rintro rfl
  exact h.home i (List.mem_range.mp hi) hs

theorem StandsFor.place_apply (h : StandsFor l d target) {ws : List Write}
    (hws : ∀ w ∈ ws, w ∈ logged (readHead l d) d) : logOf (readsb (apply ws d)) = l := by
  by_cases hOne : ∃ w ∈ ws, w.1 = 1
  · obtain ⟨i, hi, hEq⟩ := List.mem_map.mp (hws _ (apply_mem (f := d) hOne))
    obtain ⟨hSec, hData⟩ := Prod.mk.inj hEq
    rw [readsb, ← hData]
    exact h.super i (List.mem_range.mp hi) hSec
  · rw [readsb, apply_of_forall_ne fun w hw hEq => hOne ⟨w, hw, hEq⟩]
    exact h.place

theorem StandsFor.install (h : StandsFor l d target) (k : Nat) :
    StandsFor l (apply ((logged (readHead l d) d).take k) d) target := by
  have hMem : ∀ w ∈ (logged (readHead l d) d).take k, w ∈ logged (readHead l d) d :=
    fun w hw => List.mem_of_mem_take hw
  apply h.of_home (h.place_apply hMem)
  · exact apply_of_forall_ne fun w hw => h.ne_of_mem_logged (hMem w hw) start_holds
  · intro i hi
    have hHolds : l.Holds (l.slot i) := by
      apply slot_holds
      have := h.size
      omega
    exact apply_of_forall_ne fun w hw => h.ne_of_mem_logged (hMem w hw) hHolds
  · intro s _
    by_cases hs : ∃ w ∈ logged (readHead l d) d, w.1 = s
    · exact Or.inl hs
    · exact Or.inr (apply_of_forall_ne fun w hw hEq => hs ⟨w, hMem w hw, hEq⟩)

/-- A disk without logged blocks stands for itself. -/
theorem standsFor_of_empty (hPlace : logOf (readsb d) = l) (hEmpty : getWord (d l.start) 0 = 0)
    (hTarget : ∀ s, ¬l.Holds s → d s = target s) : StandsFor l d target := by
  have hn : (readHead l d).n = 0 := by
    simp only [readHead, hEmpty]
    rfl
  refine ⟨hPlace, Or.inr hn, fun i hi => by omega, fun i hi => by omega, fun s hs => ?_⟩
  rw [logged, hn]
  exact hTarget s hs

theorem StandsFor.recovered (h : StandsFor l d target) {s : Nat} (hs : ¬l.Holds s) :
    apply (initlog d) d s = target s := by
  have hne : s ≠ l.start := by
    rintro rfl
    exact hs start_holds
  rw [h.initlog_eq, apply_concat, Function.update_of_ne hne]
  exact h.target s hs

theorem StandsFor.interrupted (h : StandsFor l d target) (hSuper : ¬l.Holds 1) (k : Nat) :
    StandsFor l (apply ((initlog d).take k) d) target := by
  have hDone := h.install (logged (readHead l d) d).length
  rw [List.take_length] at hDone
  rw [h.initlog_eq]
  rcases take_append_cases (logged (readHead l d) d)
    [(l.start, setWord (apply (logged (readHead l d) d) d l.start) 0 0)] k with ⟨i, hi⟩ | ⟨i, hi⟩
  · rw [hi]
    exact h.install i
  · rw [hi]
    cases i with
    | zero =>
      rw [List.take_zero, List.append_nil]
      exact hDone
    | succ i =>
      -- the header is cleared once all blocks are home
      rw [List.take_of_length_le (by simp), apply_concat]
      have hOne : 1 ≠ l.start := by
        intro hEq
        exact hSuper (hEq ▸ start_holds)
      apply standsFor_of_empty
      · rw [readsb, Function.update_of_ne hOne]
        exact hDone.place
      · rw [Function.update_self, getWord_setWord_self, Nat.zero_mod]
      · intro s hs
        have hne : s ≠ l.start := by
          rintro rfl
          exact hs start_holds
        rw [Function.update_of_ne hne]
        exact h.target s hs

end Recovery

section Transaction

/-- The state of a transaction that began on disk `d` and has logged `us` so far. -/
structure Logged (l : Log) (us : List Write) (d d' : Disk) : Prop where
  size : l.n + 1 ≤ l.size ∨ l.n = 0
  small : l.n ≤ logsize
  mem : ∀ s, (∃ i < l.n, l.sector i = s) ↔ ∃ w ∈ us, w.1 = s
  inj : ∀ i < l.n, ∀ j < l.n, l.sector i = l.sector j → i = j
  data : ∀ i < l.n, d' (l.slot i) = apply us d (l.sector i)
  rest : ∀ s, (∀ i < l.n, s ≠ l.slot i) → d' s = d s

variable {l l' : Log} {us : List Write} {d d' : Disk} {sector : Nat} {data : Block}

theorem logIndex_of_mem (h : ∃ i < l.n, l.sector i = sector) :
    logIndex l sector < l.n ∧ l.sector (logIndex l sector) = sector := by
  obtain ⟨i, hi, hSec⟩ := h
  rw [logIndex]
  cases hFind : (List.range l.n).find? fun i => l.sector i = sector with
  | none =>
    have := List.find?_eq_none.mp hFind i (List.mem_range.mpr hi)
    simp [hSec] at this
  | some j =>
    exact ⟨List.mem_range.mp (List.mem_of_find?_eq_some hFind), by simpa using List.find?_some hFind⟩

theorem logIndex_of_notMem (h : ¬∃ i < l.n, l.sector i = sector) : logIndex l sector = l.n := by
  rw [logIndex, List.find?_eq_none.mpr, Option.getD_none]
  intro i hi hSec
  exact h ⟨i, List.mem_range.mp hi, by simpa using hSec⟩

theorem slot_injective (l : Log) : Function.Injective l.slot := by
  intro i j h
  simp only [Log.slot] at h
  omega

theorem slot_ne {i j : Nat} (h : i ≠ j) : l.slot i ≠ l.slot j := fun hEq => h (slot_injective l hEq)

/-- A sector that is logged already gets its new contents in its old slot. -/
theorem Logged.absorb (h : Logged l us d d') (data : Block) {i : Nat} (hi : i < l.n) :
    Logged l (us ++ [(l.sector i, data)]) d (Function.update d' (l.slot i) data) where
  size := h.size
  small := h.small
  mem s := by
    rw [h.mem s]
    constructor
    · rintro ⟨w, hw, rfl⟩
      exact ⟨w, List.mem_append_left _ hw, rfl⟩
    · rintro ⟨w, hw, rfl⟩
      rcases List.mem_append.mp hw with hw | hw
      · exact ⟨w, hw, rfl⟩
      · obtain rfl := List.mem_singleton.mp hw
        exact (h.mem _).mp ⟨i, hi, rfl⟩
  inj := h.inj
  data j hj := by
    rw [apply_concat]
    by_cases hij : j = i
    · rw [hij, Function.update_self, Function.update_self]
    · rw [Function.update_of_ne (slot_ne hij),
        Function.update_of_ne fun hEq => hij (h.inj j hj i hi hEq)]
      exact h.data j hj
  rest s hs := by
    rw [Function.update_of_ne (hs i hi)]
    exact h.rest s hs

theorem Logged.push (h : Logged l us d d') (hNew : ¬∃ i < l.n, l.sector i = sector)
    (hSize : l.n + 2 ≤ l.size) (hSmall : l.n < logsize) :
    Logged { l with sector := Function.update l.sector l.n sector, n := l.n + 1 } (us ++ [(sector, data)])
      d (Function.update d' (l.slot l.n) data) where
  size := Or.inl hSize
  small := hSmall
  mem s := by
    simp only [List.mem_append, List.mem_singleton, or_and_right, exists_or, exists_eq_left]
    rw [← h.mem s]
    constructor
    · rintro ⟨i, hi, rfl⟩
      by_cases hEq : i = l.n
      · right
        rw [hEq, Function.update_self]
      · exact Or.inl ⟨i, by omega, by rw [Function.update_of_ne hEq]⟩
    · rintro (⟨i, hi, rfl⟩ | rfl)
      · exact ⟨i, by omega, by rw [Function.update_of_ne (Nat.ne_of_lt hi)]⟩
      · exact ⟨l.n, Nat.lt_succ_self _, by rw [Function.update_self]⟩
  inj i hi j hj hEq := by
    dsimp only at hi hj hEq
    by_cases hin : i = l.n
    · by_cases hjn : j = l.n
      · rw [hin, hjn]
      · rw [hin, Function.update_self, Function.update_of_ne hjn] at hEq
        exact absurd ⟨j, by omega, hEq.symm⟩ hNew
    · by_cases hjn : j = l.n
      · rw [hjn, Function.update_self, Function.update_of_ne hin] at hEq
        exact absurd ⟨i, by omega, hEq⟩ hNew
      · rw [Function.update_of_ne hin, Function.update_of_ne hjn] at hEq
        exact h.inj i (by omega) j (by omega) hEq
  data j hj := by
    dsimp only at hj
    rw [apply_concat]
    by_cases hjn : j = l.n
    · subst hjn
      simp only [Log.slot, Function.update_self]
    · have hne : l.sector j ≠ sector := fun hEq => hNew ⟨j, by omega, hEq⟩
      have hSlot : l.slot j ≠ l.slot l.n := slot_ne hjn
      simp only [Log.slot] at hSlot
      simp only [Log.slot, Function.update_of_ne hjn, Function.update_of_ne hne,
        Function.update_of_ne hSlot]
      exact h.data j (by omega)
  rest s hs := by
    have hTop : s ≠ l.slot l.n := hs l.n (Nat.lt_succ_self _)
    rw [Function.update_of_ne hTop]
    exact h.rest s fun i hi => hs i (Nat.lt_succ_of_lt hi)

theorem Logged.logWrite {r : Log × List Write} (h : Logged l us d d') (hr : logWrite l sector data = .ok r) :
    Logged r.1 (us ++ [(sector, data)]) d (apply r.2 d') ∧ r.1.start = l.start ∧ r.1.size = l.size ∧
      ∀ w ∈ r.2, l.Holds w.1 ∧ w.1 ≠ l.start := by
  rw [Fs.logWrite] at hr
  split at hr
  · cases hr
  rename_i hFull
  split at hr
  · cases hr
  obtain rfl := Except.ok.inj hr
  by_cases hOld : ∃ i < l.n, l.sector i = sector
  · obtain ⟨hLt, hSec⟩ := logIndex_of_mem hOld
    have hUpd : Function.update l.sector (logIndex l sector) sector = l.sector := by
      rw [← hSec, hSec, Function.update_eq_self_iff, hSec]
    refine ⟨?_, rfl, rfl, ?_⟩
    · simp only [hUpd, if_neg (Nat.ne_of_lt hLt), apply_cons, apply_nil]
      have := h.absorb data hLt
      rwa [hSec] at this
    · intro w hw
      obtain rfl := List.mem_singleton.mp hw
      exact ⟨slot_holds (by omega), slot_ne_start _⟩
  · have hIdx := logIndex_of_notMem hOld
    refine ⟨?_, rfl, rfl, ?_⟩
    · simp only [hIdx, if_true, apply_cons, apply_nil]
      exact h.push hOld (by omega) (by omega)
    · intro w hw
      obtain rfl := List.mem_singleton.mp hw
      rw [hIdx]
      exact ⟨slot_holds (by omega), slot_ne_start _⟩

theorem Logged.logWrites {r : Log × List Write} {ws : List Write} (h : Logged l us d d')
    (hr : logWrites l ws = .ok r) :
    Logged r.1 (us ++ ws) d (apply r.2 d') ∧ r.1.start = l.start ∧ r.1.size = l.size ∧
      ∀ w ∈ r.2, l.Holds w.1 ∧ w.1 ≠ l.start := by
  induction ws generalizing l us d' r with
  | nil =>
    obtain rfl := Except.ok.inj hr
    refine ⟨?_, rfl, rfl, fun w hw => by cases hw⟩
    rw [List.append_nil]
    exact h
  | cons w ws ih =>
    obtain ⟨r₁, h₁, hr⟩ := bind_eq_ok.mp hr
    obtain ⟨r₂, h₂, rfl⟩ := map_eq_ok.mp hr
    obtain ⟨hL₁, hStart₁, hSize₁, hIn₁⟩ := h.logWrite h₁
    obtain ⟨hL₂, hStart₂, hSize₂, hIn₂⟩ := ih hL₁ h₂
    refine ⟨?_, hStart₂.trans hStart₁, hSize₂.trans hSize₁, ?_⟩
    · rw [apply_append]
      rwa [List.append_assoc, List.singleton_append] at hL₂
    · intro v hv
      rcases List.mem_append.mp hv with hv | hv
      · exact hIn₁ v hv
      · have := hIn₂ v hv
        rwa [Log.Holds, hStart₁, hSize₁] at this

theorem logged_begin (l : Log) (d : Disk) (hn : l.n = 0) : Logged (beginTrans l) [] d d where
  size := Or.inr hn
  small := by
    simp only [beginTrans, hn]
    exact Nat.zero_le _
  mem s := by simp [beginTrans, hn]
  inj i hi := by simp [beginTrans, hn] at hi
  data i hi := by simp [beginTrans, hn] at hi
  rest s _ := rfl

theorem Logged.apply_logged (h : Logged l us d d') : apply (logged l d') d = apply us d := by
  funext s
  by_cases hs : ∃ i < l.n, l.sector i = s
  · have hMem : ∃ w ∈ logged l d', w.1 = s := by
      obtain ⟨i, hi, rfl⟩ := hs
      exact ⟨_, List.mem_map.mpr ⟨i, List.mem_range.mpr hi, rfl⟩, rfl⟩
    obtain ⟨i, hi, hEq⟩ := List.mem_map.mp (apply_mem (f := d) hMem)
    obtain ⟨rfl, hData⟩ := Prod.mk.inj hEq
    exact hData.symm.trans (h.data i (List.mem_range.mp hi))
  · have hNot : ∀ w ∈ us, w.1 ≠ s := fun w hw hEq => hs ((h.mem s).mpr ⟨w, hw, hEq⟩)
    rw [apply_of_forall_ne hNot, apply_of_forall_ne]
    intro w hw hEq
    obtain ⟨i, hi, rfl⟩ := List.mem_map.mp hw
    exact hs ⟨i, List.mem_range.mp hi, hEq⟩

end Transaction

section Commit

/-- The log between two transactions, as `initlog` and `commit_trans` leave it. -/
structure Ready (l : Log) (d : Disk) : Prop where
  start : l.start = (logOf (readsb d)).start
  size : l.size = (logOf (readsb d)).size
  empty : l.n = 0
  clean : getWord (d l.start) 0 = 0
  super : ¬l.Holds 1

/-- The blocks of a transaction have homes outside the log and leave the log its place. -/
structure Homes (l : Log) (ws : List Write) : Prop where
  lt : ∀ w ∈ ws, w.1 < 2 ^ 32
  out : ∀ w ∈ ws, ¬l.Holds w.1
  super : ∀ w ∈ ws, w.1 = 1 → (logOf (decodeSb w.2)).start = l.start ∧ (logOf (decodeSb w.2)).size = l.size

variable {l l₀ : Log} {d : Disk} {ws : List Write}

theorem logOf_eq {sb : Superblock} (hStart : (logOf sb).start = (logOf (readsb d)).start)
    (hSize : (logOf sb).size = (logOf (readsb d)).size) : logOf sb = logOf (readsb d) := by
  simp only [logOf] at *
  rw [hStart, hSize]

theorem Ready.holds_iff (h : Ready l d) (s : Nat) : (logOf (readsb d)).Holds s ↔ l.Holds s := by
  rw [Log.Holds, Log.Holds, h.start, h.size]

theorem Ready.standsFor_old (h : Ready l d) {vs : List Write}
    (hIn : ∀ w ∈ vs, l.Holds w.1 ∧ w.1 ≠ l.start) : StandsFor (logOf (readsb d)) (apply vs d) d := by
  apply standsFor_of_empty
  · have hOne : ∀ w ∈ vs, w.1 ≠ 1 := fun w hw hEq => h.super (hEq ▸ (hIn w hw).1)
    rw [readsb, apply_of_forall_ne hOne, readsb]
  · rw [← h.start, apply_of_forall_ne fun w hw => (hIn w hw).2]
    exact h.clean
  · intro s hs
    rw [h.holds_iff] at hs
    exact apply_of_forall_ne fun w hw hEq => hs (hEq ▸ (hIn w hw).1)

def commitHead (l : Log) (d : Disk) : Block := putSectors (setWord (d l.start) 0 l.n) l.sector l.n

variable {lt : Log} {d₁ : Disk}

/-- A transaction that is ready to be committed: its blocks are in the log. -/
structure Filled (l lt : Log) (ws : List Write) (d d₁ : Disk) : Prop where
  ready : Ready l d
  homes : Homes l ws
  logged : Logged lt ws d d₁
  start : lt.start = l.start
  size : lt.size = l.size

theorem Filled.readHead (h : Filled l lt ws d d₁) :
    (readHead (logOf (readsb d)) (Function.update d₁ l.start (commitHead lt d₁))).n = lt.n ∧
      ∀ i < lt.n, (Fs.readHead (logOf (readsb d)) (Function.update d₁ l.start (commitHead lt d₁))).sector i =
        lt.sector i := by
  apply readHead_putSectors (b := d₁ lt.start) h.logged.small
  · intro i hi
    obtain ⟨w, hw, hEq⟩ := (h.logged.mem _).mp ⟨i, hi, rfl⟩
    exact hEq ▸ h.homes.lt w hw
  · rw [← h.ready.start, Function.update_self, commitHead]

theorem Filled.slot_eq (h : Filled l lt ws d d₁) (i : Nat) : (logOf (readsb d)).slot i = lt.slot i := by
  rw [Log.slot, Log.slot, h.start, h.ready.start]

theorem Filled.logged_eq (h : Filled l lt ws d d₁) :
    Fs.logged (Fs.readHead (logOf (readsb d)) (Function.update d₁ l.start (commitHead lt d₁)))
      (Function.update d₁ l.start (commitHead lt d₁)) = Fs.logged lt d₁ := by
  obtain ⟨hn, hSector⟩ := h.readHead
  apply logged_congr hn hSector
  intro i _
  rw [readHead_slot, h.slot_eq, ← h.start, Function.update_of_ne (slot_ne_start i)]

theorem Filled.holds_iff (h : Filled l lt ws d d₁) (s : Nat) : lt.Holds s ↔ l.Holds s := by
  rw [Log.Holds, Log.Holds, h.start, h.size]

theorem Filled.slot_holds (h : Filled l lt ws d d₁) {i : Nat} (hi : i < lt.n) : l.Holds (lt.slot i) := by
  rw [← h.holds_iff]
  apply Fs.slot_holds
  have := h.logged.size
  omega

theorem Filled.home_eq (h : Filled l lt ws d d₁) {s : Nat} (hs : ¬l.Holds s) : d₁ s = d s :=
  h.logged.rest s fun _ hi hEq => hs (hEq ▸ h.slot_holds hi)

theorem Filled.sector_out (h : Filled l lt ws d d₁) {i : Nat} (hi : i < lt.n) : ¬l.Holds (lt.sector i) := by
  obtain ⟨w, hw, hEq⟩ := (h.logged.mem _).mp ⟨i, hi, rfl⟩
  exact hEq ▸ h.homes.out w hw

theorem Filled.standsFor_new (h : Filled l lt ws d d₁) :
    StandsFor (logOf (readsb d)) (Function.update d₁ l.start (commitHead lt d₁)) (apply ws d) := by
  obtain ⟨hn, hSector⟩ := h.readHead
  have hOne : 1 ≠ l.start := fun hEq => h.ready.super (hEq ▸ start_holds)
  refine ⟨?_, ?_, ?_, ?_, ?_⟩
  · rw [readsb, Function.update_of_ne hOne, h.home_eq h.ready.super, readsb]
  · rw [hn, ← h.ready.size, ← h.size]
    exact h.logged.size
  · intro i hi
    rw [hn] at hi
    rw [hSector i hi, h.ready.holds_iff]
    exact h.sector_out hi
  · intro i hi hEq
    rw [hn] at hi
    rw [hSector i hi] at hEq
    have hMem : ∃ w ∈ ws, w.1 = 1 := (h.logged.mem 1).mp ⟨i, hi, hEq⟩
    obtain ⟨h1, h2⟩ := h.homes.super _ (apply_mem (f := d) hMem) rfl
    rw [h.slot_eq, ← h.start, Function.update_of_ne (slot_ne_start i), h.logged.data i hi, hEq]
    exact logOf_eq (h1.trans h.ready.start) (h2.trans h.ready.size)
  · intro s hs
    rw [h.ready.holds_iff] at hs
    have hne : s ≠ l.start := by
      rintro rfl
      exact hs start_holds
    rw [h.logged_eq, ← h.logged.apply_logged]
    apply apply_congr
    rw [Function.update_of_ne hne, h.home_eq hs]
    exact Or.inr rfl

theorem Filled.commitTrans_eq (h : Filled l lt ws d d₁) (hn : 0 < lt.n) :
    (commitTrans lt d₁).2 =
      (l.start, commitHead lt d₁) :: initlog (Function.update d₁ l.start (commitHead lt d₁)) := by
  have hHome : ∀ i < lt.n, ¬lt.Holds (lt.sector i) := fun i hi => by
    rw [h.holds_iff]
    exact h.sector_out hi
  have hInstall : installTrans lt (Function.update d₁ l.start (commitHead lt d₁)) = Fs.logged lt d₁ := by
    rw [installTrans_eq h.logged.size hHome]
    apply logged_congr rfl fun _ _ => rfl
    intro i _
    rw [← h.start, Function.update_of_ne (slot_ne_start i)]
  have hHead : writeHead lt d₁ = [(l.start, commitHead lt d₁)] := by
    rw [writeHead, h.start, commitHead, h.start]
  rw [h.standsFor_new.initlog_eq, h.logged_eq, commitTrans, if_pos hn]
  simp only [hHead, apply_cons, apply_nil, hInstall, List.cons_append, List.nil_append, writeHead_zero]
  rw [h.start, h.ready.start]

theorem Ready.filled (h : Ready l d) (hHomes : Homes l ws) {r : Log × List Write}
    (hr : logWrites (beginTrans l) ws = .ok r) :
    Filled l r.1 ws d (apply r.2 d) ∧ ∀ w ∈ r.2, l.Holds w.1 ∧ w.1 ≠ l.start := by
  obtain ⟨hLogged, hStart, hSize, hIn⟩ := (logged_begin l d h.empty).logWrites hr
  exact ⟨⟨h, hHomes, hLogged, hStart, hSize⟩, hIn⟩

/-- Wherever a transaction is stopped, the disk stands for its old or its new contents. -/
theorem Ready.crash (h : Ready l d) (hHomes : Homes l ws) {trace : List Write}
    (hTrace : transaction l ws d = .ok trace) (k : Nat) :
    StandsFor (logOf (readsb d)) (apply (trace.take k) d) d ∨
      StandsFor (logOf (readsb d)) (apply (trace.take k) d) (apply ws d) := by
  obtain ⟨r, hr, rfl⟩ := map_eq_ok.mp hTrace
  obtain ⟨hFilled, hIn⟩ := h.filled hHomes hr
  rcases take_append_cases r.2 (commitTrans r.1 (apply r.2 d)).2 k with ⟨i, hi⟩ | ⟨i, hi⟩
  · rw [hi]
    exact Or.inl (h.standsFor_old fun w hw => hIn w (List.mem_of_mem_take hw))
  · rw [hi, apply_append]
    by_cases hn : 0 < r.1.n
    · rw [hFilled.commitTrans_eq hn]
      cases i with
      | zero =>
        rw [List.take_zero, apply_nil]
        exact Or.inl (h.standsFor_old hIn)
      | succ i =>
        rw [List.take_succ_cons, apply_cons]
        right
        have hSuper : ¬(logOf (readsb d)).Holds 1 := by
          rw [h.holds_iff]
          exact h.super
        exact hFilled.standsFor_new.interrupted hSuper i
    · rw [commitTrans, if_neg hn, List.take_nil, apply_nil]
      exact Or.inl (h.standsFor_old hIn)

end Commit

section Main

def Interrupted (d d' : Disk) : Prop := ∃ k, d' = apply ((initlog d).take k) d

/-- The disk after any number of stopped recoveries and one that ran to its end. -/
def Recovered (d d' : Disk) : Prop := ∃ d₁, Relation.ReflTransGen Interrupted d d₁ ∧ d' = apply (initlog d₁) d₁

theorem StandsFor.recoveredOutside {l : Log} {d d' target : Disk} (h : StandsFor l d target)
    (hSuper : ¬l.Holds 1) (hRec : Recovered d d') {s : Nat} (hs : ¬l.Holds s) : d' s = target s := by
  obtain ⟨d₁, hRun, rfl⟩ := hRec
  have h₁ : StandsFor l d₁ target := by
    induction hRun with
    | refl => exact h
    | tail _ hStep ih =>
      obtain ⟨k, rfl⟩ := hStep
      exact ih.interrupted hSuper k
  exact h₁.recovered hs

theorem ready_initlog {d target : Disk} (h : StandsFor (logOf (readsb d)) d target)
    (hSuper : ¬(logOf (readsb d)).Holds 1) : Ready (logOf (readsb d)) (apply (initlog d) d) := by
  have hEnd := h.interrupted hSuper (initlog d).length
  rw [List.take_length] at hEnd
  refine ⟨by rw [hEnd.place], by rw [hEnd.place], rfl, ?_, hSuper⟩
  rw [h.initlog_eq, apply_concat, Function.update_self, getWord_setWord_self, Nat.zero_mod]

/-- A transaction is atomic: stopped after any of its sector writes and recovered, with
any number of recoveries stopped in between, it has left outside the log either the old
contents everywhere or, in every home, the last contents logged for it. -/
theorem transaction_atomic {l : Log} {d : Disk} (hReady : Ready l d) {ws : List Write} (hHomes : Homes l ws)
    {trace : List Write} (hTrace : transaction l ws d = .ok trace) (k : Nat) :
    (∀ d', Recovered (apply (trace.take k) d) d' → ∀ s, ¬l.Holds s → d' s = d s) ∨
      ∀ d', Recovered (apply (trace.take k) d) d' → ∀ s, ¬l.Holds s → d' s = apply ws d s := by
  have hHolds := fun s => (hReady.holds_iff s).not
  have hSuper := (hHolds 1).mpr hReady.super
  rcases hReady.crash hHomes hTrace k with h | h
  · exact Or.inl fun d' hRec s hs => h.recoveredOutside hSuper hRec ((hHolds s).mpr hs)
  · exact Or.inr fun d' hRec s hs => h.recoveredOutside hSuper hRec ((hHolds s).mpr hs)

/-- An empty disk of forty sectors, the last ten of them the log. -/
def exampleDisk : Disk :=
  Function.update (fun _ => zeroBlock) 1 (setWord (setWord zeroBlock 0 40) 12 10)

theorem exampleDisk_place : readsb exampleDisk = ⟨40, 0, 0, 10⟩ := by decide +kernel

theorem exampleDisk_ready : Ready (logOf ⟨40, 0, 0, 10⟩) exampleDisk :=
  ⟨by rw [exampleDisk_place], by rw [exampleDisk_place], rfl, by decide +kernel, by simp [Log.Holds, logOf]⟩

theorem transaction_atomic_example :
    ∃ trace, transaction (logOf ⟨40, 0, 0, 10⟩)
        [(5, fun _ => 7), (6, fun _ => 8), (5, fun _ => 9)] exampleDisk = .ok trace ∧
      ((∀ d', Recovered (apply (trace.take 5) exampleDisk) d' →
          ∀ s, ¬(logOf ⟨40, 0, 0, 10⟩).Holds s → d' s = exampleDisk s) ∨
        ∀ d', Recovered (apply (trace.take 5) exampleDisk) d' →
          ∀ s, ¬(logOf ⟨40, 0, 0, 10⟩).Holds s →
            d' s = apply [(5, fun _ => 7), (6, fun _ => 8), (5, fun _ => 9)] exampleDisk s) := by
  have hSome : (transaction (logOf ⟨40, 0, 0, 10⟩)
      [(5, fun _ => 7), (6, fun _ => 8), (5, fun _ => 9)] exampleDisk).toOption.isSome = true := by
    decide +kernel
  obtain ⟨trace, hTrace⟩ := Option.isSome_iff_exists.mp hSome
  rw [toOption_eq_some] at hTrace
  have hHomes : Homes (logOf ⟨40, 0, 0, 10⟩) [(5, fun _ => 7), (6, fun _ => 8), (5, fun _ => 9)] :=
    ⟨by simp, by simp [Log.Holds, logOf], by simp⟩
  exact ⟨trace, hTrace, transaction_atomic exampleDisk_ready hHomes hTrace 5⟩

/-- A super block that is logged with another size of the log moves the log: recovery looks for the
header elsewhere, and the super block is new while block 5 is old. -/
theorem logged_super_moves_log :
    ∃ trace, Ready (logOf ⟨40, 0, 0, 10⟩) exampleDisk ∧
      transaction (logOf ⟨40, 0, 0, 10⟩) [(1, setWord (exampleDisk 1) 12 12), (5, fun _ => 7)] exampleDisk = .ok trace ∧
      ∃ d', Recovered (apply (trace.take 4) exampleDisk) d' ∧
        (¬(logOf ⟨40, 0, 0, 10⟩).Holds 1 ∧ getWord (exampleDisk 1) 12 = 10 ∧ getWord (d' 1) 12 = 12) ∧
        ¬(logOf ⟨40, 0, 0, 10⟩).Holds 5 ∧ exampleDisk 5 0 = 0 ∧ d' 5 0 = 0 ∧
          apply [(1, setWord (exampleDisk 1) 12 12), (5, fun _ => 7)] exampleDisk 5 0 = 7 := by
  have hRun : (transaction (logOf ⟨40, 0, 0, 10⟩) [(1, setWord (exampleDisk 1) 12 12), (5, fun _ => 7)]
      exampleDisk).toOption.map (fun trace =>
        (getWord (apply (initlog (apply (trace.take 4) exampleDisk)) (apply (trace.take 4) exampleDisk) 1) 12,
          apply (initlog (apply (trace.take 4) exampleDisk)) (apply (trace.take 4) exampleDisk) 5 0)) = some (12, 0) := by
    decide +kernel
  obtain ⟨trace, hTrace, hEq⟩ := Option.map_eq_some_iff.mp hRun
  rw [toOption_eq_some] at hTrace
  obtain ⟨hSuper, hHome⟩ := Prod.mk.inj hEq
  refine ⟨trace, exampleDisk_ready, hTrace, _, ⟨_, .refl, rfl⟩, ⟨by simp [Log.Holds, logOf], by decide +kernel, hSuper⟩,
    by simp [Log.Holds, logOf], by decide +kernel, hHome, by decide +kernel⟩

end Main

end Xv6Rpi.Fs
