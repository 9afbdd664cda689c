import Mathlib.Data.List.Range
import Mathlib.Logic.Function.Basic
import Mathlib.Order.Basic

/-! # Finite maps kept in slots

A map is kept in numbered slots, each of them empty or with one key and its value. A key is
looked for from the first slot on, a new key goes to the first empty slot, and a key is
removed by emptying its slot. If no key is in two slots, these are the operations of a map.
-/

namespace Xv6Rpi

variable {K V : Type*}

section Search

variable [DecidableEq K] {t : Nat → Option (K × V)} {n i j : Nat} {k : K} {v : V}

/-- The value in a slot, with the slot, if it belongs to the key. -/
def slotHit (t : Nat → Option (K × V)) (k : K) (i : Nat) : Option (V × Nat) :=
  match t i with
  | some (k', v) => if k' = k then some (v, i) else none
  | none => none

/-- Look for a key in the `n` slots from `i` on. -/
def slotFind (t : Nat → Option (K × V)) (k : K) : Nat → Nat → Option (V × Nat)
  | _, 0 => none
  | i, n + 1 => match slotHit t k i with
    | some r => some r
    | none => slotFind t k (i + 1) n

theorem slotHit_eq_some {r : V × Nat} : slotHit t k i = some r ↔ t i = some (k, r.1) ∧ r.2 = i := by
  obtain ⟨v, j⟩ := r
  rw [slotHit]
  cases hSlot : t i with
  | none => simp
  | some e =>
    obtain ⟨k', v'⟩ := e
    by_cases hKey : k' = k
    · subst hKey
      simp [eq_comm]
    · simp [hKey]

theorem slotHit_eq_none : slotHit t k i = none ↔ ∀ v, t i ≠ some (k, v) := by
  rw [slotHit]
  cases hSlot : t i with
  | none => simp
  | some e =>
    obtain ⟨k', v'⟩ := e
    by_cases hKey : k' = k
    · subst hKey
      simp
    · simp [hKey]

theorem slotFind_eq_some {r : V × Nat} : slotFind t k i n = some r ↔
    t r.2 = some (k, r.1) ∧ i ≤ r.2 ∧ r.2 < i + n ∧ ∀ j, i ≤ j → j < r.2 → ∀ v, t j ≠ some (k, v) := by
  induction n generalizing i with
  | zero =>
    rw [slotFind]
    refine iff_of_false (Option.some_ne_none r).symm ?_
    rintro ⟨-, hLow, hHigh, -⟩
    omega
  | succ n ih =>
    rw [slotFind]
    cases hHit : slotHit t k i with
    | some q =>
      obtain ⟨hSlot, hAt⟩ := slotHit_eq_some.mp hHit
      dsimp only
      constructor
      · intro hEq
        obtain rfl := Option.some.inj hEq
        rw [hAt]
        exact ⟨hSlot, le_rfl, by omega, fun j h1 h2 => by omega⟩
      · rintro ⟨hKey, hLow, -, hFirst⟩
        have hHere : r.2 = i := by
          by_contra hne
          exact hFirst i le_rfl (by omega) _ hSlot
        rw [hHere, hSlot] at hKey
        exact congrArg some (Prod.ext (Prod.mk.inj (Option.some.inj hKey)).2 (hAt.trans hHere.symm))
    | none =>
      have hNot := slotHit_eq_none.mp hHit
      dsimp only
      rw [ih]
      constructor
      · rintro ⟨hKey, hLow, hHigh, hFirst⟩
        refine ⟨hKey, by omega, by omega, fun j h1 h2 => ?_⟩
        rcases Nat.eq_or_lt_of_le h1 with rfl | hLt
        · exact hNot
        · exact hFirst j hLt h2
      · rintro ⟨hKey, hLow, hHigh, hFirst⟩
        have hne : i ≠ r.2 := by
          rintro rfl
          exact hNot _ hKey
        exact ⟨hKey, by omega, by omega, fun j h1 h2 => hFirst j (by omega) h2⟩

theorem slotFind_eq_none : slotFind t k i n = none ↔ ∀ j, i ≤ j → j < i + n → ∀ v, t j ≠ some (k, v) := by
  induction n generalizing i with
  | zero => exact iff_of_true rfl fun j h1 h2 => by omega
  | succ n ih =>
    rw [slotFind]
    cases hHit : slotHit t k i with
    | some q =>
      obtain ⟨hSlot, -⟩ := slotHit_eq_some.mp hHit
      exact iff_of_false (Option.some_ne_none q) fun hNone => hNone i le_rfl (by omega) _ hSlot
    | none =>
      dsimp only
      rw [ih]
      constructor
      · intro hRest j h1 h2
        rcases Nat.eq_or_lt_of_le h1 with rfl | hLt
        · exact slotHit_eq_none.mp hHit
        · exact hRest j hLt (by omega)
      · exact fun hAll j h1 h2 => hAll j (by omega) (by omega)

/-- The first empty slot among the `n` from `i` on, or the one after them. -/
def slotFree (t : Nat → Option (K × V)) : Nat → Nat → Nat
  | i, 0 => i
  | i, n + 1 => if (t i).isNone then i else slotFree t (i + 1) n

omit [DecidableEq K] in
theorem slotFree_spec (hEnd : t (i + n) = none) : t (slotFree t i n) = none ∧ i ≤ slotFree t i n ∧ slotFree t i n ≤ i + n ∧
    ∀ j, i ≤ j → j < slotFree t i n → t j ≠ none := by
  induction n generalizing i with
  | zero => exact ⟨hEnd, le_rfl, le_rfl, fun j h1 h2 => absurd h2 (not_lt.mpr h1)⟩
  | succ n ih =>
    rw [slotFree]
    by_cases hHere : (t i).isNone = true
    · rw [if_pos hHere]
      exact ⟨Option.isNone_iff_eq_none.mp hHere, le_rfl, by omega, fun j h1 h2 => absurd h2 (not_lt.mpr h1)⟩
    · rw [if_neg hHere]
      obtain ⟨h1, h2, h3, h4⟩ := ih (i := i + 1) (by rwa [Nat.add_assoc, Nat.add_comm 1])
      refine ⟨h1, by omega, by omega, fun j hLow hHigh => ?_⟩
      rcases Nat.eq_or_lt_of_le hLow with rfl | hLt
      · exact fun hz => hHere (Option.isNone_iff_eq_none.mpr hz)
      · exact h4 j hLt hHigh

end Search

/-- A map in slots. -/
@[ext]
structure Slotted (K V : Type*) where
  slot : Nat → Option (K × V)
  bound : Nat
  empty : ∀ i, bound ≤ i → slot i = none
  uniq : ∀ i j k v w, slot i = some (k, v) → slot j = some (k, w) → i = j

namespace Slotted

variable [DecidableEq K] {m : Slotted K V} {i : Nat} {k : K} {v : V}

/-- The value of a key with its slot. -/
def find (m : Slotted K V) (k : K) : Option (V × Nat) := slotFind m.slot k 0 m.bound

/-- The map itself. -/
def get (m : Slotted K V) (k : K) : Option V := (m.find k).map Prod.fst

theorem find_eq_some {r : V × Nat} : m.find k = some r ↔ m.slot r.2 = some (k, r.1) := by
  rw [find, slotFind_eq_some]
  refine ⟨And.left, fun hSlot => ⟨hSlot, Nat.zero_le _, ?_, fun j _ hj v hKey => ?_⟩⟩
  · by_contra hOut
    rw [m.empty _ (by omega)] at hSlot
    cases hSlot
  · exact hj.ne (m.uniq _ _ _ _ _ hKey hSlot)

theorem find_eq_none : m.find k = none ↔ ∀ i v, m.slot i ≠ some (k, v) := by
  rw [find, slotFind_eq_none]
  refine ⟨fun hNone i v hSlot => ?_, fun hNone i _ _ => hNone i⟩
  by_cases hIn : i < m.bound
  · exact hNone i (Nat.zero_le i) (by omega) v hSlot
  · rw [m.empty i (by omega)] at hSlot
    cases hSlot

theorem get_eq_some : m.get k = some v ↔ ∃ i, m.slot i = some (k, v) := by
  rw [get, Option.map_eq_some_iff]
  constructor
  · rintro ⟨r, hFind, rfl⟩
    exact ⟨r.2, find_eq_some.mp hFind⟩
  · rintro ⟨i, hSlot⟩
    exact ⟨(v, i), find_eq_some.mpr hSlot, rfl⟩

theorem get_eq_none : m.get k = none ↔ ∀ i v, m.slot i ≠ some (k, v) := by
  rw [get, Option.map_eq_none_iff, find_eq_none]

theorem get_congr {m' : Slotted K V} (h : ∀ v, (∃ i, m'.slot i = some (k, v)) ↔ ∃ i, m.slot i = some (k, v)) :
    m'.get k = m.get k := by
  apply Option.ext
  intro v
  rw [get_eq_some, get_eq_some, h]

omit [DecidableEq K] in
/-- The first empty slot. -/
def free (m : Slotted K V) : Nat := slotFree m.slot 0 m.bound

omit [DecidableEq K] in
theorem slot_free (m : Slotted K V) : m.slot m.free = none ∧ m.free ≤ m.bound ∧ ∀ j < m.free, m.slot j ≠ none := by
  have hEnd : m.slot (0 + m.bound) = none := m.empty _ (by omega)
  obtain ⟨h1, -, h3, h4⟩ := slotFree_spec hEnd
  exact ⟨h1, by rwa [Nat.zero_add] at h3, fun j hj => h4 j (Nat.zero_le j) hj⟩

/-- The map with a new key. -/
def insert (m : Slotted K V) (k : K) (v : V) (hNew : m.get k = none) : Slotted K V where
  slot := Function.update m.slot m.free (some (k, v))
  bound := max m.bound (m.free + 1)
  empty i hi := by
    rw [Function.update_of_ne (by omega), m.empty i (by omega)]
  uniq i j k' v' w' hi hj := by
    rw [get_eq_none] at hNew
    rw [Function.update_apply] at hi hj
    split at hi
    · rename_i hAt
      split at hj
      · rename_i hAt'
        rw [hAt, hAt']
      · obtain ⟨rfl, -⟩ := Prod.mk.inj (Option.some.inj hi)
        exact absurd hj (hNew j w')
    · split at hj
      · obtain ⟨rfl, -⟩ := Prod.mk.inj (Option.some.inj hj)
        exact absurd hi (hNew i v')
      · exact m.uniq i j k' v' w' hi hj

theorem get_insert (m : Slotted K V) (v : V) (hNew : m.get k = none) :
    (m.insert k v hNew).get = Function.update m.get k (some v) := by
  funext k'
  by_cases hKey : k' = k
  · subst hKey
    rw [Function.update_self, get_eq_some]
    exact ⟨m.free, Function.update_self ..⟩
  · rw [Function.update_of_ne hKey]
    refine get_congr fun w => exists_congr fun i => ?_
    rw [insert]
    dsimp only
    rw [Function.update_apply]
    split
    · rename_i hAt
      rw [hAt, m.slot_free.1]
      refine iff_of_false (fun hEq => hKey (Prod.mk.inj (Option.some.inj hEq)).1.symm) (Option.some_ne_none _).symm
    · exact Iff.rfl

/-- The map without the key of a slot. -/
def erase (m : Slotted K V) (i : Nat) : Slotted K V where
  slot := Function.update m.slot i none
  bound := m.bound
  empty j hj := by
    rw [Function.update_apply, m.empty j hj, ite_self]
  uniq a b k v w ha hb := by
    rw [Function.update_apply] at ha hb
    split at ha
    · cases ha
    · split at hb
      · cases hb
      · exact m.uniq a b k v w ha hb

theorem get_erase (hSlot : m.slot i = some (k, v)) : (m.erase i).get = Function.update m.get k none := by
  funext k'
  by_cases hKey : k' = k
  · subst hKey
    rw [Function.update_self, get_eq_none]
    intro j w hj
    rw [erase] at hj
    dsimp only at hj
    rw [Function.update_apply] at hj
    split at hj
    · cases hj
    · rename_i hne
      exact hne (m.uniq j i k' w v hj hSlot)
  · rw [Function.update_of_ne hKey]
    refine get_congr fun w => exists_congr fun j => ?_
    rw [erase]
    dsimp only
    rw [Function.update_apply]
    split
    · rename_i hAt
      rw [hAt, hSlot]
      exact iff_of_false (Option.some_ne_none _).symm fun hEq => hKey (Prod.mk.inj (Option.some.inj hEq)).1.symm
    · exact Iff.rfl

end Slotted

end Xv6Rpi
