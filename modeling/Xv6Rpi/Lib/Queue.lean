import Mathlib.Data.BitVec
import Mathlib.Data.List.Range
import Mathlib.Logic.Function.Basic
import Mathlib.Tactic

/-! # Bounded queues with counters that wrap

A queue of at most `c` elements lies in an array of `c` places. `r` and `w` count the elements
taken and put, modulo `2 ^ n`; as `c` divides `2 ^ n`, the place of an element is its number
modulo `c` also after the counters wrapped.
-/

namespace Xv6Rpi.Queue

variable {α : Type*} {n c : Nat} {data : Nat → α} {r w : BitVec n}

/-- The number of elements in the queue. -/
def count (r w : BitVec n) : Nat := (w - r).toNat

/-- The elements in the queue, the oldest first. -/
def contents (c : Nat) (data : Nat → α) (r w : BitVec n) : List α :=
  (List.range (count r w)).map fun k => data ((r.toNat + k) % c)

@[simp] theorem length_contents : (contents c data r w).length = count r w := by simp [contents]

@[simp] theorem count_self (r : BitVec n) : count r r = 0 := by simp [count]

theorem count_eq_zero : count r w = 0 ↔ r = w := by
  constructor
  · intro h
    have hZero : w - r = 0#n := BitVec.eq_of_toNat_eq (by simpa [count] using h)
    exact (sub_eq_zero.mp hZero).symm
  · rintro rfl
    exact count_self r

theorem contents_self (r : BitVec n) : contents c data r r = [] := by simp [contents]

theorem count_eq_iff (hc : c < 2 ^ n) : count r w = c ↔ w = r + BitVec.ofNat n c := by
  constructor
  · intro h
    have hSub : w - r = BitVec.ofNat n c :=
      BitVec.eq_of_toNat_eq (by rw [BitVec.toNat_ofNat, Nat.mod_eq_of_lt hc]; exact h)
    rw [← hSub, add_sub_cancel]
  · rintro rfl
    rw [count, add_sub_cancel_left]
    exact (BitVec.toNat_ofNat ..).trans (Nat.mod_eq_of_lt hc)

theorem count_put (h : count r w + 1 < 2 ^ n) : count r (w + 1#n) = count r w + 1 := by
  have hOne : (1 : Nat) < 2 ^ n := by omega
  rw [count, show w + 1#n - r = w - r + 1#n by ring, BitVec.toNat_add, BitVec.toNat_ofNat, Nat.mod_eq_of_lt hOne]
  exact Nat.mod_eq_of_lt h

theorem count_take (h : r ≠ w) : count (r + 1#n) w + 1 = count r w := by
  have hPos : 0 < count r w := Nat.pos_of_ne_zero fun h0 => h (count_eq_zero.mp h0)
  have hLt : count r w < 2 ^ n := (w - r).isLt
  have hOne : (1 : Nat) < 2 ^ n := by omega
  rw [count, show w - (r + 1#n) = w - r - 1#n by ring, BitVec.toNat_sub, BitVec.toNat_ofNat, Nat.mod_eq_of_lt hOne]
  rw [count] at hPos hLt
  rw [count, show 2 ^ n - 1 + (w - r).toNat = (w - r).toNat - 1 + 2 ^ n by omega, Nat.add_mod_right,
    Nat.mod_eq_of_lt (by omega)]
  omega

theorem mod_of_dvd (hDvd : c ∣ 2 ^ n) (r w : BitVec n) : (r.toNat + count r w) % c = w.toNat % c := by
  have h : w.toNat = (r.toNat + count r w) % 2 ^ n := by
    rw [count, ← BitVec.toNat_add]
    congr 1
    ring
  rw [h, Nat.mod_mod_of_dvd _ hDvd]

theorem contents_put (hDvd : c ∣ 2 ^ n) (hRoom : count r w < c) (hLt : c < 2 ^ n) (x : α) :
    contents c (Function.update data (w.toNat % c) x) r (w + 1#n) = contents c data r w ++ [x] := by
  rw [contents, count_put (by omega), List.range_succ, List.map_append, contents]
  congr 1
  · refine List.map_congr_left fun k hk => Function.update_of_ne ?_ ..
    have hk : k < count r w := List.mem_range.mp hk
    rw [← mod_of_dvd hDvd r w]
    -- less than `c` places apart, so not the same place
    intro hEq
    have hDiv : c ∣ count r w - k := by
      have h := (Nat.modEq_iff_dvd' (by omega)).mp hEq
      rwa [Nat.add_sub_add_left] at h
    exact absurd (Nat.le_of_dvd (by omega) hDiv) (by omega)
  · simp [mod_of_dvd hDvd r w]

theorem contents_take (hDvd : c ∣ 2 ^ n) (h : r ≠ w) :
    contents c data r w = data (r.toNat % c) :: contents c data (r + 1#n) w := by
  rw [contents, ← count_take h, List.range_succ_eq_map, List.map_cons, Nat.add_zero, List.map_map, contents]
  congr 1
  refine List.map_congr_left fun k _ => congrArg data ?_
  have hStep : (r + 1#n).toNat % c = (r.toNat + 1) % c := by
    rw [BitVec.toNat_add, Nat.mod_mod_of_dvd _ hDvd, BitVec.toNat_ofNat, Nat.add_mod, Nat.mod_mod_of_dvd _ hDvd,
      ← Nat.add_mod]
  rw [Nat.add_mod (r + 1#n).toNat, hStep, ← Nat.add_mod]
  congr 1
  simp only [Nat.succ_eq_add_one]
  omega

theorem contents_unput (hDvd : c ∣ 2 ^ n) (h : r ≠ w) :
    contents c data r w = contents c data r (w - 1#n) ++ [data ((w - 1#n).toNat % c)] := by
  have hPos : 0 < count r w := Nat.pos_of_ne_zero fun h0 => h (count_eq_zero.mp h0)
  have hLt : count r w < 2 ^ n := (w - r).isLt
  have hCount : count r (w - 1#n) + 1 = count r w := by
    rw [count, show w - 1#n - r = w - r - 1#n by ring, BitVec.toNat_sub, BitVec.toNat_ofNat,
      Nat.mod_eq_of_lt (show 1 < 2 ^ n by omega)]
    rw [count] at hPos hLt
    rw [count, show 2 ^ n - 1 + (w - r).toNat = (w - r).toNat - 1 + 2 ^ n by omega, Nat.add_mod_right,
      Nat.mod_eq_of_lt (by omega)]
    omega
  rw [contents, ← hCount, List.range_succ, List.map_append, List.map_singleton, mod_of_dvd hDvd, contents]

theorem count_inj {r w w' : BitVec n} : count r w = count r w' ↔ w = w' := by
  constructor
  · intro h
    exact sub_left_inj.mp (BitVec.eq_of_toNat_eq h)
  · rintro rfl
    rfl

theorem contents_take_count {e : BitVec n} (h : count r w ≤ count r e) :
    contents c data r w = (contents c data r e).take (count r w) := by
  rw [contents, contents, ← List.map_take, List.take_range, min_eq_left h]

theorem count_drop {e : BitVec n} (h : count r w ≤ count r e) : count r w + count w e = count r e := by
  have hLt : count r e < 2 ^ n := (e - r).isLt
  have hSub : count w e = (2 ^ n - count r w + count r e) % 2 ^ n := by
    rw [count, show e - w = e - r - (w - r) by ring, BitVec.toNat_sub, count, count]
  rw [hSub, show 2 ^ n - count r w + count r e = count r e - count r w + 2 ^ n by omega, Nat.add_mod_right,
    Nat.mod_eq_of_lt (by omega)]
  omega

theorem contents_drop_count (hDvd : c ∣ 2 ^ n) {e : BitVec n} (h : count r w ≤ count r e) :
    contents c data w e = (contents c data r e).drop (count r w) := by
  have hCount := count_drop h
  rw [contents, contents, ← hCount, List.range_add, List.map_append, List.map_map, List.drop_left']
  · refine List.map_congr_left fun k _ => congrArg data ?_
    dsimp only [Function.comp]
    rw [← Nat.add_assoc, Nat.add_mod (r.toNat + _), mod_of_dvd hDvd, ← Nat.add_mod]
  · rw [List.length_map, List.length_range]

end Xv6Rpi.Queue
