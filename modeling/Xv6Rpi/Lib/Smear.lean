import Mathlib.Data.Nat.Bitwise
import Mathlib.Tactic

/-! # Smearing the highest bit

Or-ing a word with itself shifted right by one, two, four and so on sets every bit below one
that was set. Then the next number is a power of two.
-/

namespace Xv6Rpi

variable {w n i : Nat} {x y : BitVec w}

/-- A bit of `y` is set if one of the `n` bits of `x` from there on is. -/
def Smears (n : Nat) (x y : BitVec w) : Prop := ∀ i, y.getLsbD i = true ↔ ∃ j < n, x.getLsbD (i + j) = true

theorem Smears.refl (x : BitVec w) : Smears 1 x x := by
  intro i
  constructor
  · intro h
    exact ⟨0, Nat.one_pos, h⟩
  · rintro ⟨j, hj, h⟩
    rwa [Nat.lt_one_iff.mp hj] at h

theorem Smears.double (h : Smears n x y) : Smears (2 * n) x (y ||| y >>> n) := by
  intro i
  rw [BitVec.getLsbD_or, BitVec.getLsbD_ushiftRight, Bool.or_eq_true, h, h]
  constructor
  · rintro (⟨j, hj, hBit⟩ | ⟨j, hj, hBit⟩)
    · exact ⟨j, by omega, hBit⟩
    · exact ⟨n + j, by omega, by rwa [show i + (n + j) = n + i + j by omega]⟩
  · rintro ⟨j, hj, hBit⟩
    by_cases hLow : j < n
    · exact Or.inl ⟨j, hLow, hBit⟩
    · exact Or.inr ⟨j - n, by omega, by rwa [show n + i + (j - n) = i + j by omega]⟩

theorem Smears.toNat (h : Smears n x y) (hn : w ≤ n) (hx : x.toNat ≠ 0) : y.toNat = 2 ^ (x.toNat.log2 + 1) - 1 := by
  have hTop : x.toNat.testBit x.toNat.log2 = true := Nat.testBit_log2 hx
  have hLog : x.toNat.log2 < w := (Nat.log2_lt hx).mpr x.isLt
  apply Nat.eq_of_testBit_eq
  intro i
  rw [Nat.testBit_two_pow_sub_one, Bool.eq_iff_iff, decide_eq_true_eq]
  have hBit := h i
  rw [BitVec.getLsbD] at hBit
  rw [hBit]
  constructor
  · rintro ⟨j, -, hBit⟩
    by_contra hHigh
    have hPow : 2 ^ (x.toNat.log2 + 1) ≤ 2 ^ (i + j) := Nat.pow_le_pow_right (by decide) (by omega)
    have hLt := Nat.lt_log2_self (n := x.toNat)
    rw [BitVec.getLsbD, Nat.testBit_lt_two_pow (hLt.trans_le hPow)] at hBit
    exact Bool.false_ne_true hBit
  · intro hi
    exact ⟨x.toNat.log2 - i, by omega, by rwa [BitVec.getLsbD, Nat.add_sub_cancel' (by omega)]⟩

theorem Smears.zero (h : Smears n x y) (hx : x = 0#w) : y = 0#w := by
  apply BitVec.eq_of_getLsbD_eq
  intro i _
  rw [BitVec.getLsbD_zero, Bool.eq_false_iff]
  intro hBit
  obtain ⟨j, -, hj⟩ := (h i).mp hBit
  rw [hx, BitVec.getLsbD_zero] at hj
  exact Bool.false_ne_true hj

end Xv6Rpi
