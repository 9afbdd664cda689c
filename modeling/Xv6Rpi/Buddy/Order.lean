import Xv6Rpi.Buddy.Heap
import Xv6Rpi.Lib.Smear

/-! # The order for a size

`get_order` rounds a size up to a power of two, by smearing the highest bit of its
predecessor, and looks for the bit that is set then.
-/

namespace Xv6Rpi.Buddy

def roundUp (v : BitVec 32) : BitVec 32 :=
  let v := v - 1
  let v := v ||| v >>> 1
  let v := v ||| v >>> 2
  let v := v ||| v >>> 4
  let v := v ||| v >>> 8
  let v := v ||| v >>> 16
  v + 1

def getOrder (v : BitVec 32) : Except Panic Nat :=
  let ord := (firstBit (roundUp v)).getD 32
  if ord < minOrd then .ok minOrd
  else if ord > maxOrd then .error .orderTooBig
  else .ok ord

section Round

variable {v : BitVec 32}

theorem roundUp_smears (v : BitVec 32) : ∃ y, Smears 32 (v - 1) y ∧ roundUp v = y + 1 :=
  ⟨_, (Smears.refl (v - 1)).double.double.double.double.double, rfl⟩

theorem firstBit_shift {k : Nat} (hk : k < 32) : firstBit (1#32 <<< k) = some k := by
  have hAll : ∀ k : Fin 32, firstBit (1#32 <<< k.val) = some k.val := by decide
  exact hAll ⟨k, hk⟩

theorem eq_shift {x : BitVec 32} {k : Nat} (h : x.toNat = 2 ^ k) : x = 1#32 <<< k := by
  have hk : 2 ^ k < 2 ^ 32 := h ▸ x.isLt
  apply BitVec.eq_of_toNat_eq
  rw [h, BitVec.toNat_shiftLeft, BitVec.toNat_ofNat, Nat.one_mod_eq_one.mpr (by decide), Nat.one_shiftLeft, Nat.mod_eq_of_lt hk]

theorem getD_firstBit_succ {y : BitVec 32} {k : Nat} (hk : k ≤ 32) (hy : y.toNat = 2 ^ k - 1) :
    (firstBit (y + 1)).getD 32 = k := by
  have hPos := Nat.two_pow_pos k
  have hSum : (y + 1).toNat = 2 ^ k % 2 ^ 32 := by
    rw [BitVec.toNat_add, hy, show (1 : BitVec 32).toNat = 1 from rfl, Nat.sub_add_cancel hPos]
  rcases hk.lt_or_eq with hLt | rfl
  · have hPow : 2 ^ k < 2 ^ 32 := Nat.pow_lt_pow_right (by decide) hLt
    rw [Nat.mod_eq_of_lt hPow] at hSum
    rw [eq_shift hSum, firstBit_shift hLt]
    rfl
  · rw [BitVec.eq_of_toNat_eq (show (y + 1).toNat = (0#32).toNat from hSum)]
    rfl

theorem getD_firstBit_roundUp (v : BitVec 32) : (firstBit (roundUp v)).getD 32 =
    if v.toNat = 0 then 32 else if v.toNat = 1 then 0 else (v.toNat - 1).log2 + 1 := by
  obtain ⟨y, hSmear, hRound⟩ := roundUp_smears v
  have hLt := v.isLt
  have hPred : (v - 1).toNat = if v.toNat = 0 then 2 ^ 32 - 1 else v.toNat - 1 := by
    rw [BitVec.toNat_sub, show (1 : BitVec 32).toNat = 1 from rfl]
    split <;> omega
  rw [hRound]
  by_cases hOne : v.toNat = 1
  · have hz : v - 1 = 0#32 := BitVec.eq_of_toNat_eq (by rw [hPred, hOne]; rfl)
    rw [if_neg (by omega), if_pos hOne, hSmear.zero hz]
    rfl
  · have hNz : (v - 1).toNat ≠ 0 := by
      rw [hPred]
      split <;> omega
    have hLog : (v - 1).toNat.log2 < 32 := (Nat.log2_lt hNz).mpr (v - 1).isLt
    rw [getD_firstBit_succ hLog (hSmear.toNat le_rfl hNz), hPred, if_neg hOne]
    split
    · have hTop : (2 ^ 32 - 1).log2 = 31 := (Nat.log2_eq_iff (by decide)).mpr ⟨by decide, by decide⟩
      rw [hTop]
    · rfl

/-- What is compared with the bounds bounds the size from below, unless it is the whole word. -/
theorem le_two_pow_iff (hNz : v.toNat ≠ 0) (o : Nat) : (firstBit (roundUp v)).getD 32 ≤ o ↔ v.toNat ≤ 2 ^ o := by
  have hPos := Nat.two_pow_pos o
  rw [getD_firstBit_roundUp, if_neg hNz]
  by_cases hOne : v.toNat = 1
  · rw [if_pos hOne, hOne]
    exact iff_of_true (Nat.zero_le o) hPos
  · rw [if_neg hOne, Nat.succ_le_iff, Nat.log2_lt (by omega)]
    omega

theorem getOrder_ok {o : Nat} (h : getOrder v = .ok o) : v.toNat ≠ 0 ∧ o = max minOrd ((firstBit (roundUp v)).getD 32) ∧ o ≤ maxOrd := by
  rw [getOrder] at h
  split at h
  · rename_i hLow
    obtain rfl := Except.ok.inj h
    refine ⟨?_, by omega, by decide⟩
    intro hz
    rw [getD_firstBit_roundUp, if_pos hz] at hLow
    exact absurd hLow (by decide)
  · split at h
    · cases h
    · rename_i hLow hHigh
      obtain rfl := Except.ok.inj h
      refine ⟨?_, by omega, by omega⟩
      intro hz
      rw [getD_firstBit_roundUp, if_pos hz] at hHigh
      exact hHigh (by decide)

end Round

/-- `get_order` gives the least order whose blocks hold the size, and panics for sizes that no
order is for; so a block that is allocated for a size holds it, and is freed as what it is. -/
theorem getOrder_least (v : BitVec 32) :
    (1 ≤ v.toNat ∧ v.toNat ≤ 4096 → ∃ o, getOrder v = .ok o ∧ IsOrd o ∧ v.toNat ≤ 2 ^ o ∧
      ∀ o', IsOrd o' → v.toNat ≤ 2 ^ o' → o ≤ o') ∧
    (v.toNat = 0 ∨ 4096 < v.toNat → getOrder v = .error .orderTooBig) ∧
    ∀ s o mem k, getOrder v = .ok o → kmalloc s.kmem o = .ok (mem, k) → mem ≠ 0 →
      exec s (.kmalloc o) = .ok ⟨k, (mem, o) :: s.live⟩ ∧ v.toNat ≤ 2 ^ o ∧
        Allowed ⟨k, (mem, o) :: s.live⟩ (.kfree mem o) := by
  refine ⟨?_, ?_, ?_⟩
  · rintro ⟨hPos, hMax⟩
    have hIff := le_two_pow_iff (v := v) (by omega)
    have hHigh := (hIff maxOrd).mpr hMax
    refine ⟨max minOrd ((firstBit (roundUp v)).getD 32), ?_, ⟨le_max_left .., max_le (by decide) hHigh⟩, ?_, fun o' ho' hv => ?_⟩
    · rw [getOrder]
      split
      · rw [max_eq_left (by omega)]
      · rw [if_neg (by omega), max_eq_right (by omega)]
    · exact (hIff _).mp (le_max_right ..)
    · exact max_le ho'.1 ((hIff o').mpr hv)
  · intro hOut
    have hHigh : maxOrd < (firstBit (roundUp v)).getD 32 := by
      rcases hOut with hz | hBig
      · rw [getD_firstBit_roundUp, if_pos hz]
        decide
      · rw [← not_le, le_two_pow_iff (by omega)]
        exact Nat.not_le_of_lt hBig
    rw [getOrder]
    rw [if_neg (by simp only [minOrd, maxOrd] at *; omega), if_pos hHigh]
  · intro s o mem k hOrd hk hNz
    obtain ⟨hv, rfl, -⟩ := getOrder_ok hOrd
    refine ⟨?_, (le_two_pow_iff hv _).mp (le_max_right ..), List.mem_cons_self⟩
    rw [exec, hk]
    dsimp only [Except.map]
    rw [if_neg hNz]

end Xv6Rpi.Buddy
