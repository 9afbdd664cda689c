import Xv6Rpi.Uvm.Pgtbl

/-! # The words of page directories and page tables -/

namespace Xv6Rpi.Uvm

def pdeWord (t : Nat) : Nat := v2p t ||| updeType

def TableAddr (t : Nat) : Prop := t % ptSz = 0 ∧ kernbase ≤ t ∧ t + ptSz ≤ p2v paStop

def PageAddr (v : Nat) : Prop := v % pteSz = 0 ∧ v < 2 ^ 32

theorem paStop_eq : p2v paStop = 0x8C000000 := by decide

theorem kernbase_eq : kernbase = 0x80000000 := rfl

theorem pdeIdx_eq (va : Nat) : pdeIdx va = va / pteSz / 256 := by
  rw [pdeIdx, Nat.shiftRight_eq_div_pow, pteSz, Nat.div_div_eq_div_mul]
  rfl

theorem pteIdx_eq (va : Nat) : pteIdx va = va / pteSz % 256 := by
  rw [pteIdx, Nat.shiftRight_eq_div_pow]
  exact Nat.and_two_pow_sub_one_eq_mod _ 8

theorem land_three (x : Nat) : x &&& 3 = x % 4 := Nat.and_two_pow_sub_one_eq_mod x 2

/-- The high and the low bits of a word are taken apart by `&&&`. -/
theorem land_split (k a K A i : Nat) (ha : a < 2 ^ i) (hA : A < 2 ^ i) :
    (2 ^ i * k + a) &&& (2 ^ i * K + A) = 2 ^ i * (k &&& K) + (a &&& A) := by
  apply Nat.eq_of_testBit_eq
  intro j
  rw [Nat.testBit_and, Nat.testBit_two_pow_mul_add _ ha, Nat.testBit_two_pow_mul_add _ hA,
    Nat.testBit_two_pow_mul_add _ (Nat.and_lt_two_pow a hA)]
  split <;> rw [Nat.testBit_and]

theorem lor_low (k a A i : Nat) (ha : a < 2 ^ i) (hA : A < 2 ^ i) : (2 ^ i * k + a) ||| A = 2 ^ i * k + (a ||| A) := by
  apply Nat.eq_of_testBit_eq
  intro j
  rw [Nat.testBit_or, Nat.testBit_two_pow_mul_add _ ha, Nat.testBit_two_pow_mul_add _ (Nat.or_lt_two_pow ha hA)]
  split
  · rw [Nat.testBit_or]
  · next hj =>
    have hA' : A < 2 ^ j := hA.trans_le (Nat.pow_le_pow_right (by decide) (by omega))
    rw [Nat.testBit_lt_two_pow hA', Bool.or_false]

section Pde

variable {t t' : Nat}

theorem TableAddr.v2p (h : TableAddr t) : v2p t = t - kernbase := by
  obtain ⟨-, h1, h2⟩ := h
  rw [paStop_eq] at h2
  simp only [Xv6Rpi.v2p, kernbase_eq, ptSz] at *
  omega

theorem TableAddr.pdeWord (h : TableAddr t) : pdeWord t = t - kernbase + 1 := by
  have hMod : (t - kernbase) % 2 ^ 10 = 0 := by
    obtain ⟨h0, h1, -⟩ := h
    simp only [kernbase_eq, ptSz] at *
    omega
  obtain ⟨k, hk⟩ : 2 ^ 10 ∣ t - kernbase := Nat.dvd_of_mod_eq_zero hMod
  have hLor := lor_low k 0 1 10 (by decide) (by decide)
  rw [Nat.add_zero, Nat.zero_or] at hLor
  rw [Uvm.pdeWord, h.v2p, hk, updeType, hLor]

theorem TableAddr.present (h : TableAddr t) : Uvm.pdeWord t &&& peTypes ≠ 0 := by
  have hWord := h.pdeWord
  obtain ⟨h0, h1, -⟩ := h
  rw [hWord, peTypes, land_three]
  simp only [kernbase_eq, ptSz] at *
  omega

theorem TableAddr.ptAddr (h : TableAddr t) : p2v (ptAddr (Uvm.pdeWord t)) = t := by
  have hWord := h.pdeWord
  obtain ⟨h0, h1, h2⟩ := h
  rw [paStop_eq] at h2
  rw [hWord, Uvm.ptAddr, show Uvm.ptSz = 2 ^ 10 from rfl, alignDn_eq _ 10 (by simp only [kernbase_eq, ptSz] at *; omega) (by decide)]
  simp only [kernbase_eq, ptSz, p2v] at *
  omega

end Pde

section Pte

variable {v v' : Nat}

theorem PageAddr.v2p_mod (h : PageAddr v) : v2p v % 2 ^ 12 = 0 ∧ v2p v < 2 ^ 32 := by
  obtain ⟨h0, h1⟩ := h
  simp only [v2p, kernbase_eq, pteSz] at *
  omega

theorem PageAddr.p2v_v2p (h : PageAddr v) : p2v (v2p v) = v := by
  obtain ⟨h0, h1⟩ := h
  simp only [v2p, p2v, kernbase_eq] at *
  omega

theorem PageAddr.pteWord (h : PageAddr v) (ap : Nat) : pteWord (v2p v) ap = v2p v + (ap % 4 * 16 + 14) := by
  obtain ⟨k, hk⟩ : 2 ^ 12 ∣ v2p v := Nat.dvd_of_mod_eq_zero h.v2p_mod.1
  have hAp : (ap &&& 3) <<< 4 = ap % 4 * 16 := by rw [land_three, Nat.shiftLeft_eq]
  have hLt : ap % 4 * 16 < 2 ^ 12 := by omega
  have hLow : ap % 4 * 16 ||| 8 ||| 4 ||| 2 = ap % 4 * 16 + 14 := by
    have hCase : ap % 4 = 0 ∨ ap % 4 = 1 ∨ ap % 4 = 2 ∨ ap % 4 = 3 := by omega
    obtain h0 | h0 | h0 | h0 := hCase <;> rw [h0] <;> decide
  have hLor := lor_low k 0 (ap % 4 * 16 ||| 8 ||| 4 ||| 2) 12 (by decide) (by omega)
  rw [Nat.add_zero, Nat.zero_or, hLow] at hLor
  rw [Uvm.pteWord, hAp, hk, peCache, peBuf, pteType, ← hLor, ← hLow, Nat.lor_assoc, Nat.lor_assoc, Nat.lor_assoc,
    Nat.lor_assoc, Nat.lor_assoc]

theorem PageAddr.present (h : PageAddr v) (ap : Nat) : Uvm.pteWord (v2p v) ap &&& peTypes ≠ 0 := by
  have hMod := h.v2p_mod.1
  rw [h.pteWord, peTypes, land_three]
  omega

theorem PageAddr.pteAddr (h : PageAddr v) (ap : Nat) : pteAddr (Uvm.pteWord (v2p v) ap) = v2p v := by
  obtain ⟨hMod, hLt⟩ := h.v2p_mod
  rw [h.pteWord, Uvm.pteAddr, show pteSz = 2 ^ 12 from rfl, alignDn_eq _ 12 (by omega) (by decide)]
  omega

theorem PageAddr.pteAp (h : PageAddr v) (ap : Nat) : pteAp (Uvm.pteWord (v2p v) ap) = ap % 4 := by
  have hMod := h.v2p_mod.1
  rw [h.pteWord, Uvm.pteAp, land_three, Nat.shiftRight_eq_div_pow]
  omega

theorem PageAddr.clearpteu (h : PageAddr v) (ap : Nat) :
    (Uvm.pteWord (v2p v) ap &&& (2 ^ 32 - 1 - 3 <<< 4)) ||| apKo <<< 4 = Uvm.pteWord (v2p v) apKo := by
  obtain ⟨hMod, hLt⟩ := h.v2p_mod
  obtain ⟨k, hk⟩ : 2 ^ 12 ∣ v2p v := Nat.dvd_of_mod_eq_zero hMod
  have hHigh : k &&& (2 ^ 20 - 1) = k := by
    rw [Nat.and_two_pow_sub_one_eq_mod]
    omega
  have hLow : (ap % 4 * 16 + 14) &&& (4095 - 48) ||| 16 = 30 := by
    have hCase : ap % 4 = 0 ∨ ap % 4 = 1 ∨ ap % 4 = 2 ∨ ap % 4 = 3 := by omega
    obtain h0 | h0 | h0 | h0 := hCase <;> rw [h0] <;> decide
  have hMask : 2 ^ 32 - 1 - 3 <<< 4 = 2 ^ 12 * (2 ^ 20 - 1) + (4095 - 48) := by decide
  have hSmall : (ap % 4 * 16 + 14) &&& (4095 - 48) < 2 ^ 12 := Nat.and_lt_two_pow _ (by decide)
  rw [h.pteWord, h.pteWord, hk, hMask, land_split _ _ _ _ 12 (by omega) (by decide), hHigh,
    show apKo <<< 4 = 16 from rfl, lor_low _ _ _ 12 hSmall (by decide), hLow]
  rfl

end Pte

end Xv6Rpi.Uvm
