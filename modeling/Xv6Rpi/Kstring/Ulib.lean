import Xv6Rpi.Kstring.Memmove

/-! # memmove of ulib.c

The library for user programs copies upwards only. When the destination starts inside the source's
range behind its start, it reads bytes that it has already overwritten, and repeats the ones in front.
-/

namespace Xv6Rpi.Kstring

open Copy

/-- `while(n-- > 0) *dst++ = *src++;` for a signed `n`. Returns `vdst` beside the new memory. -/
def Ulib.memmove (m : Bytes) (vdst vsrc n : BitVec 32) : Bytes × BitVec 32 := (copyUp m vdst vsrc n.toInt.toNat, vdst)

section Ranges

variable {m m' : Bytes} {dst src : BitVec 32} {n : Nat}

theorem Copied.unique {m₁ m₂ : Bytes} (h₁ : Copied m m₁ dst src n) (h₂ : Copied m m₂ dst src n)
    (hDst : dst.toNat + n ≤ 2 ^ 32) : m₁ = m₂ := by
  funext a
  by_cases ha : dst.toNat ≤ a.toNat ∧ a.toNat < dst.toNat + n
  · have hAt : a = dst + BitVec.ofNat 32 (a.toNat - dst.toNat) := by
      apply BitVec.eq_of_toNat_eq
      rw [toNat_add_ofNat hDst (by omega)]
      omega
    rw [hAt, h₁.inside _ (by omega), h₂.inside _ (by omega)]
  · rw [h₁.outside a ha, h₂.outside a ha]

theorem copyUp_outside (hDst : dst.toNat + n ≤ 2 ^ 32) {a : BitVec 32}
    (ha : ¬(dst.toNat ≤ a.toNat ∧ a.toNat < dst.toNat + n)) : copyUp m dst src n a = m a := by
  rw [copyUp_eq]
  apply copyAll_of_notMem
  rintro p hp rfl
  obtain ⟨i, hi, rfl⟩ := List.mem_map.mp hp
  rw [List.mem_range] at hi
  apply ha
  dsimp only
  rw [toNat_add_ofNat hDst hi]
  omega

/-- Upwards from a source in front of the destination, each byte written is the one that its
source holds at the end. -/
theorem copyUp_chained (hDst : dst.toNat + n ≤ 2 ^ 32) (hOrder : src.toNat < dst.toNat) {i : Nat} (hi : i < n) :
    copyUp m dst src n (dst + BitVec.ofNat 32 i) = copyUp m dst src n (src + BitVec.ofNat 32 i) := by
  have hSrc : src.toNat + n ≤ 2 ^ 32 := by omega
  rw [copyUp_eq]
  refine copyAll_eq_source (p := (dst + BitVec.ofNat 32 i, src + BitVec.ofNat 32 i)) ?_
    (List.mem_map.mpr ⟨i, List.mem_range.mpr hi, rfl⟩)
  rw [upMoves, List.pairwise_map]
  refine List.pairwise_lt_range.imp_of_mem ?_
  intro j k _ hk hjk
  rw [List.mem_range] at hk
  constructor
  · apply ne_of_toNat
    dsimp only
    rw [toNat_add_ofNat hDst hk, toNat_add_ofNat hDst (by omega)]
    omega
  · apply ne_of_toNat
    dsimp only
    rw [toNat_add_ofNat hDst hk, toNat_add_ofNat hSrc (by omega)]
    omega

/-- The bytes of the source's range repeat with the distance of the two ranges. -/
def Repeats (m : Bytes) (dst src : BitVec 32) (n : Nat) : Prop :=
  ∀ i, dst.toNat - src.toNat + i < n → m (dst + BitVec.ofNat 32 i) = m (src + BitVec.ofNat 32 i)

/-- The address at which the source's range reaches the destination. -/
theorem src_add_eq {i : Nat} (hOrder : src.toNat < dst.toNat) :
    src + BitVec.ofNat 32 (dst.toNat - src.toNat + i) = dst + BitVec.ofNat 32 i := by
  have hSplit : dst.toNat - src.toNat + i + src.toNat = dst.toNat + i := by omega
  apply BitVec.eq_of_toNat_eq
  rw [BitVec.toNat_add, BitVec.toNat_add, BitVec.toNat_ofNat, BitVec.toNat_ofNat]
  omega

/-- The destination lies behind the start of the source: the copy is right if and only if the
bytes that are overwritten before they are read are replaced by themselves. -/
theorem copied_up_iff (hDst : dst.toNat + n ≤ 2 ^ 32) (hOrder : src.toNat < dst.toNat) :
    Copied m (copyUp m dst src n) dst src n ↔ Repeats m dst src n := by
  constructor
  · intro h i hi
    calc
      m (dst + BitVec.ofNat 32 i) = m (src + BitVec.ofNat 32 (dst.toNat - src.toNat + i)) := by rw [src_add_eq hOrder]
      _ = copyUp m dst src n (dst + BitVec.ofNat 32 (dst.toNat - src.toNat + i)) := (h.inside _ hi).symm
      _ = copyUp m dst src n (src + BitVec.ofNat 32 (dst.toNat - src.toNat + i)) := copyUp_chained hDst hOrder hi
      _ = copyUp m dst src n (dst + BitVec.ofNat 32 i) := by rw [src_add_eq hOrder]
      _ = m (src + BitVec.ofNat 32 i) := h.inside i (by omega)
  · intro h
    refine ⟨fun i => ?_, fun a ha => copyUp_outside hDst ha⟩
    -- a byte of the source was either never overwritten, or replaced by an earlier one like it
    induction i using Nat.strong_induction_on with
    | _ i ih =>
      intro hi
      rw [copyUp_chained hDst hOrder hi]
      by_cases hFront : i < dst.toNat - src.toNat
      · apply copyUp_outside hDst
        rw [toNat_add_ofNat (n := n) (by omega) hi]
        omega
      · obtain ⟨j, rfl⟩ := Nat.exists_eq_add_of_le (Nat.le_of_not_lt hFront)
        rw [src_add_eq hOrder, ih j (by omega) (by omega), h j hi]

end Ranges

/-- The two functions leave the same memory if and only if the destination does not lie behind the
start of the source, or the source's bytes repeat with the distance. -/
theorem ulib_memmove_agrees_iff (m : Bytes) {dst src n : BitVec 32} (hn : 0 ≤ n.toInt) (hDst : dst.toNat + n.toNat ≤ 2 ^ 32)
    (hSrc : src.toNat + n.toNat ≤ 2 ^ 32) :
    (Ulib.memmove m dst src n).1 = (memmove m dst src n).1 ↔ (src < dst → Repeats m dst src n.toNat) := by
  have hKernel : Copied m (memmove m dst src n).1 dst src n.toNat := (memmove_copies m hDst hSrc).1
  rw [Ulib.memmove, toNat_toInt hn]
  have hSame : copyUp m dst src n.toNat = (memmove m dst src n).1 ↔ Copied m (copyUp m dst src n.toNat) dst src n.toNat := by
    constructor
    · intro hEq
      rwa [hEq]
    · intro h
      exact h.unique hKernel hDst
  rw [hSame, BitVec.lt_def]
  by_cases hOrder : src.toNat < dst.toNat
  · rw [copied_up_iff hDst hOrder]
    exact ⟨fun h _ => h, fun h => h hOrder⟩
  · exact ⟨fun _ h => absurd h hOrder, fun _ => copied_up hDst hSrc (Or.inl (Nat.le_of_not_lt hOrder))⟩

/-- Four bytes, of two alternating values, move by two. -/
theorem ulib_memmove_agrees_alternating :
    (Ulib.memmove (fun a => if a.getLsbD 0 then 7 else 9) 3#32 1#32 4#32).1 =
      (memmove (fun a => if a.getLsbD 0 then 7 else 9) 3#32 1#32 4#32).1 := by
  refine (ulib_memmove_agrees_iff _ (by decide) (by decide) (by decide)).mpr fun _ i hi => ?_
  have hTwo : i = 0 ∨ i = 1 := by
    change 2 + i < 4 at hi
    omega
  rcases hTwo with rfl | rfl <;> decide

/-- Two different bytes move by one: the user library writes the first of them twice. -/
theorem ulib_memmove_repeats :
    (Ulib.memmove (fun a => a.setWidth 8) 2#32 1#32 2#32).1 3#32 = 1#8 ∧
      (memmove (fun a => a.setWidth 8) 2#32 1#32 2#32).1 3#32 = 2#8 ∧
      (Ulib.memmove (fun a => a.setWidth 8) 2#32 1#32 2#32).1 ≠ (memmove (fun a => a.setWidth 8) 2#32 1#32 2#32).1 := by
  refine ⟨by decide, by decide, fun hEq => ?_⟩
  have hByte := congrFun hEq 3#32
  revert hByte
  decide

end Xv6Rpi.Kstring
