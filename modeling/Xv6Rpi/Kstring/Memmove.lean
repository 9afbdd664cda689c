import Xv6Rpi.Base
import Xv6Rpi.Lib.Copy

/-! # memmove of string.c

The memory is a byte for each of the 2^32 addresses, and pointers are words that wrap. The loop
that runs upwards is right when the destination is not inside the source's range behind its start,
the one that runs downwards in that very case.
-/

namespace Xv6Rpi.Kstring

open Copy

abbrev Bytes := BitVec 32 → BitVec 8

/-- `while (n-- > 0) *--d = *--s;` -/
def copyDown (m : Bytes) (d s : BitVec 32) : Nat → Bytes
  | 0 => m
  | n + 1 => copyDown (Function.update m (d - 1) (m (s - 1))) (d - 1) (s - 1) n

/-- `while (n-- > 0) *d++ = *s++;` -/
def copyUp (m : Bytes) (d s : BitVec 32) : Nat → Bytes
  | 0 => m
  | n + 1 => copyUp (Function.update m d (m s)) (d + 1) (s + 1) n

/-- Returns `dst` beside the new memory. -/
def memmove (m : Bytes) (dst src n : BitVec 32) : Bytes × BitVec 32 :=
  if src < dst ∧ dst < src + n then (copyDown m (dst + n) (src + n) n.toNat, dst)
  else (copyUp m dst src n.toNat, dst)

def memcpy (m : Bytes) (dst src n : BitVec 32) : Bytes × BitVec 32 := memmove m dst src n

/-- The range from `dst` on holds what the one from `src` on held before, and nothing else changed. -/
structure Copied (m m' : Bytes) (dst src : BitVec 32) (n : Nat) : Prop where
  inside : ∀ i < n, m' (dst + BitVec.ofNat 32 i) = m (src + BitVec.ofNat 32 i)
  outside : ∀ a : BitVec 32, ¬(dst.toNat ≤ a.toNat ∧ a.toNat < dst.toNat + n) → m' a = m a

section Loops

variable (m : Bytes) (d s : BitVec 32) (n : Nat)

def upMoves : List (BitVec 32 × BitVec 32) :=
  (List.range n).map fun i => (d + BitVec.ofNat 32 i, s + BitVec.ofNat 32 i)

def downMoves : List (BitVec 32 × BitVec 32) :=
  (List.range n).map fun i => (d - 1 - BitVec.ofNat 32 i, s - 1 - BitVec.ofNat 32 i)

theorem copyUp_eq : copyUp m d s n = copyAll m (upMoves d s n) := by
  induction n generalizing m d s with
  | zero => rfl
  | succ n ih =>
    rw [copyUp, ih, upMoves, upMoves, List.range_succ_eq_map, List.map_cons, copyAll, List.map_map]
    congr 1
    · simp
    · apply List.map_congr_left
      intro i _
      simp only [Function.comp_apply, Nat.succ_eq_add_one, BitVec.ofNat_add]
      rw [BitVec.add_comm (BitVec.ofNat 32 i), ← BitVec.add_assoc, ← BitVec.add_assoc]
      rfl

theorem copyDown_eq : copyDown m d s n = copyAll m (downMoves d s n) := by
  induction n generalizing m d s with
  | zero => rfl
  | succ n ih =>
    rw [copyDown, ih, downMoves, downMoves, List.range_succ_eq_map, List.map_cons, copyAll, List.map_map]
    congr 1
    · simp
    · apply List.map_congr_left
      intro i _
      simp only [Function.comp_apply, Nat.succ_eq_add_one, BitVec.ofNat_add]
      generalize BitVec.ofNat 32 i = x
      rw [Prod.mk.injEq]
      constructor
      · bv_omega
      · bv_omega

end Loops

section Ranges

variable {m : Bytes} {dst src : BitVec 32} {n : Nat}

theorem toNat_add_ofNat {p : BitVec 32} {i : Nat} (h : p.toNat + n ≤ 2 ^ 32) (hi : i < n) :
    (p + BitVec.ofNat 32 i).toNat = p.toNat + i := by
  rw [BitVec.toNat_add, BitVec.toNat_ofNat, Nat.mod_eq_of_lt (a := i) (by omega), Nat.mod_eq_of_lt (by omega)]

theorem end_sub {p : BitVec 32} {i : Nat} (hi : i < n) :
    p + BitVec.ofNat 32 n - 1 - BitVec.ofNat 32 i = p + BitVec.ofNat 32 (n - 1 - i) := by
  have hSplit : n = n - 1 - i + i + 1 := by omega
  conv => lhs; rw [hSplit]
  simp only [BitVec.ofNat_add]
  generalize BitVec.ofNat 32 (n - 1 - i) = x
  generalize BitVec.ofNat 32 i = y
  bv_omega

/-- Moves that reach every place of the range once, in a safe order, copy it. -/
theorem copied_of_moves (place : Nat → Nat) (hMaps : ∀ i < n, place i < n) (hOnto : ∀ j < n, ∃ i < n, place i = j)
    (hDst : dst.toNat + n ≤ 2 ^ 32)
    (hSafe : ∀ i j, i < j → j < n → Before (dst + BitVec.ofNat 32 (place i), src + BitVec.ofNat 32 (place i))
      (dst + BitVec.ofNat 32 (place j), src + BitVec.ofNat 32 (place j))) :
    Copied m (copyAll m ((List.range n).map fun i =>
      (dst + BitVec.ofNat 32 (place i), src + BitVec.ofNat 32 (place i)))) dst src n where
  inside j hj := by
    obtain ⟨i, hi, rfl⟩ := hOnto j hj
    refine copyAll_of_mem (p := (dst + BitVec.ofNat 32 (place i), src + BitVec.ofNat 32 (place i))) ?_
      (List.mem_map.mpr ⟨i, List.mem_range.mpr hi, rfl⟩)
    rw [List.pairwise_map]
    refine List.pairwise_lt_range.imp_of_mem ?_
    intro i j hi hj hij
    exact hSafe i j hij (List.mem_range.mp hj)
  outside a ha := by
    apply copyAll_of_notMem
    rintro p hp rfl
    obtain ⟨i, hi, rfl⟩ := List.mem_map.mp hp
    have hPlace := hMaps i (List.mem_range.mp hi)
    apply ha
    dsimp only
    rw [toNat_add_ofNat hDst hPlace]
    omega

theorem toNat_toInt {n : BitVec 32} (hn : 0 ≤ n.toInt) : n.toInt.toNat = n.toNat := by
  rw [BitVec.toInt_eq_toNat_cond] at hn ⊢
  omega

theorem ne_of_toNat {a b : BitVec 32} (h : a.toNat ≠ b.toNat) : a ≠ b := fun hEq => h (congrArg BitVec.toNat hEq)

/-- Upwards, a cell that is read must not lie behind one that was written. -/
theorem copied_up (hDst : dst.toNat + n ≤ 2 ^ 32) (hSrc : src.toNat + n ≤ 2 ^ 32)
    (hOrder : dst.toNat ≤ src.toNat ∨ src.toNat + n ≤ dst.toNat) : Copied m (copyUp m dst src n) dst src n := by
  rw [copyUp_eq]
  refine copied_of_moves id (fun _ hi => hi) (fun j hj => ⟨j, hj, rfl⟩) hDst ?_
  intro i j hij hj
  constructor
  · apply ne_of_toNat
    dsimp only [id]
    rw [toNat_add_ofNat hDst (by omega), toNat_add_ofNat hDst hj]
    omega
  · apply ne_of_toNat
    dsimp only [id]
    rw [toNat_add_ofNat hDst (by omega), toNat_add_ofNat hSrc hj]
    omega

theorem copied_down (hDst : dst.toNat + n ≤ 2 ^ 32) (hSrc : src.toNat + n ≤ 2 ^ 32) (hOrder : src.toNat ≤ dst.toNat) :
    Copied m (copyDown m (dst + BitVec.ofNat 32 n) (src + BitVec.ofNat 32 n) n) dst src n := by
  have hMoves : downMoves (dst + BitVec.ofNat 32 n) (src + BitVec.ofNat 32 n) n = (List.range n).map fun i =>
      (dst + BitVec.ofNat 32 (n - 1 - i), src + BitVec.ofNat 32 (n - 1 - i)) := by
    apply List.map_congr_left
    intro i hi
    rw [end_sub (List.mem_range.mp hi), end_sub (List.mem_range.mp hi)]
  rw [copyDown_eq, hMoves]
  refine copied_of_moves (fun i => n - 1 - i) (fun i hi => by omega) (fun j hj => ⟨n - 1 - j, by omega, by omega⟩) hDst ?_
  intro i j hij hj
  constructor
  · apply ne_of_toNat
    dsimp only
    rw [toNat_add_ofNat hDst (by omega), toNat_add_ofNat hDst (by omega)]
    omega
  · apply ne_of_toNat
    dsimp only
    rw [toNat_add_ofNat hDst (by omega), toNat_add_ofNat hSrc (by omega)]
    omega

end Ranges

/-- However the two ranges lie, as long as neither wraps: the bytes arrive as they were, and no
other byte changes. -/
theorem memmove_copies (m : Bytes) {dst src n : BitVec 32} (hDst : dst.toNat + n.toNat ≤ 2 ^ 32)
    (hSrc : src.toNat + n.toNat ≤ 2 ^ 32) :
    Copied m (memmove m dst src n).1 dst src n.toNat ∧ (memmove m dst src n).2 = dst ∧
      memcpy m dst src n = memmove m dst src n := by
  refine ⟨?_, ?_, rfl⟩
  · rw [memmove]
    split
    · rename_i hInside
      have hDown := copied_down (m := m) hDst hSrc (Nat.le_of_lt (BitVec.lt_def.mp hInside.1))
      rwa [BitVec.ofNat_toNat, BitVec.setWidth_eq] at hDown
    · rename_i hInside
      rw [BitVec.lt_def, BitVec.lt_def, BitVec.toNat_add] at hInside
      refine copied_up hDst hSrc ?_
      -- a source that ends at the top of memory ends at 0, but then nothing lies above it
      have hn := n.isLt
      omega
  · rw [memmove]
    split <;> rfl

theorem memmove_copies_overlap : (memmove (fun a => a.setWidth 8) 3#32 1#32 5#32).1 (3#32 + BitVec.ofNat 32 4) = 5#8 :=
  (@memmove_copies (fun a => a.setWidth 8) 3#32 1#32 5#32 (by decide) (by decide)).1.inside 4
    (by decide)

end Xv6Rpi.Kstring
