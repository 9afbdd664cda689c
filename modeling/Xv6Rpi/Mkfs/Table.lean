import Mathlib.Algebra.BigOperators.Group.Finset.Basic
import Xv6Rpi.Fs.Update
import Xv6Rpi.Mkfs.Model

/-! # The files in an image

Inodes and blocks are handed out by counters. So the blocks from the first one of the data
area up to the counter are exactly those that the pointers of the inodes name, each once, and
the ones behind it are clear.
-/

namespace Xv6Rpi.Mkfs

open Fs

def Needs (len pos : Nat) : Prop :=
  if pos < ndirect then pos * bsize < len else if pos = ndirect then ndirect * bsize < len else (pos - 1) * bsize < len

instance (len pos : Nat) : Decidable (Needs len pos) := by
  unfold Needs
  infer_instance

def blocksOf (len : Nat) : Nat := (len + 511) / 512 + if 6144 < len then 1 else 0

theorem needs_posOf (len bn : Nat) : Needs len (posOf bn) ↔ bn * bsize < len := by
  rw [Needs, posOf]
  by_cases h : bn < ndirect
  · rw [if_pos h, if_pos h]
  · rw [if_neg h, if_neg (by omega), if_neg (by omega), Nat.add_sub_cancel]

theorem needs_ndirect (len : Nat) : Needs len ndirect ↔ 6144 < len := by
  rw [Needs, if_neg (Nat.lt_irrefl _), if_pos rfl]
  exact Iff.rfl

theorem not_needs_zero (pos : Nat) : ¬Needs 0 pos := by
  simp only [Needs]
  split
  · omega
  · split <;> omega

structure Table (d : Disk) (D : Nat → Dinode) (c : Nat → List UInt8) (fb : Nat) : Prop where
  low : metablocks ≤ fb
  inj : ∀ i < ninodes, ∀ j < ninodes, ∀ p < npos, ∀ q < npos, ptr d (D i) p = ptr d (D j) q →
    ptr d (D i) p ≠ 0 → i = j ∧ p = q
  area : ∀ i < ninodes, ∀ p < npos, ptr d (D i) p ≠ 0 → metablocks ≤ ptr d (D i) p ∧ ptr d (D i) p < fb
  onto : ∀ b, metablocks ≤ b → b < fb → ∃ i < ninodes, ∃ p < npos, ptr d (D i) p = b
  bytes : ∀ i < ninodes, ∀ off < maxfile * bsize, byteAt d (D i) off = (c i).getD off 0
  fresh : ∀ b, fb ≤ b → d b = zeroBlock

section Table

variable {d d' : Disk} {D D' : Nat → Dinode} {c : Nat → List UInt8} {fb i p : Nat}

theorem metablocks_eq : metablocks = 29 := rfl

theorem Table.agree (h : Table d D c fb) (hSame : ∀ x, metablocks ≤ x → x < fb → d' x = d x) (hi : i < ninodes) :
    Agree d d' (D i) := by
  intro p hp hNz
  obtain ⟨hLow, hHigh⟩ := h.area i hi p hp hNz
  exact hSame _ hLow hHigh

theorem Table.congr (h : Table d D c fb) (hSame : ∀ x, metablocks ≤ x → d' x = d x)
    (hD : ∀ i < ninodes, (D' i).addrs = (D i).addrs) : Table d' D' c fb := by
  have hPtr (i : Nat) (hi : i < ninodes) (p : Nat) : ptr d' (D' i) p = ptr d (D i) p := by
    rw [← (h.agree (fun x hx _ => hSame x hx) hi).ptr, ptr, ptr, hD i hi]
  refine ⟨h.low, fun i hi j hj p hp q hq => ?_, fun i hi p hp => ?_, fun b hLow hHigh => ?_, fun i hi off hOff => ?_,
    fun b hb => ?_⟩
  · rw [hPtr i hi, hPtr j hj]
    exact h.inj i hi j hj p hp q hq
  · rw [hPtr i hi]
    exact h.area i hi p hp
  · obtain ⟨i, hi, p, hp, hb⟩ := h.onto b hLow hHigh
    exact ⟨i, hi, p, hp, (hPtr i hi p).trans hb⟩
  · rw [← h.bytes i hi off hOff, byteAt, byteAt, hPtr i hi]
    split
    · rfl
    · next hNz =>
      have hPos : posOf (off / bsize) < npos := posOf_lt (Nat.div_lt_of_lt_mul (by rwa [Nat.mul_comm]))
      rw [hSame _ (h.area i hi _ hPos hNz).1]
  · rw [hSame b (h.low.trans hb)]
    exact h.fresh b hb

theorem Table.take (h : Table d D c fb) (hi : i < ninodes) (hp : p < npos) (hOld : ptr d (D i) p = 0)
    (hNew : ptr d' (D' i) p = fb)
    (hPtr : ∀ j < ninodes, ∀ q < npos, ¬(j = i ∧ q = p) → ptr d' (D' j) q = ptr d (D j) q)
    (hData : ∀ j < ninodes, ∀ bn < maxfile, ptr d (D j) (posOf bn) ≠ 0 →
      d' (ptr d (D j) (posOf bn)) = d (ptr d (D j) (posOf bn)))
    (hFresh : ∀ b, fb ≤ b → d' b = d b) : Table d' D' c (fb + 1) := by
  have hNz : fb ≠ 0 := by
    have := h.low
    rw [metablocks_eq] at this
    omega
  -- the pointers of the table as before, or the new one
  have hCases (j : Nat) (hj : j < ninodes) (q : Nat) (hq : q < npos) :
      (j = i ∧ q = p ∧ ptr d' (D' j) q = fb) ∨ (¬(j = i ∧ q = p) ∧ ptr d' (D' j) q = ptr d (D j) q) := by
    by_cases hIn : j = i ∧ q = p
    · obtain ⟨rfl, rfl⟩ := hIn
      exact .inl ⟨rfl, rfl, hNew⟩
    · exact .inr ⟨hIn, hPtr j hj q hq hIn⟩
  refine ⟨h.low.trans (Nat.le_succ fb), ?_, ?_, ?_, ?_, ?_⟩
  · intro j hj k hk q hq r hr hEq hNe
    obtain ⟨rfl, rfl, h1⟩ | ⟨-, h1⟩ := hCases j hj q hq
    · obtain ⟨rfl, rfl, -⟩ | ⟨-, h2⟩ := hCases k hk r hr
      · exact ⟨rfl, rfl⟩
      · rw [h1, h2] at hEq
        exact absurd (h.area k hk r hr (by rw [← hEq]; exact hNz)).2 (by omega)
    · obtain ⟨rfl, rfl, h2⟩ | ⟨-, h2⟩ := hCases k hk r hr
      · rw [h1] at hEq hNe
        rw [h2] at hEq
        exact absurd (h.area j hj q hq hNe).2 (by omega)
      · rw [h1] at hEq hNe
        rw [h2] at hEq
        exact h.inj j hj k hk q hq r hr hEq hNe
  · intro j hj q hq hNe
    obtain ⟨rfl, rfl, h1⟩ | ⟨-, h1⟩ := hCases j hj q hq
    · rw [h1]
      exact ⟨h.low, Nat.lt_succ_self fb⟩
    · rw [h1] at hNe ⊢
      obtain ⟨hLow, hHigh⟩ := h.area j hj q hq hNe
      exact ⟨hLow, hHigh.trans (Nat.lt_succ_self fb)⟩
  · intro b hLow hHigh
    obtain hLt | rfl := Nat.lt_succ_iff_lt_or_eq.mp hHigh
    · obtain ⟨j, hj, q, hq, hb⟩ := h.onto b hLow hLt
      refine ⟨j, hj, q, hq, (hPtr j hj q hq ?_).trans hb⟩
      rintro ⟨rfl, rfl⟩
      have := h.low
      rw [metablocks_eq] at hLow
      omega
    · exact ⟨i, hi, p, hp, hNew⟩
  · intro j hj off hOff
    have hBn : off / bsize < maxfile := Nat.div_lt_of_lt_mul (by rwa [Nat.mul_comm])
    rw [← h.bytes j hj off hOff, byteAt, byteAt]
    obtain ⟨rfl, rfl, h1⟩ | ⟨-, h1⟩ := hCases j hj _ (posOf_lt hBn)
    · rw [h1, if_neg hNz, hFresh fb le_rfl, h.fresh fb le_rfl, if_pos hOld]
      rfl
    · rw [h1]
      split
      · rfl
      · next hNe => rw [hData j hj _ hBn hNe]
  · intro b hb
    rw [hFresh b (by omega)]
    exact h.fresh b (by omega)

theorem Table.takeAddr (h : Table d D c fb) (hi : i < ninodes) {k : Nat} (hk : k ≤ ndirect) (hOld : (D i).addrs k = 0) :
    Table d (Function.update D i { D i with addrs := Function.update (D i).addrs k fb }) c (fb + 1) ∧
      ∀ j < ninodes, ∀ q < npos, ¬(j = i ∧ q = k) →
        ptr d (Function.update D i { D i with addrs := Function.update (D i).addrs k fb } j) q = ptr d (D j) q := by
  have hNz : fb ≠ 0 := by
    have := h.low
    rw [metablocks_eq] at this
    omega
  have hPtr : ∀ j < ninodes, ∀ q < npos, ¬(j = i ∧ q = k) →
      ptr d (Function.update D i { D i with addrs := Function.update (D i).addrs k fb } j) q = ptr d (D j) q := by
    intro j _ q _ hNot
    rcases eq_or_ne j i with rfl | hne
    · rw [Function.update_self]
      exact ptr_setAddr hk hOld hNz (h.fresh fb le_rfl) fun hq => hNot ⟨rfl, hq⟩
    · rw [Function.update_of_ne hne]
  have hkPos : k < npos := hk.trans_lt indirect_lt
  refine ⟨h.take hi hkPos (by rw [ptr_le hk, hOld]) ?_ hPtr (fun _ _ _ _ _ => rfl) fun _ _ => rfl, hPtr⟩
  rw [Function.update_self, ptr_le hk]
  exact Function.update_self ..

theorem Table.takeEntry (h : Table d D c fb) (hi : i < ninodes) (hInd : (D i).addrs ndirect ≠ 0) {k : Nat}
    (hk : k < nindirect) (hOld : getWord (d ((D i).addrs ndirect)) (4 * k) = 0) (hFb : fb < 2 ^ 32)
    (hd : d' = Function.update d ((D i).addrs ndirect) (setWord (d ((D i).addrs ndirect)) (4 * k) fb)) :
    Table d' D c (fb + 1) ∧ ptr d' (D i) (ndirect + 1 + k) = fb ∧
      ∀ j < ninodes, ∀ q < npos, ¬(j = i ∧ q = ndirect + 1 + k) → ptr d' (D j) q = ptr d (D j) q := by
  have hIndPtr : ptr d (D i) ndirect = (D i).addrs ndirect := ptr_le le_rfl
  have hIndArea := h.area i hi ndirect indirect_lt (by rwa [hIndPtr])
  rw [hIndPtr] at hIndArea
  have hkPos : ndirect + 1 + k < npos := by
    rw [npos]
    omega
  have hGt : ndirect < ndirect + 1 + k := by omega
  have hSub : ndirect + 1 + k - (ndirect + 1) = k := by omega
  -- only the indirect block of this inode changes, and no other inode has it
  have hOther (j : Nat) (hj : j < ninodes) (q : Nat) (hq : q < npos) (hNe : ptr d (D j) q ≠ 0)
      (hNot : ¬(j = i ∧ q = ndirect)) : ptr d (D j) q ≠ (D i).addrs ndirect := by
    intro hEq
    obtain ⟨rfl, rfl⟩ := h.inj j hj i hi q hq ndirect indirect_lt (hEq.trans hIndPtr.symm) hNe
    exact hNot ⟨rfl, rfl⟩
  have hPtr : ∀ j < ninodes, ∀ q < npos, ¬(j = i ∧ q = ndirect + 1 + k) → ptr d' (D j) q = ptr d (D j) q := by
    intro j hj q hq hNot
    by_cases hLe : q ≤ ndirect
    · rw [ptr_le hLe, ptr_le hLe]
    · have hGtQ : ndirect < q := Nat.lt_of_not_le hLe
      by_cases hz : (D j).addrs ndirect = 0
      · rw [ptr_gt_zero hGtQ hz, ptr_gt_zero hGtQ hz]
      · rw [ptr_gt hGtQ hz, ptr_gt hGtQ hz, hd]
        rcases eq_or_ne j i with rfl | hne
        · have hq : q ≠ ndirect + 1 + k := fun hq => hNot ⟨rfl, hq⟩
          rw [Function.update_self, getWord_setWord_of_disjoint _ (by omega)]
        · have hDiff := hOther j hj ndirect indirect_lt (by rwa [ptr_le le_rfl]) fun hEq => hne hEq.1
          rw [ptr_le le_rfl] at hDiff
          rw [Function.update_of_ne hDiff]
  have hNew : ptr d' (D i) (ndirect + 1 + k) = fb := by
    rw [ptr_gt hGt hInd, hSub, hd, Function.update_self, getWord_setWord_self, Nat.mod_eq_of_lt hFb]
  refine ⟨h.take hi hkPos ?_ hNew hPtr ?_ ?_, hNew, hPtr⟩
  · rw [ptr_gt hGt hInd, hSub, hOld]
  · intro j hj bn hBn hNe
    rw [hd, Function.update_of_ne (hOther j hj _ (posOf_lt hBn) hNe fun hEq => posOf_ne_indirect bn hEq.2)]
  · intro b hb
    rw [hd, Function.update_of_ne (by omega)]

theorem Table.write (h : Table d D c fb) (hi : i < ninodes) {bn : Nat} (hBn : bn < maxfile)
    (hNz : ptr d (D i) (posOf bn) ≠ 0) {buf : Block} {l : List UInt8}
    (hIn : ∀ o < bsize, buf o = l.getD (bn * bsize + o) 0)
    (hOut : ∀ off, off / bsize ≠ bn → l.getD off 0 = (c i).getD off 0)
    (hd : d' = Function.update d (ptr d (D i) (posOf bn)) buf) :
    Table d' D (Function.update c i l) fb ∧ ∀ j < ninodes, ∀ q, ptr d' (D j) q = ptr d (D j) q := by
  have hArea := h.area i hi _ (posOf_lt hBn) hNz
  have hOther (j : Nat) (hj : j < ninodes) (q : Nat) (hq : q < npos) (hNe : ptr d (D j) q ≠ 0)
      (hNot : ¬(j = i ∧ q = posOf bn)) : d' (ptr d (D j) q) = d (ptr d (D j) q) := by
    rw [hd, Function.update_of_ne]
    intro hEq
    exact hNot (h.inj j hj i hi q hq _ (posOf_lt hBn) hEq hNe)
  have hPtr : ∀ j < ninodes, ∀ q, ptr d' (D j) q = ptr d (D j) q := by
    intro j hj q
    refine ptr_congr rfl (fun hNe => ?_) q
    have hInd : ptr d (D j) ndirect = (D j).addrs ndirect := ptr_le le_rfl
    rw [← hInd]
    exact hOther j hj ndirect indirect_lt (by rwa [hInd]) fun hEq => posOf_ne_indirect bn hEq.2.symm
  refine ⟨⟨h.low, ?_, ?_, ?_, ?_, ?_⟩, hPtr⟩
  · intro j hj k hk p hp q hq
    rw [hPtr j hj, hPtr k hk]
    exact h.inj j hj k hk p hp q hq
  · intro j hj p hp
    rw [hPtr j hj]
    exact h.area j hj p hp
  · intro b hLow hHigh
    obtain ⟨j, hj, q, hq, hb⟩ := h.onto b hLow hHigh
    exact ⟨j, hj, q, hq, (hPtr j hj q).trans hb⟩
  · intro j hj off hOff
    have hBnOff : off / bsize < maxfile := Nat.div_lt_of_lt_mul (by rwa [Nat.mul_comm])
    have hOld := h.bytes j hj off hOff
    rw [byteAt] at hOld ⊢
    rw [hPtr j hj]
    by_cases hIs : j = i ∧ off / bsize = bn
    · obtain ⟨rfl, rfl⟩ := hIs
      rw [Function.update_self, if_neg hNz, hd, Function.update_self, hIn _ (Nat.mod_lt _ (by decide)),
        Nat.div_add_mod']
    · have hSame : (Function.update c i l j).getD off 0 = (c j).getD off 0 := by
        rcases eq_or_ne j i with rfl | hne
        · rw [Function.update_self, hOut off fun hEq => hIs ⟨rfl, hEq⟩]
        · rw [Function.update_of_ne hne]
      rw [hSame, ← hOld]
      split
      · rfl
      · next hNe =>
        rw [hOther j hj _ (posOf_lt hBnOff) hNe fun hEq => hIs ⟨hEq.1, posOf_injective hEq.2⟩]
  · intro b hb
    rw [hd, Function.update_of_ne (by omega)]
    exact h.fresh b hb

end Table

end Xv6Rpi.Mkfs
