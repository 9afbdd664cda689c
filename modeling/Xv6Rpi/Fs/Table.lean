import Xv6Rpi.Fs.Own

/-! # The table of inodes

An inode that is cached and valid is its in-memory copy, any other one is what the disk
holds. The functions of fs.c that work on one inode change its copy and blocks outside
the log; what they leave alone is collected in one relation.
-/

namespace Xv6Rpi.Fs

open Prog

def dinodeOf (d : Disk) (inum : Nat) : Dinode := decodeDinode (d (iblock inum)) (inum % ipb)

def slotOf (s : Kern) (inum : Nat) : Option Nat :=
  (List.range ninode).find? fun i => 0 < (s.inode i).ref && (s.inode i).valid && (s.inode i).inum == inum

def eff (s : Kern) (inum : Nat) : Dinode :=
  match slotOf s inum with
  | some i => (s.inode i).di
  | none => dinodeOf (home s) inum

def files (s : Kern) (inum : Nat) : AFile := fileOf (home s) (eff s inum)

structure LiveSlot (s : Kern) (ip : Nat) : Prop where
  lt : ip < ninode
  ref : 0 < (s.inode ip).ref
  valid : (s.inode ip).valid = true

structure CacheInv (sb : Superblock) (s : Kern) : Prop where
  uniq : ∀ i < ninode, ∀ j < ninode, 0 < (s.inode i).ref → 0 < (s.inode j).ref →
    (s.inode i).inum = (s.inode j).inum → i = j
  inum : ∀ i < ninode, 0 < (s.inode i).ref → (s.inode i).inum < sb.ninodes
  ok : ∀ i, LiveSlot s i → (s.inode i).di.Ok

/-- The state between two functions; the blocks of `H` are in the caller's hands. -/
structure Sound (sb : Superblock) (s : Kern) (H : Set Nat) : Prop where
  mounted : Mounted sb s
  cache : CacheInv sb s
  own : Own sb (home s) (eff s) H

structure Steady {sb : Superblock} (M : LowBits sb) (s : Kern) (H : Set Nat) : Prop extends Sound sb s H where
  low : M.holds (home s)

section Disk

variable {sb : Superblock} {d : Disk} {i inum x : Nat} {di : Dinode}

theorem dinodeOf_ok (d : Disk) (inum : Nat) : (dinodeOf d inum).Ok := decodeDinode_ok _ _

theorem dinodeOf_update {data : Block} (hi : inum < sb.ninodes) (hx : sb.ninodes / ipb + 3 ≤ x) :
    dinodeOf (Function.update d x data) inum = dinodeOf d inum := by
  have := iblock_lt hi
  rw [dinodeOf, Function.update_of_ne (by omega), dinodeOf]

theorem dinodeOf_encode (hOk : di.Ok) :
    dinodeOf (Function.update d (iblock i) (encodeDinode (d (iblock i)) (i % ipb) di)) inum =
      if inum = i then di else dinodeOf d inum := by
  rw [dinodeOf]
  by_cases hEq : inum = i
  · rw [if_pos hEq, hEq, Function.update_self, decode_encodeDinode hOk]
  · rw [if_neg hEq]
    by_cases hBlk : iblock inum = iblock i
    · have hMod : inum % ipb ≠ i % ipb := by
        simp only [iblock, ipb_eq] at *
        omega
      rw [hBlk, Function.update_self, decode_encodeDinode_of_ne hMod, dinodeOf, hBlk]
    · rw [Function.update_of_ne hBlk, dinodeOf]

end Disk

section Eff

variable {sb : Superblock} {s s' : Kern} {d : Disk} {ip inum : Nat}

theorem slotOf_some {i : Nat} (h : slotOf s inum = some i) : LiveSlot s i ∧ (s.inode i).inum = inum := by
  have hMem := List.mem_range.mp (List.mem_of_find?_eq_some h)
  have hTest := List.find?_some h
  simp only [Bool.and_eq_true, decide_eq_true_eq, beq_iff_eq] at hTest
  exact ⟨⟨hMem, hTest.1.1, hTest.1.2⟩, hTest.2⟩

theorem slotOf_none (h : slotOf s inum = none) {i : Nat} (hi : LiveSlot s i) : (s.inode i).inum ≠ inum := by
  intro hEq
  have := List.find?_eq_none.mp h i (List.mem_range.mpr hi.lt)
  simp [hi.ref, hi.valid, hEq] at this

theorem CacheInv.eff_live (h : CacheInv sb s) (hl : LiveSlot s ip) :
    eff s (s.inode ip).inum = (s.inode ip).di := by
  rw [eff]
  cases hSlot : slotOf s (s.inode ip).inum with
  | none => exact absurd rfl (slotOf_none hSlot hl)
  | some i =>
    obtain ⟨hi, hEq⟩ := slotOf_some hSlot
    rw [h.uniq i hi.lt ip hl.lt hi.ref hl.ref hEq]

theorem slotOf_congr (h : s'.inode = s.inode) : slotOf s' inum = slotOf s inum := by
  rw [slotOf, slotOf, h]

theorem eff_congr (h : s'.inode = s.inode) (hd : dinodeOf (home s') inum = dinodeOf (home s) inum) :
    eff s' inum = eff s inum := by
  rw [eff, eff, slotOf_congr h, h, hd]

theorem LiveSlot.congr (h : s'.inode = s.inode) (hl : LiveSlot s ip) : LiveSlot s' ip :=
  ⟨hl.lt, by rw [h]; exact hl.ref, by rw [h]; exact hl.valid⟩

theorem CacheInv.congr (h : s'.inode = s.inode) (hC : CacheInv sb s) : CacheInv sb s' where
  uniq := by
    rw [h]
    exact hC.uniq
  inum := by
    rw [h]
    exact hC.inum
  ok i hi := by
    rw [h]
    exact hC.ok i (hi.congr h.symm)

def setDi (s : Kern) (ip : Nat) (di : Dinode) : Kern := setInode s ip { s.inode ip with di := di }

theorem setDi_self (s : Kern) (ip : Nat) (di : Dinode) :
    (setDi s ip di).inode ip = { s.inode ip with di := di } := Function.update_self ..

theorem setDi_of_ne {j : Nat} (h : j ≠ ip) (di : Dinode) : (setDi s ip di).inode j = s.inode j :=
  Function.update_of_ne h ..

theorem setDi_fields (s : Kern) (ip : Nat) (di : Dinode) (j : Nat) :
    ((setDi s ip di).inode j).ref = (s.inode j).ref ∧ ((setDi s ip di).inode j).inum = (s.inode j).inum ∧
      ((setDi s ip di).inode j).valid = (s.inode j).valid := by
  by_cases h : j = ip
  · rw [h, setDi_self]
    exact ⟨rfl, rfl, rfl⟩
  · rw [setDi_of_ne h]
    exact ⟨rfl, rfl, rfl⟩

theorem slotOf_setDi (di : Dinode) : slotOf (setDi s ip di) inum = slotOf s inum := by
  rw [slotOf, slotOf]
  congr 1
  funext i
  obtain ⟨h1, h2, h3⟩ := setDi_fields s ip di i
  rw [h1, h2, h3]

theorem home_setDi (di : Dinode) : home (setDi s ip di) = home s := rfl

theorem liveSlot_setDi {di : Dinode} {j : Nat} : LiveSlot (setDi s ip di) j ↔ LiveSlot s j := by
  obtain ⟨h1, _, h3⟩ := setDi_fields s ip di j
  exact ⟨fun h => ⟨h.lt, h1 ▸ h.ref, h3 ▸ h.valid⟩, fun h => ⟨h.lt, h1 ▸ h.ref, h3 ▸ h.valid⟩⟩

theorem CacheInv.eff_setDi (h : CacheInv sb s) (hl : LiveSlot s ip) (di : Dinode) :
    eff (setDi s ip di) inum = if inum = (s.inode ip).inum then di else eff s inum := by
  by_cases hEq : inum = (s.inode ip).inum
  · rw [if_pos hEq, hEq, eff, slotOf_setDi]
    cases hSlot : slotOf s (s.inode ip).inum with
    | none => exact absurd rfl (slotOf_none hSlot hl)
    | some i =>
      obtain ⟨hi, hEq⟩ := slotOf_some hSlot
      rw [h.uniq i hi.lt ip hl.lt hi.ref hl.ref hEq]
      simp only [setDi_self]
  · rw [if_neg hEq, eff, eff, slotOf_setDi]
    cases hSlot : slotOf s inum with
    | none => rfl
    | some i =>
      have hne : i ≠ ip := by
        rintro rfl
        exact hEq (slotOf_some hSlot).2.symm
      simp only [setDi_of_ne hne]

theorem CacheInv.setDi (h : CacheInv sb s) {di : Dinode} (hOk : di.Ok) : CacheInv sb (setDi s ip di) where
  uniq i hi j hj := by
    obtain ⟨h1, h2, _⟩ := setDi_fields s ip di i
    obtain ⟨h3, h4, _⟩ := setDi_fields s ip di j
    rw [h1, h2, h3, h4]
    exact h.uniq i hi j hj
  inum i hi := by
    obtain ⟨h1, h2, _⟩ := setDi_fields s ip di i
    rw [h1, h2]
    exact h.inum i hi
  ok i hi := by
    by_cases hEq : i = ip
    · rw [hEq, setDi_self]
      exact hOk
    · rw [setDi_of_ne hEq]
      exact h.ok i (liveSlot_setDi.mp hi)

end Eff

end Xv6Rpi.Fs
