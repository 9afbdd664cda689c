import Xv6Rpi.Fs.Entries
import Xv6Rpi.Fs.Peek
import Xv6Rpi.Fs.Sysfile

/-! # Looking through a directory

The three loops over the entries of a directory, said in terms of its slots: the first slot
with a name, the first empty slot, and whether all slots after the first two are empty.
-/

namespace Xv6Rpi.Fs

open Prog

structure ShowsDir (s : Kern) (dp : Nat) (f : AFile) : Prop extends Shows s dp f where
  dir : f.type = tDir
  align : direntSz ∣ f.size

def dirFound : Option (Nat × Nat) → FsM (Option (Nat × Nat))
  | none => return none
  | some (inum, i) => do
    let ip ← iget inum
    return some (ip, direntSz * i)

def AFile.find (f : AFile) (name : List UInt8) : Option (Nat × Nat) :=
  slotFind (entries f) (cstr name) 0 (f.size / direntSz)

def emptyFrom (f : AFile) : Nat → Nat → Bool
  | _, 0 => true
  | i, n + 1 => (entries f i).isNone && emptyFrom f (i + 1) n

section Loops

variable {s : Kern} {dp i fuel : Nat} {f : AFile} {name : List UInt8}

theorem ShowsDir.same {s' : Kern} (h : ShowsDir s dp f) (hs : Same s s') : ShowsDir s' dp f :=
  ⟨h.toShows.same hs, h.dir, h.align⟩

theorem ShowsDir.le_iff (h : ShowsDir s dp f) : (s.inode dp).di.size ≤ direntSz * i ↔ f.size / direntSz ≤ i := by
  have hAlign := h.align
  rw [h.size]
  simp only [direntSz] at hAlign ⊢
  omega

theorem ShowsDir.leads_readi (h : ShowsDir s dp f) (hi : i < f.size / direntSz) :
    Leads s (readi dp (direntSz * i) direntSz) (Pure.pure (some (f.read (direntSz * i) direntSz))) := by
  have hMax := h.full.size
  have hCan : CanRead (s.inode dp).di (direntSz * i) direntSz := by
    rw [h.size] at hMax
    rw [CanRead, h.size]
    simp only [direntSz, maxfile, ndirect, nindirect_eq, bsize] at hi hMax ⊢
    omega
  have hRead := @Shows.leads_readi _ _ (direntSz * i) direntSz _ h.toShows (by rw [h.dir]; decide)
  rwa [if_pos hCan] at hRead

theorem ShowsDir.leads_dirlookupFrom (h : ShowsDir s dp f) (hFuel : f.size / direntSz ≤ i + fuel) :
    Leads s (dirlookupFrom dp name fuel (direntSz * i))
      (dirFound (slotFind (entries f) (cstr name) i (f.size / direntSz - i))) := by
  induction fuel generalizing s i with
  | zero =>
    rw [Nat.sub_eq_zero_of_le (by omega)]
    exact .refl ..
  | succ fuel ih =>
    refine leads_getK ?_
    by_cases hi : i < f.size / direntSz
    · obtain ⟨hLen, hDec⟩ := read_dirent hi
      rw [if_neg (by rw [h.le_iff]; omega)]
      refine (h.leads_readi hi).hand fun s₁ h₁ => ?_
      dsimp only
      rw [if_neg (not_not.mpr hLen), hDec, show f.size / direntSz - i = f.size / direntSz - (i + 1) + 1 by omega, slotFind]
      cases hHit : slotHit (entries f) (cstr name) i with
      | some r =>
        obtain ⟨hSlot, hAt⟩ := slotHit_eq_some.mp hHit
        obtain ⟨-, hNz, hKey, hInum⟩ := entries_eq_some.mp hSlot
        have hSame : namecmp name (dirent f i).name = true := by
          rw [namecmp, beq_iff_eq]
          exact hKey.symm
        rw [if_neg (by rw [hSame]; exact fun hOr => hOr.elim hNz fun hNot => hNot rfl), hInum, ← hAt]
        exact .refl ..
      | none =>
        have hNot := slotHit_eq_none.mp hHit
        have hSkip : (dirent f i).inum = 0 ∨ ¬namecmp name (dirent f i).name = true := by
          by_contra hBoth
          rw [not_or, not_not, namecmp, beq_iff_eq] at hBoth
          exact hNot _ (entries_eq_some.mpr ⟨hi, hBoth.1, hBoth.2.symm, rfl⟩)
        rw [if_pos hSkip, ← Nat.mul_succ]
        exact ih (h.same h₁) (by omega)
    · rw [if_pos (by rw [h.le_iff]; omega), Nat.sub_eq_zero_of_le (by omega)]
      exact .refl ..

/-- `dirlookup` takes a reference to the inode of the first entry with the name. -/
theorem ShowsDir.leads_dirlookup (h : ShowsDir s dp f) (name : List UInt8) :
    Leads s (dirlookup dp name) (dirFound (f.find name)) := by
  refine leads_getK ?_
  rw [if_neg (not_not.mpr (h.type_eq.trans h.dir))]
  have hFuel : f.size / direntSz ≤ 0 + dirFuel (s.inode dp).di := by
    rw [dirFuel, h.size]
    omega
  exact h.leads_dirlookupFrom hFuel

theorem ShowsDir.leads_emptyEntryFrom (h : ShowsDir s dp f) (hi : i ≤ f.size / direntSz)
    (hFuel : f.size / direntSz ≤ i + fuel) : Leads s (emptyEntryFrom dp fuel (direntSz * i))
      (Pure.pure (direntSz * slotFree (entries f) i (f.size / direntSz - i))) := by
  induction fuel generalizing s i with
  | zero =>
    rw [Nat.sub_eq_zero_of_le (by omega)]
    exact .refl ..
  | succ fuel ih =>
    refine leads_getK ?_
    by_cases hLt : i < f.size / direntSz
    · obtain ⟨hLen, hDec⟩ := read_dirent hLt
      rw [if_neg (by rw [h.le_iff]; omega)]
      refine (h.leads_readi hLt).hand fun s₁ h₁ => ?_
      dsimp only
      rw [if_neg (not_not.mpr hLen), hDec, show f.size / direntSz - i = f.size / direntSz - (i + 1) + 1 by omega, slotFree]
      by_cases hz : (dirent f i).inum = 0
      · rw [if_pos hz, if_pos ((entries_isNone hLt).mpr hz)]
        exact .refl ..
      · rw [if_neg hz, if_neg (mt (entries_isNone hLt).mp hz), ← Nat.mul_succ]
        exact ih (h.same h₁) (by omega) (by omega)
    · rw [if_pos (by rw [h.le_iff]; omega), Nat.sub_eq_zero_of_le (by omega)]
      exact .refl ..

theorem ShowsDir.leads_isdiremptyFrom (h : ShowsDir s dp f) (hFuel : f.size / direntSz ≤ i + fuel) :
    Leads s (isdiremptyFrom dp fuel (direntSz * i)) (Pure.pure (emptyFrom f i (f.size / direntSz - i))) := by
  induction fuel generalizing s i with
  | zero =>
    rw [Nat.sub_eq_zero_of_le (by omega)]
    exact .refl ..
  | succ fuel ih =>
    refine leads_getK ?_
    by_cases hLt : i < f.size / direntSz
    · obtain ⟨hLen, hDec⟩ := read_dirent hLt
      rw [if_neg (by rw [h.le_iff]; omega)]
      refine (h.leads_readi hLt).hand fun s₁ h₁ => ?_
      dsimp only
      rw [if_neg (not_not.mpr hLen), hDec, show f.size / direntSz - i = f.size / direntSz - (i + 1) + 1 by omega, emptyFrom]
      by_cases hz : (dirent f i).inum = 0
      · rw [if_neg (not_not.mpr hz), ← Nat.mul_succ, (entries_isNone hLt).mpr hz, Bool.true_and]
        exact ih (h.same h₁) (by omega)
      · rw [if_pos hz, Bool.eq_false_iff.mpr (mt (entries_isNone hLt).mp hz), Bool.false_and]
        exact .refl ..
    · rw [if_pos (by rw [h.le_iff]; omega), Nat.sub_eq_zero_of_le (by omega)]
      exact .refl ..

theorem ShowsDir.leads_isdirempty (h : ShowsDir s dp f) :
    Leads s (isdirempty dp) (Pure.pure (emptyFrom f 2 (f.size / direntSz - 2))) := by
  refine leads_getK ?_
  have hFuel : f.size / direntSz ≤ 2 + dirFuel (s.inode dp).di := by
    rw [dirFuel, h.size]
    omega
  have hLoop := h.leads_isdiremptyFrom hFuel
  rwa [Nat.mul_comm direntSz 2] at hLoop

end Loops

end Xv6Rpi.Fs
