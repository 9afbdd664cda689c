import Xv6Rpi.Fs.Dir
import Xv6Rpi.Fs.Update
import Xv6Rpi.Lib.Slotted

/-! # Directories as maps in slots

A directory is a file of entries. An entry with an inode number other than zero is a slot in
use; its key is the name up to its first zero, and at most `DIRSIZ` bytes of it. Writing one
entry changes one slot.
-/

namespace Xv6Rpi.Fs

section Names

variable {inum : Nat} {name : List UInt8}

theorem length_cstr_le (name : List UInt8) : (cstr name).length ≤ dirsiz :=
  (List.Sublist.length_le (List.takeWhile_sublist _)).trans (List.length_take_le _ _)

theorem length_encodeDirent (inum : Nat) (name : List UInt8) : (encodeDirent inum name).length = direntSz := by
  have hName := length_cstr_le name
  simp only [encodeDirent, List.length_append, List.length_cons, List.length_nil, List.length_replicate]
  have : dirsiz = 14 := rfl
  have : direntSz = 16 := rfl
  omega

theorem cstr_padded (name : List UInt8) :
    cstr ((cstr name ++ List.replicate (dirsiz - (cstr name).length) 0).take dirsiz) = cstr name := by
  have hLen := length_cstr_le name
  have hTake : ((cstr name ++ List.replicate (dirsiz - (cstr name).length) 0).take dirsiz).take dirsiz =
      cstr name ++ List.replicate (dirsiz - (cstr name).length) 0 := by
    rw [List.take_take, Nat.min_self, List.take_of_length_le]
    rw [List.length_append, List.length_replicate]
    omega
  have hNz : ∀ c ∈ cstr name, decide (c ≠ 0) := fun c hc =>
    List.all_eq_true.mp (List.all_takeWhile (p := fun c => decide (c ≠ 0))) c hc
  rw [cstr, hTake, List.takeWhile_append_of_pos hNz]
  cases dirsiz - (cstr name).length with
  | zero => rw [List.replicate_zero, List.takeWhile_nil, List.append_nil]
  | succ n => rw [List.replicate_succ, List.takeWhile_cons_of_neg (by simp), List.append_nil]

theorem decodeDirent_inum (hInum : inum < 2 ^ 16) : (decodeDirent (encodeDirent inum name)).inum = inum := by
  have hLow : (UInt8.ofNat inum).toNat = inum % 256 := UInt8.toNat_ofNat'
  have hHigh : (UInt8.ofNat (inum / 256)).toNat = inum / 256 % 256 := UInt8.toNat_ofNat'
  change (UInt8.ofNat inum).toNat + 256 * (UInt8.ofNat (inum / 256)).toNat = inum
  rw [hLow, hHigh]
  omega

theorem cstr_decodeDirent : cstr (decodeDirent (encodeDirent inum name)).name = cstr name := cstr_padded name

theorem decodeDirent_name {t : List UInt8} :
    namecmp name (decodeDirent (encodeDirent inum t)).name = namecmp name t := by
  rw [namecmp, namecmp, cstr_decodeDirent]

theorem decodeDirent_zeros : (decodeDirent (List.replicate direntSz 0)).inum = 0 := rfl

end Names

def dirent (f : AFile) (i : Nat) : Dirent :=
  decodeDirent ((List.range direntSz).map fun j => f.byte (direntSz * i + j))

/-- The slots of a directory: the names and inode numbers of its entries. -/
def entries (f : AFile) (i : Nat) : Option (List UInt8 × Nat) :=
  if i < f.size / direntSz ∧ (dirent f i).inum ≠ 0 then some (cstr (dirent f i).name, (dirent f i).inum) else none

section Entries

variable {f : AFile} {src name : List UInt8} {i k inum : Nat}

theorem entries_eq_none : entries f i = none ↔ i < f.size / direntSz → (dirent f i).inum = 0 := by
  rw [entries]
  split
  · rename_i hIn
    exact iff_of_false (Option.some_ne_none _) fun hz => hIn.2 (hz hIn.1)
  · rename_i hOut
    rw [not_and, not_not] at hOut
    exact iff_of_true rfl hOut

theorem entries_isNone (hi : i < f.size / direntSz) : (entries f i).isNone = true ↔ (dirent f i).inum = 0 := by
  rw [Option.isNone_iff_eq_none, entries_eq_none, imp_iff_right hi]

theorem entries_eq_some {e : List UInt8 × Nat} : entries f i = some e ↔
    i < f.size / direntSz ∧ (dirent f i).inum ≠ 0 ∧ cstr (dirent f i).name = e.1 ∧ (dirent f i).inum = e.2 := by
  rw [entries]
  split
  · rename_i hIn
    rw [Option.some.injEq, Prod.ext_iff, and_iff_right hIn.1, and_iff_right hIn.2]
  · rename_i hOut
    exact iff_of_false (Option.some_ne_none e).symm fun h => hOut ⟨h.1, h.2.1⟩

theorem read_dirent (h : i < f.size / direntSz) :
    (f.read (direntSz * i) direntSz).length = direntSz ∧ decodeDirent (f.read (direntSz * i) direntSz) = dirent f i := by
  have hSz : direntSz = 16 := rfl
  have hLen : min (direntSz * i + direntSz) f.size - direntSz * i = direntSz := by
    simp only [hSz] at h ⊢
    omega
  rw [AFile.read, hLen, dirent]
  exact ⟨by rw [List.length_map, List.length_range], rfl⟩

theorem dirent_write (hLen : src.length = direntSz) :
    dirent (f.write (direntSz * k) src) i = if i = k then decodeDirent src else dirent f i := by
  have hSz : direntSz = 16 := rfl
  rw [dirent]
  by_cases hEq : i = k
  · subst hEq
    rw [if_pos rfl]
    congr 1
    apply List.ext_getElem
    · rw [List.length_map, List.length_range, hLen]
    · intro j hj hj'
      rw [List.length_map, List.length_range] at hj
      rw [List.getElem_map, List.getElem_range, AFile.write]
      dsimp only
      rw [patch_of_mem (by omega) (by omega)]
      congr 1
      omega
  · rw [if_neg hEq, dirent]
    congr 1
    apply List.map_congr_left
    intro j hj
    rw [List.mem_range] at hj
    rw [AFile.write]
    dsimp only
    rw [patch_of_not_mem]
    simp only [hSz] at hj hLen ⊢
    omega

theorem size_write (hAlign : direntSz ∣ f.size) (hLen : src.length = direntSz) :
    (f.write (direntSz * k) src).size = direntSz * max (f.size / direntSz) (k + 1) := by
  have hSz : direntSz = 16 := rfl
  rw [AFile.write, hLen]
  dsimp only
  simp only [hSz] at hAlign ⊢
  omega

theorem entries_write (hAlign : direntSz ∣ f.size) (hk : k ≤ f.size / direntSz) (hLen : src.length = direntSz)
    {e : Option (List UInt8 × Nat)}
    (he : e = if (decodeDirent src).inum ≠ 0 then some (cstr (decodeDirent src).name, (decodeDirent src).inum) else none) :
    entries (f.write (direntSz * k) src) = Function.update (entries f) k e := by
  funext i
  have hCount : (f.write (direntSz * k) src).size / direntSz = max (f.size / direntSz) (k + 1) := by
    rw [size_write hAlign hLen, Nat.mul_div_cancel_left _ (by decide)]
  rw [entries, hCount, dirent_write hLen, Function.update_apply]
  by_cases hEq : i = k
  · have hIn : i < max (f.size / direntSz) (k + 1) := by omega
    rw [if_pos hEq, if_pos hEq, he]
    simp only [hIn, true_and]
  · have hIff : i < max (f.size / direntSz) (k + 1) ↔ i < f.size / direntSz := by omega
    rw [if_neg hEq, if_neg hEq, entries]
    simp only [hIff]

theorem entries_link (hAlign : direntSz ∣ f.size) (hk : k ≤ f.size / direntSz) (hNz : inum ≠ 0) (hInum : inum < 2 ^ 16) :
    entries (f.write (direntSz * k) (encodeDirent inum name)) = Function.update (entries f) k (some (cstr name, inum)) := by
  apply entries_write hAlign hk (length_encodeDirent ..)
  rw [decodeDirent_inum hInum, if_pos hNz, cstr_decodeDirent]

theorem entries_clear (hAlign : direntSz ∣ f.size) (hk : k ≤ f.size / direntSz) :
    entries (f.write (direntSz * k) (List.replicate direntSz 0)) = Function.update (entries f) k none := by
  apply entries_write hAlign hk (List.length_replicate ..)
  rw [decodeDirent_zeros]
  rfl

end Entries

def Distinct (f : AFile) : Prop :=
  ∀ i j k v w, entries f i = some (k, v) → entries f j = some (k, w) → i = j

theorem distinct_iff {f : AFile} : Distinct f ↔ ∀ i < f.size / direntSz, ∀ j < f.size / direntSz, (entries f i).isSome →
    (entries f i).map Prod.fst = (entries f j).map Prod.fst → i = j := by
  constructor
  · intro h i _ j _ hSome hEq
    obtain ⟨⟨k, v⟩, hi⟩ := Option.isSome_iff_exists.mp hSome
    rw [hi, Option.map_some, eq_comm, Option.map_eq_some_iff] at hEq
    obtain ⟨⟨k', w⟩, hj, hKey⟩ := hEq
    dsimp only at hKey
    subst hKey
    exact h i j k' v w hi hj
  · intro h i j k v w hi hj
    refine h i (entries_eq_some.mp hi).1 j (entries_eq_some.mp hj).1 ?_ ?_
    · rw [hi]
      rfl
    · rw [hi, hj]
      rfl

instance (f : AFile) : Decidable (Distinct f) := decidable_of_iff _ distinct_iff.symm

def dirMap (f : AFile) (h : Distinct f) : Slotted (List UInt8) Nat where
  slot := entries f
  bound := f.size / direntSz
  empty i hi := entries_eq_none.mpr fun hIn => by omega
  uniq := h

section Map

variable {f : AFile} {name : List UInt8} {k inum : Nat}

theorem Distinct.link (h : Distinct f) (hAlign : direntSz ∣ f.size) (hNz : inum ≠ 0) (hInum : inum < 2 ^ 16)
    (hNew : (dirMap f h).get (cstr name) = none) :
    ∃ h' : Distinct (f.write (direntSz * (dirMap f h).free) (encodeDirent inum name)),
      dirMap _ h' = (dirMap f h).insert (cstr name) inum hNew := by
  have hk := (dirMap f h).slot_free.2.1
  have hSlots := @entries_link f name _ _ hAlign hk hNz hInum
  have h' : Distinct (f.write (direntSz * (dirMap f h).free) (encodeDirent inum name)) := by
    rw [Distinct, hSlots]
    exact ((dirMap f h).insert (cstr name) inum hNew).uniq
  refine ⟨h', Slotted.ext hSlots ?_⟩
  change (f.write _ _).size / direntSz = max (f.size / direntSz) _
  rw [size_write hAlign (length_encodeDirent ..), Nat.mul_div_cancel_left _ (by decide)]

theorem Distinct.clear (h : Distinct f) (hAlign : direntSz ∣ f.size) (hk : k < f.size / direntSz) :
    ∃ h' : Distinct (f.write (direntSz * k) (List.replicate direntSz 0)), dirMap _ h' = (dirMap f h).erase k := by
  have hSlots := entries_clear hAlign hk.le
  have h' : Distinct (f.write (direntSz * k) (List.replicate direntSz 0)) := by
    rw [Distinct, hSlots]
    exact ((dirMap f h).erase k).uniq
  refine ⟨h', Slotted.ext hSlots ?_⟩
  change (f.write _ _).size / direntSz = f.size / direntSz
  rw [size_write hAlign (List.length_replicate ..), Nat.mul_div_cancel_left _ (by decide)]
  omega

end Map

end Xv6Rpi.Fs
