import Xv6Rpi.Fs.Blocks

/-! # Block ownership

The pointers of an inode are its direct addresses, the address of its indirect block and
the entries of that block. Ownership is stated for any table of inodes, so that it can be
said of the inodes on disk and of those that a function is just changing in memory.
-/

namespace Xv6Rpi.Fs

def npos : Nat := ndirect + 1 + nindirect

/-- Pointer `pos` of an inode: a direct address, the indirect block, or one of its entries. -/
def ptr (d : Disk) (di : Dinode) (pos : Nat) : Nat :=
  if pos ≤ ndirect then di.addrs pos
  else if di.addrs ndirect = 0 then 0
  else getWord (d (di.addrs ndirect)) (4 * (pos - (ndirect + 1)))

/-- A pointer of an inode of the table; free inodes have none. -/
def ptrOf (d : Disk) (D : Nat → Dinode) (r : Nat × Nat) : Nat :=
  if (D r.1).type = 0 then 0 else ptr d (D r.1) r.2

def ValidRef (sb : Superblock) (r : Nat × Nat) : Prop := r.1 < sb.ninodes ∧ r.2 < npos

/-- Every block of the data area in use has one owner: a pointer, or the holder of `H`. -/
structure Own (sb : Superblock) (d : Disk) (D : Nat → Dinode) (H : Set Nat) : Prop where
  inj : ∀ r r', ValidRef sb r → ValidRef sb r' → ptrOf d D r = ptrOf d D r' → ptrOf d D r ≠ 0 → r = r'
  data : ∀ r, ValidRef sb r → ptrOf d D r ≠ 0 → InData sb (ptrOf d D r)
  bits : ∀ b, InData sb b → (bit sb d b = true ↔ (∃ r, ValidRef sb r ∧ ptrOf d D r = b) ∨ b ∈ H)
  held : ∀ b ∈ H, InData sb b ∧ ∀ r, ValidRef sb r → ptrOf d D r ≠ b

section Own

variable {sb : Superblock} {d d' : Disk} {D D' : Nat → Dinode} {H : Set Nat} {b : Nat} {r₀ : Nat × Nat}

theorem Own.congr (h : Own sb d D H) (hPtr : ∀ r, ValidRef sb r → ptrOf d' D' r = ptrOf d D r)
    (hBit : ∀ b < sb.size, bit sb d' b = bit sb d b) : Own sb d' D' H where
  inj r r' hr hr' := by
    rw [hPtr r hr, hPtr r' hr']
    exact h.inj r r' hr hr'
  data r hr := by
    rw [hPtr r hr]
    exact h.data r hr
  bits b hb := by
    rw [hBit b hb.lt_size, h.bits b hb]
    refine or_congr_left (exists_congr fun r => and_congr_right fun hr => ?_)
    rw [hPtr r hr]
  held b hb := by
    refine ⟨(h.held b hb).1, fun r hr => ?_⟩
    rw [hPtr r hr]
    exact (h.held b hb).2 r hr

theorem Own.take (h : Own sb d D H) (hData : InData sb b) (hFree : bit sb d b = false)
    (hPtr : ∀ r, ValidRef sb r → ptrOf d' D r = ptrOf d D r)
    (hBit : ∀ b' < sb.size, bit sb d' b' = (bit sb d b' || decide (b' = b))) :
    Own sb d' D (insert b H) := by
  have hNone : ¬((∃ r, ValidRef sb r ∧ ptrOf d D r = b) ∨ b ∈ H) := by
    rw [← h.bits b hData, hFree]
    decide
  refine ⟨?_, ?_, ?_, ?_⟩
  · intro r r' hr hr'
    rw [hPtr r hr, hPtr r' hr']
    exact h.inj r r' hr hr'
  · intro r hr
    rw [hPtr r hr]
    exact h.data r hr
  · intro b' hb'
    have hRefs : (∃ r, ValidRef sb r ∧ ptrOf d' D r = b') ↔ ∃ r, ValidRef sb r ∧ ptrOf d D r = b' :=
      exists_congr fun r => and_congr_right fun hr => by rw [hPtr r hr]
    rw [hBit b' hb'.lt_size, Bool.or_eq_true, decide_eq_true_eq, h.bits b' hb', hRefs, Set.mem_insert_iff,
      or_assoc]
    exact or_congr_right or_comm
  · intro b' hb'
    rcases hb' with rfl | hb'
    · refine ⟨hData, fun r hr hEq => hNone (Or.inl ⟨r, hr, ?_⟩)⟩
      rw [← hPtr r hr, hEq]
    · refine ⟨(h.held b' hb').1, fun r hr => ?_⟩
      rw [hPtr r hr]
      exact (h.held b' hb').2 r hr

theorem Own.give (h : Own sb d D (insert b H)) (hb : b ∉ H)
    (hPtr : ∀ r, ValidRef sb r → ptrOf d' D r = ptrOf d D r)
    (hBit : ∀ b' < sb.size, bit sb d' b' = (bit sb d b' && decide (b' ≠ b))) : Own sb d' D H := by
  obtain ⟨hData, hNone⟩ := h.held b (Set.mem_insert _ _)
  refine ⟨?_, ?_, ?_, ?_⟩
  · intro r r' hr hr'
    rw [hPtr r hr, hPtr r' hr']
    exact h.inj r r' hr hr'
  · intro r hr
    rw [hPtr r hr]
    exact h.data r hr
  · intro b' hb'
    have hRefs : (∃ r, ValidRef sb r ∧ ptrOf d' D r = b') ↔ ∃ r, ValidRef sb r ∧ ptrOf d D r = b' :=
      exists_congr fun r => and_congr_right fun hr => by rw [hPtr r hr]
    rw [hBit b' hb'.lt_size, Bool.and_eq_true, decide_eq_true_eq, h.bits b' hb', hRefs, Set.mem_insert_iff]
    constructor
    · rintro ⟨hOwn | hEq | hIn, hne⟩
      · exact Or.inl hOwn
      · exact absurd hEq hne
      · exact Or.inr hIn
    · rintro (⟨r, hr, rfl⟩ | hIn)
      · exact ⟨Or.inl ⟨r, hr, rfl⟩, hNone r hr⟩
      · refine ⟨Or.inr (Or.inr hIn), ?_⟩
        rintro rfl
        exact hb hIn
  · intro b' hb'
    obtain ⟨h1, h2⟩ := h.held b' (Or.inr hb')
    refine ⟨h1, fun r hr => ?_⟩
    rw [hPtr r hr]
    exact h2 r hr

/-- A held block becomes the target of an empty pointer. -/
theorem Own.assign (h : Own sb d D (insert b H)) (hb : b ∉ H) (hr₀ : ValidRef sb r₀)
    (hOld : ptrOf d D r₀ = 0) (hNew : ptrOf d' D' r₀ = b)
    (hPtr : ∀ r, ValidRef sb r → r ≠ r₀ → ptrOf d' D' r = ptrOf d D r)
    (hBit : ∀ b' < sb.size, bit sb d' b' = bit sb d b') : Own sb d' D' H := by
  obtain ⟨hData, hNone⟩ := h.held b (Set.mem_insert _ _)
  have hNe : ∀ r, ValidRef sb r → r ≠ r₀ → ptrOf d' D' r ≠ b := fun r hr hne => by
    rw [hPtr r hr hne]
    exact hNone r hr
  refine ⟨?_, ?_, ?_, ?_⟩
  · intro r r' hr hr' hEq hNz
    by_cases h1 : r = r₀
    · by_cases h2 : r' = r₀
      · rw [h1, h2]
      · rw [h1, hNew] at hEq
        exact absurd hEq.symm (hNe r' hr' h2)
    · by_cases h2 : r' = r₀
      · rw [h2, hNew] at hEq
        exact absurd hEq (hNe r hr h1)
      · rw [hPtr r hr h1, hPtr r' hr' h2] at hEq
        rw [hPtr r hr h1] at hNz
        exact h.inj r r' hr hr' hEq hNz
  · intro r hr hNz
    by_cases h1 : r = r₀
    · rw [h1, hNew]
      exact hData
    · rw [hPtr r hr h1] at hNz ⊢
      exact h.data r hr hNz
  · intro b' hb'
    rw [hBit b' hb'.lt_size, h.bits b' hb', Set.mem_insert_iff]
    constructor
    · rintro (⟨r, hr, rfl⟩ | rfl | hIn)
      · left
        by_cases h1 : r = r₀
        · rw [h1, hOld] at hb'
          exact absurd rfl hb'.pos
        · exact ⟨r, hr, hPtr r hr h1⟩
      · exact Or.inl ⟨r₀, hr₀, hNew⟩
      · exact Or.inr hIn
    · rintro (⟨r, hr, rfl⟩ | hIn)
      · by_cases h1 : r = r₀
        · rw [h1, hNew]
          exact Or.inr (Or.inl rfl)
        · exact Or.inl ⟨r, hr, (hPtr r hr h1).symm⟩
      · exact Or.inr (Or.inr hIn)
  · intro b' hb'
    obtain ⟨h1, h2⟩ := h.held b' (Or.inr hb')
    refine ⟨h1, fun r hr hEq => ?_⟩
    by_cases hr0 : r = r₀
    · rw [hr0, hNew] at hEq
      exact hb (hEq ▸ hb')
    · rw [hPtr r hr hr0] at hEq
      exact h2 r hr hEq

theorem Own.drop (h : Own sb d D H)
    (hPtr : ∀ r, ValidRef sb r → ptrOf d D' r = ptrOf d D r ∨ ptrOf d D' r = 0) :
    Own sb d D' (H ∪ {b | b ≠ 0 ∧ ∃ r, ValidRef sb r ∧ ptrOf d D r = b ∧ ptrOf d D' r = 0}) := by
  have hEq : ∀ r, ValidRef sb r → ptrOf d D' r ≠ 0 → ptrOf d D' r = ptrOf d D r :=
    fun r hr hNz => (hPtr r hr).resolve_right hNz
  refine ⟨?_, ?_, ?_, ?_⟩
  · intro r r' hr hr' hSame hNz
    have h1 := hEq r hr hNz
    have h2 := hEq r' hr' (by rwa [← hSame])
    exact h.inj r r' hr hr' (by rw [← h1, ← h2, hSame]) (by rwa [← h1])
  · intro r hr hNz
    have hSame := hEq r hr hNz
    rw [hSame] at hNz ⊢
    exact h.data r hr hNz
  · intro b hb
    rw [h.bits b hb]
    constructor
    · rintro (⟨r, hr, rfl⟩ | hIn)
      · by_cases hz : ptrOf d D' r = 0
        · exact Or.inr (Or.inr ⟨hb.pos, r, hr, rfl, hz⟩)
        · exact Or.inl ⟨r, hr, hEq r hr hz⟩
      · exact Or.inr (Or.inl hIn)
    · rintro (⟨r, hr, rfl⟩ | hIn | ⟨_, r, hr, rfl, _⟩)
      · exact Or.inl ⟨r, hr, (hEq r hr hb.pos).symm⟩
      · exact Or.inr hIn
      · exact Or.inl ⟨r, hr, rfl⟩
  · rintro b (hIn | ⟨hNz, r, hr, rfl, hz⟩)
    · refine ⟨(h.held b hIn).1, fun r hr hSame => ?_⟩
      have hNz : ptrOf d D' r ≠ 0 := by
        rw [hSame]
        exact (h.held b hIn).1.pos
      exact (h.held b hIn).2 r hr ((hEq r hr hNz).symm.trans hSame)
    · refine ⟨h.data r hr hNz, fun r' hr' hSame => ?_⟩
      have hNz' : ptrOf d D' r' ≠ 0 := by
        rw [hSame]
        exact hNz
      have := h.inj r' r hr' hr ((hEq r' hr' hNz').symm.trans hSame) (by rw [← hEq r' hr' hNz']; exact hNz')
      subst this
      exact hNz' hz

end Own

section Files

/-- The pointer for block `bn` of a file. -/
def posOf (bn : Nat) : Nat := if bn < ndirect then bn else bn + 1

/-- The byte of a file at an offset; a block that was never allocated reads as zeros. -/
def byteAt (d : Disk) (di : Dinode) (off : Nat) : UInt8 :=
  if ptr d di (posOf (off / bsize)) = 0 then 0 else d (ptr d di (posOf (off / bsize))) (off % bsize)

structure AFile where
  type : Nat
  major : Nat
  minor : Nat
  nlink : Nat
  size : Nat
  byte : Nat → UInt8

def AFile.free : AFile := ⟨0, 0, 0, 0, 0, fun _ => 0⟩

/-- The file that an inode stands for; all free inodes stand for the same. -/
def fileOf (d : Disk) (di : Dinode) : AFile :=
  if di.type = 0 then AFile.free
  else ⟨di.type, di.major, di.minor, di.nlink, di.size,
    fun off => if off < maxfile * bsize then byteAt d di off else 0⟩

variable {d d' : Disk} {di di' : Dinode}

theorem posOf_lt {bn : Nat} (h : bn < maxfile) : posOf bn < npos := by
  simp only [npos, maxfile, ndirect, nindirect_eq] at *
  by_cases hb : bn < ndirect
  · rw [posOf, if_pos hb]
    omega
  · rw [posOf, if_neg hb]
    omega

theorem posOf_injective {bn bn' : Nat} (h : posOf bn = posOf bn') : bn = bn' := by
  simp only [posOf] at h
  split at h <;> split at h <;> omega

def Agree (d d' : Disk) (di : Dinode) : Prop :=
  ∀ pos < npos, ptr d di pos ≠ 0 → d' (ptr d di pos) = d (ptr d di pos)

theorem ptr_le {pos : Nat} (h : pos ≤ ndirect) : ptr d di pos = di.addrs pos := if_pos h

theorem Agree.ptr (h : Agree d d' di) {pos : Nat} : ptr d' di pos = ptr d di pos := by
  have hInd := h ndirect (by decide)
  rw [ptr_le le_rfl] at hInd
  simp only [Fs.ptr]
  split
  · rfl
  · split
    · rfl
    · rename_i hNz
      rw [hInd hNz]

theorem Agree.fileOf (h : Agree d d' di) : fileOf d' di = fileOf d di := by
  have hByte : ∀ off < maxfile * bsize, byteAt d' di off = byteAt d di off := by
    intro off hOff
    have hPos : posOf (off / bsize) < npos := posOf_lt (Nat.div_lt_of_lt_mul (by rwa [Nat.mul_comm]))
    rw [byteAt, byteAt, h.ptr]
    split
    · rfl
    · rename_i hNz
      rw [h _ hPos hNz]
  simp only [Fs.fileOf]
  split
  · rfl
  · congr 1
    funext off
    by_cases hOff : off < maxfile * bsize
    · rw [if_pos hOff, if_pos hOff, hByte off hOff]
    · rw [if_neg hOff, if_neg hOff]

end Files

end Xv6Rpi.Fs
