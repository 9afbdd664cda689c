import Xv6Rpi.Fs.Holes

/-! # The owners of blocks

On disk, too, no block has two owners, and the bitmap marks the blocks of the data area that have
one, after any run of calls, as long as `balloc` stays within the data area. Then `bfree` only ever
gets blocks that are marked.
-/

namespace Xv6Rpi.Fs

open Prog

/-- The pointers of the inodes of a disk name different blocks, and the bitmap marks the blocks of
the data area that are named. -/
structure BlocksOwned (sb : Superblock) (d : Disk) : Prop where
  once : ∀ r r', ValidRef sb r → ValidRef sb r' → ptrOf d (dinodeOf d) r = ptrOf d (dinodeOf d) r' →
    ptrOf d (dinodeOf d) r ≠ 0 → r = r'
  marked : ∀ b, InData sb b → (bit sb d b = true ↔ ∃ r, ValidRef sb r ∧ ptrOf d (dinodeOf d) r = b)

/-- What is shown of a call: it may stop in any way but in the panic of `bfree`. -/
def ownedFrees (sb : Superblock) : Rely Kern Stop Label := ⟨fun e => e ≠ .panic .freeingFree, AllocsInData sb, fun _ _ => True⟩

section Owned

variable {sb : Superblock} {M : LowBits sb} {c r l l' : Multiset Nat} {s s' : Kern} {d d' : Disk} {op : TreeCall}

instance (P : Kern → Prop) : CommitsIn (ownedFrees sb) P := ⟨fun _ _ => trivial⟩

theorem ownedFrees_relies (M : LowBits sb) : Relies M (ownedFrees sb) :=
  ⟨⟨fun _ hFree _ => hFree, fun _ _ _ => trivial⟩, fun _ hs _ => hs, fun _ _ _ => trivial⟩

/-- The pointers on disk are those of the cached inodes, the blocks of the log left out. -/
theorem Fit.ptr_disk (h : Fit M c s) (hG : Geom sb) {q : Nat × Nat} (hq : ValidRef sb q) :
    ptrOf s.disk (dinodeOf s.disk) q = ptrOf (home s) (eff s) q := by
  have hInode : dinodeOf s.disk q.1 = eff s q.1 := by
    rw [h.eff_eq, dinodeOf, dinodeOf, home_of_not_holds (h.mounted.not_holds (hG.iblock_lt_log hq.1))]
  rw [ptrOf, ptrOf, hInode]
  by_cases hType : (eff s q.1).type = 0
  · rw [if_pos hType, if_pos hType]
  · rw [if_neg hType, if_neg hType, ptr, ptr]
    by_cases hInd : (eff s q.1).addrs ndirect = 0
    · rw [if_pos hInd, if_pos hInd]
    · have hPtr : ptrOf (home s) (eff s) (q.1, ndirect) = (eff s q.1).addrs ndirect := by
        rw [ptrOf, if_neg hType, ptr_le (Nat.le_refl ndirect)]
      have hData : InData sb ((eff s q.1).addrs ndirect) := by
        have hOwn := h.own.data (q.1, ndirect) ⟨hq.1, show ndirect < npos by decide⟩
        rw [hPtr] at hOwn
        exact hOwn hInd
      rw [home_of_not_holds (h.mounted.not_holds hData.2)]

theorem Fit.blocksOwned (h : Fit M c s) (hG : Geom sb) : BlocksOwned sb s.disk where
  once q q' hq hq' := by
    rw [h.ptr_disk hG hq, h.ptr_disk hG hq']
    exact h.own.inj q q' hq hq'
  marked b hb := by
    have hBit : bit sb s.disk b = bit sb (home s) b := by
      rw [bit, bit, home_of_not_holds (h.mounted.not_holds (Nat.lt_of_lt_of_le (bblock_lt hb.lt_size) hG.fits))]
    rw [hBit, h.own.bits b hb]
    constructor
    · rintro (⟨q, hq, hEq⟩ | hHeld)
      · exact ⟨q, hq, by rw [h.ptr_disk hG hq, hEq]⟩
      · exact absurd hHeld (Set.notMem_empty b)
    · rintro ⟨q, hq, hEq⟩
      exact Or.inl ⟨q, hq, by rw [← h.ptr_disk hG hq, hEq]⟩

/-- After any run of calls whose searches for free blocks end in the data area, every block has one
owner, the bitmap marks the blocks that have one, and no further such call frees a free block. -/
theorem blocks_owned (hG : Geom sb) (hRoot : rootino < sb.ninodes) (h : Settled M r l s)
    (hRuns : Relation.ReflTransGen (Called sb r) (s, l) (s', l')) : BlocksOwned sb s'.disk ∧
      ∀ op : TreeCall, op.Ok sb r l' s' → op.prog.along (AllocsInData sb) s' →
        op.prog.run s' ≠ .error (.panic .freeingFree) := by
  have h' : Settled M r l' s' := h.runs hG hRoot hRuns
  refine ⟨h'.fit.blocksOwned hG, fun op hOk hMay hRun => ?_⟩
  have hWp := h'.wp_treeCall (ownedFrees_relies M) hG (fun hEq => by cases hEq) hRoot hOk
  exact wp_error hWp hMay hRun rfl

/-- A file system image: block ownership holds, no pointer leaves the data area, and the files and
directories are well formed. -/
structure GoodImage (sb : Superblock) (d : Disk) : Prop where
  owned : BlocksOwned sb d
  data : ∀ q, ValidRef sb q → ptrOf d (dinodeOf d) q ≠ 0 → InData sb (ptrOf d (dinodeOf d) q)
  sane : ∀ k < sb.ninodes, (dinodeOf d k).type ≠ 0 → Sane sb d (dinodeOf d k)

def Alone (sb : Superblock) (t : Nat → Dinode) (k p : Nat) : Prop :=
  ∀ k' < sb.ninodes, ∀ p' < ndirect, (t k').type ≠ 0 → (t k).addrs p = (t k').addrs p' → k = k' ∧ p = p'

instance (sb : Superblock) (t : Nat → Dinode) (k p : Nat) : Decidable (Alone sb t k p) :=
  inferInstanceAs (Decidable (∀ k' < sb.ninodes, ∀ p' < ndirect, (t k').type ≠ 0 → (t k).addrs p = (t k').addrs p' → k = k' ∧ p = p'))

structure DirectImage (sb : Superblock) (d : Disk) (t : Nat → Dinode) : Prop where
  inode : ∀ k < sb.ninodes, dinodeOf d k = t k ∨ (dinodeOf d k).type = 0 ∧ (t k).type = 0
  short : ∀ k < sb.ninodes, (t k).addrs ndirect = 0 ∧ (t k).size ≤ ndirect * bsize
  once : ∀ k < sb.ninodes, ∀ p < ndirect, (t k).type ≠ 0 → (t k).addrs p ≠ 0 → Alone sb t k p
  data : ∀ k < sb.ninodes, ∀ p < ndirect, (t k).type ≠ 0 → (t k).addrs p ≠ 0 → InData sb ((t k).addrs p)
  bits : ∀ b < sb.size - sb.nlog, dataStart sb ≤ b →
    (bit sb d b = true ↔ ∃ k < sb.ninodes, ∃ p < ndirect, (t k).type ≠ 0 ∧ (t k).addrs p = b)
  full : ∀ k < sb.ninodes, (t k).type ≠ 0 → ∀ p < ndirect, p * bsize < (t k).size → (t k).addrs p ≠ 0
  align : ∀ k < sb.ninodes, (t k).type = tDir → direntSz ∣ (t k).size
  entry : ∀ k < sb.ninodes, (t k).type = tDir → ∀ i < (t k).size / direntSz, (dirent (fileOf d (t k)) i).inum < sb.ninodes

section DirectImage

variable {sb : Superblock} {d : Disk} {t : Nat → Dinode} {q : Nat × Nat} {k : Nat}

theorem DirectImage.type (h : DirectImage sb d t) (hk : k < sb.ninodes) (hType : (dinodeOf d k).type ≠ 0) : dinodeOf d k = t k :=
  (h.inode k hk).resolve_right fun hFree => hType hFree.1

theorem DirectImage.ptr (h : DirectImage sb d t) (hq : ValidRef sb q) (hNz : ptrOf d (dinodeOf d) q ≠ 0) :
    q.2 < ndirect ∧ (t q.1).type ≠ 0 ∧ ptrOf d (dinodeOf d) q = (t q.1).addrs q.2 := by
  by_cases hType : (dinodeOf d q.1).type = 0
  · exact absurd (if_pos hType) hNz
  have hInode := h.type hq.1 hType
  have hPtr : ptrOf d (dinodeOf d) q = Fs.ptr d (t q.1) q.2 := (if_neg hType).trans (by rw [hInode])
  have hShort := (h.short q.1 hq.1).1
  rw [hPtr] at hNz
  have hPos : q.2 ≤ ndirect := by
    by_contra hGt
    exact hNz (ptr_gt_zero (Nat.lt_of_not_le hGt) hShort)
  rw [hPtr, ptr_le hPos]
  rw [ptr_le hPos] at hNz
  refine ⟨lt_of_le_of_ne hPos fun hEq => hNz (by rw [hEq, hShort]), ?_, rfl⟩
  rwa [hInode] at hType

theorem DirectImage.good (h : DirectImage sb d t) (hStart : 0 < dataStart sb) : GoodImage sb d where
  owned := by
    refine ⟨fun q q' hq hq' hEq hNz => ?_, fun b hb => ?_⟩
    · obtain ⟨hPos, hType, hPtr⟩ := h.ptr hq hNz
      obtain ⟨hPos', hType', hPtr'⟩ := h.ptr hq' (hEq ▸ hNz)
      rw [hPtr] at hNz
      obtain ⟨hInum, hSame⟩ := h.once q.1 hq.1 q.2 hPos hType hNz q'.1 hq'.1 q'.2 hPos' hType' (by rw [← hPtr, hEq, hPtr'])
      exact Prod.ext hInum hSame
    · rw [h.bits b hb.2 hb.1]
      constructor
      · rintro ⟨k, hk, p, hp, hType, rfl⟩
        have hValid : ValidRef sb (k, p) := ⟨hk, Nat.lt_trans hp (by decide)⟩
        refine ⟨(k, p), hValid, ?_⟩
        rcases h.inode k hk with hEq | hFree
        · rw [ptrOf, hEq, if_neg hType, ptr_le hp.le]
        · exact absurd hFree.2 hType
      · rintro ⟨q, hq, rfl⟩
        obtain ⟨hPos, hType, hPtr⟩ := h.ptr hq (Nat.ne_of_gt (Nat.lt_of_lt_of_le hStart hb.1))
        exact ⟨q.1, hq.1, q.2, hPos, hType, hPtr.symm⟩
  data q hq hNz := by
    obtain ⟨hPos, hType, hPtr⟩ := h.ptr hq hNz
    rw [hPtr] at hNz ⊢
    exact h.data q.1 hq.1 q.2 hPos hType hNz
  sane k hk hType := by
    have hInode := h.type hk hType
    rw [hInode] at hType ⊢
    obtain ⟨hInd, hSize⟩ := h.short k hk
    refine ⟨⟨hSize.trans (by decide), fun bn hBn => ?_⟩, h.align k hk, fun hDir i name v hEntry => ?_⟩
    · have hLow : bn < ndirect := Nat.lt_of_mul_lt_mul_right (Nat.lt_of_lt_of_le hBn hSize)
      rw [posOf, if_pos hLow, ptr_le hLow.le]
      exact h.full k hk hType bn hLow hBn
    · rw [entries] at hEntry
      by_cases hIn : i < (fileOf d (t k)).size / direntSz ∧ (dirent (fileOf d (t k)) i).inum ≠ 0
      · rw [if_pos hIn] at hEntry
        obtain ⟨-, rfl⟩ := Prod.mk.inj (Option.some.inj hEntry)
        have hSame : (fileOf d (t k)).size = (t k).size := by rw [fileOf, if_neg hType]
        exact h.entry k hk hDir i (hSame ▸ hIn.1)
      · rw [if_neg hIn] at hEntry
        cases hEntry

end DirectImage

/-- A kernel that has mounted an image and has no inode in use yet. -/
structure Fresh (sb : Superblock) (s : Kern) : Prop where
  mounted : Mounted sb s
  idle : ∀ j, (s.inode j).ref = 0
  cwd : ∀ p, (s.proc p).cwd = none

def SameOutside (sb : Superblock) (d d' : Disk) : Prop := ∀ x < sb.size - sb.nlog, d' x = d x

theorem GoodImage.outside (h : GoodImage sb d) (hG : Geom sb) (hSame : SameOutside sb d d') : GoodImage sb d' := by
  have hInode : ∀ k < sb.ninodes, dinodeOf d' k = dinodeOf d k := fun k hk => by
    rw [dinodeOf, dinodeOf, hSame _ (hG.iblock_lt_log hk)]
  have hAgree : ∀ k < sb.ninodes, (dinodeOf d k).type ≠ 0 → Agree d d' (dinodeOf d k) := fun k hk hType p hp hNz => by
    have hPtr : ptrOf d (dinodeOf d) (k, p) = ptr d (dinodeOf d k) p := if_neg hType
    have hData := h.data (k, p) ⟨hk, hp⟩
    rw [hPtr] at hData
    exact hSame _ (hData hNz).2
  have hPtrs : ∀ q, ValidRef sb q → ptrOf d' (dinodeOf d') q = ptrOf d (dinodeOf d) q := fun q hq => by
    rw [ptrOf, ptrOf, hInode q.1 hq.1]
    by_cases hType : (dinodeOf d q.1).type = 0
    · rw [if_pos hType, if_pos hType]
    · rw [if_neg hType, if_neg hType, (hAgree q.1 hq.1 hType).ptr]
  refine ⟨⟨fun q q' hq hq' => ?_, fun b hb => ?_⟩, fun q hq => ?_, fun k hk hType => ?_⟩
  · rw [hPtrs q hq, hPtrs q' hq']
    exact h.owned.once q q' hq hq'
  · have hBit : bit sb d' b = bit sb d b := by
      rw [bit, bit, hSame _ (Nat.lt_of_lt_of_le (bblock_lt hb.lt_size) hG.fits)]
    rw [hBit, h.owned.marked b hb]
    exact exists_congr fun q => and_congr_right fun hq => by rw [hPtrs q hq]
  · rw [hPtrs q hq]
    exact h.data q hq
  · rw [hInode k hk] at hType ⊢
    exact (h.sane k hk hType).congr (hAgree k hk hType).fileOf fun p => (hAgree k hk hType).ptr

theorem Fit.good (h : Fit M c s) : GoodImage sb (home s) := by
  have hPtrs : ∀ q, ptrOf (home s) (dinodeOf (home s)) q = ptrOf (home s) (eff s) q := fun q => by
    rw [ptrOf, ptrOf, h.eff_eq]
  refine ⟨⟨fun q q' hq hq' => ?_, fun b hb => ?_⟩, fun q hq => ?_, fun k hk hType => ?_⟩
  · rw [hPtrs q, hPtrs q']
    exact h.own.inj q q' hq hq'
  · rw [h.own.bits b hb]
    constructor
    · rintro (⟨q, hq, hEq⟩ | hHeld)
      · exact ⟨q, hq, by rw [hPtrs q, hEq]⟩
      · exact absurd hHeld (Set.notMem_empty b)
    · rintro ⟨q, hq, hEq⟩
      exact Or.inl ⟨q, hq, by rw [← hPtrs q, hEq]⟩
  · rw [hPtrs q]
    exact h.own.data q hq
  · rw [← h.eff_eq] at hType ⊢
    exact h.sane k hk hType

theorem GoodImage.fit (h : GoodImage sb s.disk) (hG : Geom sb) (hMounted : Mounted sb s) (hLow : M.holds (home s))
    (hDead : ∀ j, ¬LiveSlot s j) (hCache : CacheInv sb s) (hRefs : ∀ j < ninode, (s.inode j).ref = c.count j)
    (hLt : ∀ j ∈ c, j < ninode) : Fit M c s := by
  have hHome : GoodImage sb (home s) := h.outside hG fun x hx => home_of_not_holds (hMounted.not_holds hx)
  have hInode : eff s = dinodeOf (home s) := funext fun k => eff_of_dead fun j hl => absurd hl (hDead j)
  have hOwn : Own sb (home s) (eff s) ∅ := by
    refine ⟨fun q q' hq hq' => ?_, fun q hq => ?_, fun b hb => ?_, fun b hb => absurd hb (Set.notMem_empty b)⟩
    · rw [hInode]
      exact hHome.owned.once q q' hq hq'
    · rw [hInode]
      exact hHome.data q hq
    · rw [hInode, hHome.owned.marked b hb]
      exact ⟨Or.inl, fun hOr => hOr.resolve_right (Set.notMem_empty b)⟩
  refine ⟨⟨⟨hMounted, hCache, hOwn⟩, hLow⟩, fun j hl => absurd hl (hDead j), fun j hl => absurd hl (hDead j),
    fun k hk hType => ?_, hRefs, hLt⟩
  rw [hInode] at hType ⊢
  exact hHome.sane k hk hType

theorem Fresh.settled (h : Fresh sb s) (hG : Geom sb) (hImage : GoodImage sb s.disk) (hLow : M.holds (home s)) :
    Settled M 0 0 s := by
  have hRef : ∀ j, ¬0 < (s.inode j).ref := fun j => by rw [h.idle j]; decide
  have hDead : ∀ j, ¬LiveSlot s j := fun j hl => hRef j hl.ref
  have hCache : CacheInv sb s := by
    refine ⟨fun i _ _ _ hPos => ?_, fun i _ hPos => ?_, fun i hl => absurd hl (hDead i)⟩
    · exact absurd hPos (hRef i)
    · exact absurd hPos (hRef i)
  refine ⟨hImage.fit hG h.mounted hLow hDead hCache (fun j _ => ?_) fun j hj => ?_, fun p j hj => ?_⟩
  · rw [h.idle j, Multiset.add_zero, Multiset.count_zero]
    rfl
  · exact absurd hj (Multiset.notMem_zero j)
  · rw [h.cwd p] at hj
    exact absurd hj.symm (Option.some_ne_none j)

end Owned

section Example

theorem blocks_owned_room : ∃ s', (TreeCall.writei 0 [1] 6144).prog.run (twelve 2) = .ok (none, s') ∧
    BlocksOwned (twelveSb 2) s'.disk := by
  obtain ⟨s', hRun, hCall⟩ := twelve_append
  exact ⟨s', hRun, (blocks_owned (twelve_geom (Or.inr rfl)) (by decide) (twelve_settled (Or.inr rfl)) (.single hCall)).1⟩

def holeDi : Dinode := ⟨tFile, 0, 0, 1, 1, fun _ => 0⟩

def holeImage : Disk
  | 1 => setWord (setWord (setWord (setWord zeroBlock 0 27) 4 12) 8 8) 12 10
  | 2 => encodeDinode zeroBlock 1 holeDi
  | 4 => fun j => if j = 0 then 0x1F else 0
  | _ => zeroBlock

def hole : Kern := lone (twelveSb 0) holeImage holeDi fun _ => ⟨.none, 0, false, false, 0, 0⟩

def writeHole : FsM (Option Nat) := do
  let _ ← TreeCall.beginTrans.prog
  let _ ← (TreeCall.ilock 0).prog
  let _ ← (TreeCall.writei 0 [1] 0).prog
  TreeCall.commitTrans.prog

def Unaddressed (d : Disk) : Prop := ∀ k < 8, (dinodeOf d k).type = 0 ∨ ∀ p < 13, (dinodeOf d k).addrs p = 0

instance (d : Disk) : Decidable (Unaddressed d) :=
  inferInstanceAs (Decidable (∀ k < 8, (dinodeOf d k).type = 0 ∨ ∀ p < 13, (dinodeOf d k).addrs p = 0))

theorem Unaddressed.ptrOf_eq {d : Disk} (h : Unaddressed d) {q : Nat × Nat} (hq : ValidRef (twelveSb 0) q) :
    ptrOf d (dinodeOf d) q = 0 := by
  rw [ptrOf]
  split
  · rfl
  · next hType =>
    have hAddrs := (h q.1 hq.1).resolve_left hType
    by_cases hp : q.2 ≤ ndirect
    · rw [ptr_le hp]
      exact hAddrs q.2 (Nat.lt_succ_of_le hp)
    · exact ptr_gt_zero (Nat.lt_of_not_le hp) (hAddrs ndirect (by decide))

set_option maxRecDepth 10000 in
/-- The block that the write gets is marked in the bitmap, but no inode on the disk names it. -/
theorem hole_leaks_block : BlocksOwned (twelveSb 0) hole.disk ∧ writeHole.along (AllocsInData (twelveSb 0)) hole ∧
    ∃ s', writeHole.run hole = .ok (none, s') ∧ ¬BlocksOwned (twelveSb 0) s'.disk := by
  have hRun : (writeHole.run hole).toOption.map (fun e => (e.1, bit (twelveSb 0) e.2.disk 5, decide (Unaddressed e.2.disk))) =
      some (none, true, true) := by
    decide +kernel
  obtain ⟨⟨ret, s'⟩, hRun, hEq⟩ := Option.map_eq_some_iff.mp hRun
  rw [toOption_eq_some] at hRun
  simp only [Prod.mk.injEq, decide_eq_true_eq] at hEq
  obtain ⟨rfl, hBit, hNone⟩ := hEq
  have hStart : Unaddressed holeImage := by decide +kernel
  have hClear : ∀ b < 17, 5 ≤ b → bit (twelveSb 0) holeImage b = false := by decide +kernel
  refine ⟨⟨fun q _ hq _ _ hNz => absurd (hStart.ptrOf_eq hq) hNz, fun b hb => ?_⟩, by decide +kernel, s', hRun, ?_⟩
  · have hLow : 5 ≤ b := hb.1
    have hHigh : b < 17 := hb.2
    rw [show hole.disk = holeImage by rfl, hClear b hHigh hLow]
    constructor
    · intro hFalse
      cases hFalse
    · rintro ⟨q, hq, hEq⟩
      rw [hStart.ptrOf_eq hq] at hEq
      omega
  · intro hOwned
    obtain ⟨q, hq, hEq⟩ := (hOwned.marked 5 ⟨by decide, by decide⟩).mp hBit
    rw [hNone.ptrOf_eq hq] at hEq
    omega

/-- Two committed writes: one that appends a byte, one over the first byte. -/
def appendAndRewrite : FsM (Option Nat) := do
  let _ ← (TreeCall.writei 0 [1] 6144).prog
  let _ ← TreeCall.commitTrans.prog
  let _ ← TreeCall.beginTrans.prog
  let _ ← (TreeCall.writei 0 [1] 0).prog
  TreeCall.commitTrans.prog

set_option maxRecDepth 10000 in
/-- When the data area is full the new indirect block is the header of the log. The second commit
writes the number of the first data block there, and truncating the file frees this block twice. And
a write into a hole gets a block of the data area that no inode on the disk names. -/
theorem append_shares_block : (Settled (LowBits.any (twelveSb 0)) {0} 0 (twelve 0) ∧ Mine {0} (twelve 0) 0 ∧
    (∃ s', appendAndRewrite.run (twelve 0) = .ok (none, s') ∧ ptr s'.disk (dinodeOf s'.disk 1) 0 = 5 ∧
      ptr s'.disk (dinodeOf s'.disk 1) 14 = 5 ∧ ¬BlocksOwned (twelveSb 0) s'.disk) ∧
    (do let _ ← appendAndRewrite; let _ ← TreeCall.beginTrans.prog; (TreeCall.itrunc 0).prog : FsM (Option Nat)).run (twelve 0) =
      .error (.panic .freeingFree)) ∧
    BlocksOwned (twelveSb 0) hole.disk ∧ writeHole.along (AllocsInData (twelveSb 0)) hole ∧
      ∃ s', writeHole.run hole = .ok (none, s') ∧ ¬BlocksOwned (twelveSb 0) s'.disk := by
  have hRun : (appendAndRewrite.run (twelve 0)).toOption.map (fun e => (e.1, (dinodeOf e.2.disk 1).type,
      ptr e.2.disk (dinodeOf e.2.disk 1) 0, ptr e.2.disk (dinodeOf e.2.disk 1) 14)) = some (none, tFile, 5, 5) := by
    decide +kernel
  obtain ⟨⟨ret, s'⟩, hRun, hEq⟩ := Option.map_eq_some_iff.mp hRun
  rw [toOption_eq_some] at hRun
  simp only [Prod.mk.injEq] at hEq
  obtain ⟨rfl, hType, hFirst, hAgain⟩ := hEq
  have hPtr : ∀ p, ptrOf s'.disk (dinodeOf s'.disk) (1, p) = ptr s'.disk (dinodeOf s'.disk 1) p := fun p =>
    if_neg (show (dinodeOf s'.disk 1).type ≠ 0 by rw [hType]; decide)
  refine ⟨⟨twelve_settled (Or.inl rfl), twelve_mine 0, ⟨s', hRun, hFirst, hAgain, fun hOwned => ?_⟩, ?_⟩, hole_leaks_block⟩
  · have hSame := hOwned.once (1, 0) (1, 14) ⟨by decide, by decide⟩ ⟨by decide, by decide⟩
    rw [hPtr, hPtr, hFirst, hAgain] at hSame
    exact absurd (hSame rfl (by decide)) (by decide)
  · exact errorOf_eq_some.mp (by decide +kernel)

end Example

end Xv6Rpi.Fs
