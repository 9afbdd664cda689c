import Xv6Rpi.Fs.Table

/-! # Finding and allocating the blocks of a file

`bmap` only ever adds pointers to an inode, to blocks that were free and are now clear.
So no file changes: a block that was missing reads as zeros before and after.
-/

namespace Xv6Rpi.Fs

open Prog

/-- What a function that works on the inode in cache entry `ip` leaves alone. -/
structure Touches (sb : Superblock) (ip : Nat) (s s' : Kern) : Prop where
  file : s'.file = s.file
  proc : s'.proc = s.proc
  devsw : s'.devsw = s.devsw
  busy : s'.log.busy = s.log.busy
  others : ∀ j, j ≠ ip → s'.inode j = s.inode j
  slot : s'.inode ip = { s.inode ip with di := (s'.inode ip).di }
  disk : ∀ inum < sb.ninodes, dinodeOf (home s') inum = dinodeOf (home s) inum

section Touches

variable {sb : Superblock} {s s₁ s' : Kern} {ip inum : Nat}

theorem Touches.refl (sb : Superblock) (ip : Nat) (s : Kern) : Touches sb ip s s :=
  ⟨rfl, rfl, rfl, rfl, fun _ _ => rfl, rfl, fun _ _ => rfl⟩

theorem Touches.trans (h : Touches sb ip s s₁) (h' : Touches sb ip s₁ s') : Touches sb ip s s' where
  file := h'.file.trans h.file
  proc := h'.proc.trans h.proc
  devsw := h'.devsw.trans h.devsw
  busy := h'.busy.trans h.busy
  others j hj := (h'.others j hj).trans (h.others j hj)
  slot := by
    rw [h'.slot, h.slot]
  disk inum hi := (h'.disk inum hi).trans (h.disk inum hi)

theorem Touches.of_stores {d : Disk} (h : Stores s s' d)
    (hDisk : ∀ inum < sb.ninodes, dinodeOf d inum = dinodeOf (home s) inum) : Touches sb ip s s' where
  file := h.file
  proc := h.proc
  devsw := h.devsw
  busy := h.busy
  others j _ := by rw [h.inode]
  slot := by rw [h.inode]
  disk := by
    rw [h.home]
    exact hDisk

theorem Touches.setDi (di : Dinode) : Touches sb ip s (setDi s ip di) where
  file := rfl
  proc := rfl
  devsw := rfl
  busy := rfl
  others j hj := setDi_of_ne hj di
  slot := by rw [setDi_self]
  disk _ _ := by rw [home_setDi]

theorem Touches.inode_eq (h : Touches sb ip s s') :
    s'.inode = (Fs.setDi s ip (s'.inode ip).di).inode := by
  funext j
  by_cases hj : j = ip
  · rw [hj, setDi_self]
    exact h.slot
  · rw [setDi_of_ne hj]
    exact h.others j hj

theorem Touches.live (h : Touches sb ip s s') {j : Nat} (hl : LiveSlot s j) : LiveSlot s' j :=
  LiveSlot.congr h.inode_eq (liveSlot_setDi.mpr hl)

theorem Touches.inum_eq (h : Touches sb ip s s') : (s'.inode ip).inum = (s.inode ip).inum := by
  rw [h.slot]

theorem Touches.eff (h : Touches sb ip s s') (hC : CacheInv sb s) (hl : LiveSlot s ip)
    (hi : inum < sb.ninodes) :
    eff s' inum = if inum = (s.inode ip).inum then (s'.inode ip).di else eff s inum := by
  rw [eff_congr (s := Fs.setDi s ip (s'.inode ip).di) h.inode_eq (by rw [h.disk inum hi, home_setDi]),
    hC.eff_setDi hl]

theorem Touches.cache (h : Touches sb ip s s') (hC : CacheInv sb s) (hOk : (s'.inode ip).di.Ok) :
    CacheInv sb s' := (hC.setDi hOk).congr h.inode_eq

end Touches

section Ptr

variable {sb : Superblock} {d d' : Disk} {D D' : Nat → Dinode} {H : Set Nat} {di di' : Dinode} {b inum : Nat}

theorem ptrOf_of_type {r : Nat × Nat} (h : (D r.1).type ≠ 0) : ptrOf d D r = ptr d (D r.1) r.2 := if_neg h

theorem ptr_gt {pos : Nat} (h : ndirect < pos) (hInd : di.addrs ndirect ≠ 0) :
    ptr d di pos = getWord (d (di.addrs ndirect)) (4 * (pos - (ndirect + 1))) := by
  rw [ptr, if_neg (Nat.not_le.mpr h), if_neg hInd]

theorem ptr_gt_zero {pos : Nat} (h : ndirect < pos) (hInd : di.addrs ndirect = 0) : ptr d di pos = 0 := by
  rw [ptr, if_neg (Nat.not_le.mpr h), if_pos hInd]

theorem Own.ptr_bit (h : Own sb d D H) {r : Nat × Nat} (hr : ValidRef sb r) (hNz : ptrOf d D r ≠ 0) :
    bit sb d (ptrOf d D r) = true :=
  (h.bits _ (h.data r hr hNz)).mpr (Or.inl ⟨r, hr, rfl⟩)

theorem Own.agree (h : Own sb d D H) (hi : inum < sb.ninodes) (hType : (D inum).type ≠ 0)
    (hd : ∀ x, InData sb x → bit sb d x = true → (∃ pos < npos, ptr d (D inum) pos = x) → d' x = d x) :
    Agree d d' (D inum) := by
  intro pos hPos hNz
  have hEq : ptrOf d D (inum, pos) = ptr d (D inum) pos := ptrOf_of_type hType
  have hNz' : ptrOf d D (inum, pos) ≠ 0 := by rwa [hEq]
  have hRef : ValidRef sb (inum, pos) := ⟨hi, hPos⟩
  rw [← hEq]
  exact hd _ (h.data _ hRef hNz') (h.ptr_bit hRef hNz') ⟨pos, hPos, hEq.symm⟩

theorem Own.ptrOf_agree (h : ∀ inum < sb.ninodes, (D inum).type ≠ 0 → Agree d d' (D inum)) {r : Nat × Nat}
    (hr : ValidRef sb r) : ptrOf d' D r = ptrOf d D r := by
  rw [ptrOf, ptrOf]
  by_cases hType : (D r.1).type = 0
  · rw [if_pos hType, if_pos hType]
  · rw [if_neg hType, if_neg hType, (h r.1 hr.1 hType).ptr]

/-- Taking a free block and clearing it touches no block that an inode names. -/
theorem Own.alloc_agree (h : Own sb d D H) (hb : InData sb b) (hFree : bit sb d b = false)
    (hi : inum < sb.ninodes) (hType : (D inum).type ≠ 0) :
    Agree d (Function.update (markUsed sb d b) b zeroBlock) (D inum) := by
  apply h.agree hi hType
  intro x hx hBit _
  have hne : x ≠ b := by
    rintro rfl
    rw [hFree] at hBit
    cases hBit
  have hne' : x ≠ bblock b sb.ninodes := by
    have h1 := bblock_lt hb.lt_size
    have h2 := hx.1
    omega
  rw [Function.update_of_ne hne, markUsed, Function.update_of_ne hne']

theorem fileOf_mapped (hFields : di' = { di with addrs := di'.addrs })
    (hKeep : ∀ bn < maxfile, ptr d di (posOf bn) ≠ 0 → ptr d' di' (posOf bn) = ptr d di (posOf bn) ∧
      d' (ptr d di (posOf bn)) = d (ptr d di (posOf bn)))
    (hNew : ∀ bn < maxfile, ptr d di (posOf bn) = 0 → ptr d' di' (posOf bn) ≠ 0 →
      d' (ptr d' di' (posOf bn)) = zeroBlock) :
    fileOf d' di' = fileOf d di := by
  have hByte : ∀ off < maxfile * bsize, byteAt d' di' off = byteAt d di off := by
    intro off hOff
    have hBn : off / bsize < maxfile := Nat.div_lt_of_lt_mul (by rwa [Nat.mul_comm])
    rw [byteAt, byteAt]
    by_cases hOld : ptr d di (posOf (off / bsize)) = 0
    · rw [if_pos hOld]
      by_cases hz : ptr d' di' (posOf (off / bsize)) = 0
      · rw [if_pos hz]
      · rw [if_neg hz, hNew _ hBn hOld hz]
        rfl
    · obtain ⟨hPtr, hBlk⟩ := hKeep _ hBn hOld
      rw [hPtr, if_neg hOld, if_neg hOld, hBlk]
  rw [fileOf, fileOf, hFields]
  dsimp only
  congr 2
  funext off
  by_cases hOff : off < maxfile * bsize
  · rw [if_pos hOff, if_pos hOff, ← hByte off hOff, ← hFields]
  · rw [if_neg hOff, if_neg hOff]

end Ptr

section Alloc

variable {sb : Superblock} {M : LowBits sb} {s s' : Kern} {H : Set Nat} {b : Nat}

def allocated (sb : Superblock) (d : Disk) (b : Nat) : Disk := Function.update (markUsed sb d b) b zeroBlock

theorem dinodeOf_allocated (sb : Superblock) (d : Disk) (hb : InData sb b) {inum : Nat}
    (hi : inum < sb.ninodes) : dinodeOf (allocated sb d b) inum = dinodeOf d inum := by
  rw [allocated, dinodeOf_update hi hb.ge, markUsed, dinodeOf_update hi (bblock_ge b sb)]

theorem Steady.alloc (h : Steady M s H) (ip : Nat) (hb : InData sb b) (hFree : bit sb (home s) b = false)
    (hs : Stores s s' (allocated sb (home s) b)) :
    Steady M s' (insert b H) ∧ Touches sb ip s s' ∧ (∀ inum < sb.ninodes, eff s' inum = eff s inum) := by
  have hDisk : ∀ inum < sb.ninodes, dinodeOf (allocated sb (home s) b) inum = dinodeOf (home s) inum :=
    fun inum hi => dinodeOf_allocated sb (home s) hb hi
  have hEff : ∀ inum < sb.ninodes, eff s' inum = eff s inum := fun inum hi =>
    eff_congr hs.inode (by rw [hs.home, hDisk inum hi])
  have hSuper : decodeSb (allocated sb (home s) b 1) = sb := by
    have h1 := bblock_ge b sb
    have h2 := hb.ge
    rw [ipb_eq] at h1 h2
    rw [allocated, Function.update_of_ne (by omega), markUsed, Function.update_of_ne (by omega),
      h.mounted.super]
  have hPtr : ∀ r, ValidRef sb r → ptrOf (home s') (eff s') r = ptrOf (home s) (eff s) r := by
    intro r hr
    rw [hs.home, ptrOf, hEff r.1 hr.1, ← ptrOf]
    exact Own.ptrOf_agree (fun inum hi hType => h.own.alloc_agree hb hFree hi hType) hr
  have hBit : ∀ b' < sb.size, bit sb (home s') b' = (bit sb (home s) b' || decide (b' = b)) := by
    intro b' hb'
    rw [hs.home, allocated, bit_update hb' (Or.inr hb.1), bit_markUsed]
  have hLow : ∀ b' < dataStart sb, bit sb (home s') b' = bit sb (home s) b' := by
    intro b' hb'
    have hLt := hb'.trans_le hb.1
    rw [hBit b' (hLt.trans hb.lt_size), decide_eq_false hLt.ne, Bool.or_false]
  refine ⟨⟨⟨h.mounted.stores hs hSuper, h.cache.congr hs.inode, ?_⟩, M.stable _ _ hLow h.low⟩, .of_stores hs hDisk, hEff⟩
  have hTake : Own sb (home s') (eff s) (insert b H) := by
    refine h.own.take hb hFree (fun r hr => ?_) hBit
    rw [← hPtr r hr, ptrOf, ptrOf, hEff r.1 hr.1]
  refine hTake.congr (fun r hr => ?_) fun _ _ => rfl
  rw [ptrOf, hEff r.1 hr.1, ← ptrOf]

end Alloc

/-- Pointer `pos` of the inode in `ip` is set to `addr`, and no file has changed. -/
structure Mapped {sb : Superblock} (M : LowBits sb) (H : Set Nat) (ip pos addr : Nat) (s s' : Kern) : Prop where
  touches : Touches sb ip s s'
  sound : Steady M s' H
  eq : ptr (home s') (s'.inode ip).di pos = addr
  nz : addr ≠ 0
  fields : (s'.inode ip).di = { (s.inode ip).di with addrs := (s'.inode ip).di.addrs }
  keep : ∀ p < npos, ptr (home s) (s.inode ip).di p ≠ 0 →
    ptr (home s') (s'.inode ip).di p = ptr (home s) (s.inode ip).di p
  same : ptr (home s) (s.inode ip).di pos ≠ 0 → home s' = home s ∧ s'.inode = s.inode
  rest : ∀ inum < sb.ninodes, inum ≠ (s.inode ip).inum → ∀ p,
    ptrOf (home s') (eff s') (inum, p) = ptrOf (home s) (eff s) (inum, p)
  files : ∀ inum < sb.ninodes, files s' inum = files s inum

section Mapped

variable {sb : Superblock} {M : LowBits sb} {H : Set Nat} {s s₁ s₂ : Kern} {ip pos b : Nat}

theorem indirect_lt : ndirect < npos := by decide

theorem posOf_ne_indirect (bn : Nat) : posOf bn ≠ ndirect := by
  simp only [posOf]
  split <;> omega

theorem Own.ptr_ne_indirect {d : Disk} {D : Nat → Dinode} {H : Set Nat} {inum bn : Nat}
    (h : Own sb d D H) (hi : inum < sb.ninodes) (hType : (D inum).type ≠ 0) (hBn : bn < maxfile)
    (hNz : ptr d (D inum) (posOf bn) ≠ 0) : ptr d (D inum) (posOf bn) ≠ (D inum).addrs ndirect := by
  intro hEq
  have h1 : ptrOf d D (inum, posOf bn) = ptr d (D inum) (posOf bn) := ptrOf_of_type hType
  have h2 : ptrOf d D (inum, ndirect) = (D inum).addrs ndirect := (ptrOf_of_type hType).trans (ptr_le le_rfl)
  have := h.inj (inum, posOf bn) (inum, ndirect) ⟨hi, posOf_lt hBn⟩ ⟨hi, indirect_lt⟩ (by rw [h1, h2, hEq])
    (by rwa [h1])
  exact posOf_ne_indirect bn (Prod.mk.inj this).2

/-- A new block becomes the target of a pointer that was empty. -/
theorem Mapped.of_assign (h : Steady M s H) (hl : LiveSlot s ip) (hType : (s.inode ip).di.type ≠ 0)
    (hb : InData sb b) (hFree : bit sb (home s) b = false) (h₁ : Stores s s₁ (allocated sb (home s) b))
    (hT : Touches sb ip s₁ s₂) (hM : Mounted sb s₂) (hOk : (s₂.inode ip).di.Ok)
    (hFields : (s₂.inode ip).di = { (s.inode ip).di with addrs := (s₂.inode ip).di.addrs })
    (hPos : pos < npos) (hOld : ptr (home s) (s.inode ip).di pos = 0)
    (hNew : ptr (home s₂) (s₂.inode ip).di pos = b)
    (hRest : ∀ p < npos, p ≠ pos → ptr (home s₂) (s₂.inode ip).di p = ptr (home s₁) (s.inode ip).di p)
    (hBits : ∀ b' < sb.size, bit sb (home s₂) b' = bit sb (home s₁) b')
    (hBlocks : ∀ x, InData sb x → x ≠ (s.inode ip).di.addrs ndirect → home s₂ x = home s₁ x) :
    Mapped M H ip pos b s s₂ := by
  obtain ⟨hS₁, hT₁, hEff₁⟩ := h.alloc ip hb hFree h₁
  have hl₁ : LiveSlot s₁ ip := hT₁.live hl
  have hi : (s.inode ip).inum < sb.ninodes := h.cache.inum ip hl.lt hl.ref
  have hInode : s₁.inode = s.inode := h₁.inode
  have hDi : eff s (s.inode ip).inum = (s.inode ip).di := h.cache.eff_live hl
  have hAgree : Agree (home s) (home s₁) (s.inode ip).di := by
    rw [h₁.home, ← hDi]
    exact h.own.alloc_agree hb hFree hi (by rwa [hDi])
  have hEff₂ : ∀ inum < sb.ninodes, eff s₂ inum =
      if inum = (s.inode ip).inum then (s₂.inode ip).di else eff s inum := by
    intro inum hi'
    rw [hT.eff hS₁.cache hl₁ hi', hInode, hEff₁ inum hi']
  have hOther : ∀ inum < sb.ninodes, inum ≠ (s.inode ip).inum → (eff s inum).type ≠ 0 →
      Agree (home s₁) (home s₂) (eff s inum) := by
    intro inum hi' hne hType'
    rw [← hEff₁ inum hi'] at hType' ⊢
    apply hS₁.own.agree hi' hType'
    rintro x hx _ ⟨p, hp, hEq⟩
    refine hBlocks x hx ?_
    rintro rfl
    have h1 : ptrOf (home s₁) (eff s₁) (inum, p) = ptr (home s₁) (eff s₁ inum) p := ptrOf_of_type hType'
    have h2 : ptrOf (home s₁) (eff s₁) ((s.inode ip).inum, ndirect) = (s.inode ip).di.addrs ndirect := by
      rw [ptrOf_of_type (by rwa [hEff₁ _ hi, hDi]), ptr_le le_rfl, hEff₁ _ hi, hDi]
    have := hS₁.own.inj (inum, p) ((s.inode ip).inum, ndirect) ⟨hi', hp⟩ ⟨hi, indirect_lt⟩
      (by rw [h1, h2, hEq]) (by rw [h1, hEq]; exact hx.pos)
    exact hne (Prod.mk.inj this).1
  have hType₂ : (s₂.inode ip).di.type ≠ 0 := by rwa [hFields]
  have hHeld : b ∉ H := fun hIn => by
    have := (h.own.bits b hb).mpr (Or.inr hIn)
    rw [hFree] at this
    cases this
  have hLow : ∀ b' < dataStart sb, bit sb (home s₂) b' = bit sb (home s₁) b' := fun b' hb' =>
    hBits b' ((hb'.trans_le hb.1).trans hb.lt_size)
  have hSound : Steady M s₂ H := by
    refine ⟨⟨hM, hT.cache hS₁.cache hOk, ?_⟩, M.stable _ _ hLow hS₁.low⟩
    have hRef : ValidRef sb ((s.inode ip).inum, pos) := ⟨hi, hPos⟩
    refine hS₁.own.assign hHeld hRef ?_ ?_ ?_ hBits
    · rw [ptrOf_of_type (by rwa [hEff₁ _ hi, hDi]), hEff₁ _ hi, hDi, hAgree.ptr, hOld]
    · rw [ptrOf_of_type (by rwa [hEff₂ _ hi, if_pos rfl]), hEff₂ _ hi, if_pos rfl, hNew]
    · intro r hr hne
      by_cases hIn : r.1 = (s.inode ip).inum
      · have hPne : r.2 ≠ pos := fun hEq => hne (Prod.ext hIn hEq)
        rw [ptrOf_of_type (by rwa [hIn, hEff₂ _ hi, if_pos rfl]),
          ptrOf_of_type (by rwa [hIn, hEff₁ _ hi, hDi]), hIn, hEff₂ _ hi, if_pos rfl, hEff₁ _ hi, hDi,
          hRest r.2 hr.2 hPne]
      · rw [ptrOf, ptrOf, hEff₂ _ hr.1, if_neg hIn, hEff₁ _ hr.1]
        by_cases hz : (eff s r.1).type = 0
        · rw [if_pos hz, if_pos hz]
        · rw [if_neg hz, if_neg hz, (hOther r.1 hr.1 hIn hz).ptr]
  have hOthers : ∀ inum < sb.ninodes, inum ≠ (s.inode ip).inum → ∀ p,
      ptrOf (home s₂) (eff s₂) (inum, p) = ptrOf (home s) (eff s) (inum, p) := by
    intro inum hi' hne p
    simp only [ptrOf]
    rw [hEff₂ inum hi', if_neg hne]
    by_cases hz : (eff s inum).type = 0
    · rw [if_pos hz, if_pos hz]
    · rw [if_neg hz, if_neg hz, (hOther inum hi' hne hz).ptr, h₁.home, allocated,
        (h.own.alloc_agree hb hFree hi' hz).ptr]
  refine ⟨hT₁.trans hT, hSound, hNew, hb.pos, hFields, ?_, fun hNz => absurd hOld hNz, hOthers, ?_⟩
  · intro p hp hNz
    have hne : p ≠ pos := by
      rintro rfl
      exact hNz hOld
    rw [hRest p hp hne, hAgree.ptr]
  · intro inum hi'
    rw [Fs.files, Fs.files, hEff₂ inum hi']
    by_cases hIn : inum = (s.inode ip).inum
    · rw [if_pos hIn, hIn, hDi]
      apply fileOf_mapped hFields
      · intro bn hBn hNz
        have hne : posOf bn ≠ pos := by
          intro hEq
          rw [hEq] at hNz
          exact hNz hOld
        have hRef : ptrOf (home s) (eff s) ((s.inode ip).inum, posOf bn) =
            ptr (home s) (s.inode ip).di (posOf bn) := by
          rw [ptrOf_of_type (by rwa [hDi]), hDi]
        have hData : InData sb (ptr (home s) (s.inode ip).di (posOf bn)) := by
          rw [← hRef]
          exact h.own.data _ ⟨hi, posOf_lt hBn⟩ (by rwa [hRef])
        have hInd := h.own.ptr_ne_indirect hi (by rwa [hDi]) hBn (by rwa [hDi])
        rw [hDi] at hInd
        refine ⟨by rw [hRest _ (posOf_lt hBn) hne, hAgree.ptr], ?_⟩
        rw [hBlocks _ hData hInd, hAgree _ (posOf_lt hBn) hNz]
      · intro bn hBn hz hNz
        have hEq : posOf bn = pos := by
          by_contra hne
          rw [hRest _ (posOf_lt hBn) hne, hAgree.ptr] at hNz
          exact hNz hz
        rw [hEq, hNew, hBlocks b hb ?_, h₁.home, allocated, Function.update_self]
        intro hEq'
        -- the new block was free, so it is not the indirect block
        have h2 : ptrOf (home s) (eff s) ((s.inode ip).inum, ndirect) = b := by
          rw [ptrOf_of_type (by rwa [hDi]), ptr_le le_rfl, hDi, hEq']
        have := h.own.ptr_bit (r := ((s.inode ip).inum, ndirect)) ⟨hi, indirect_lt⟩ (by rw [h2]; exact hb.pos)
        rw [h2, hFree] at this
        cases this
    · rw [if_neg hIn]
      by_cases hz : (eff s inum).type = 0
      · rw [fileOf, fileOf, if_pos hz, if_pos hz]
      · rw [(hOther inum hi' hIn hz).fileOf, h₁.home]
        exact (h.own.alloc_agree hb hFree hi' hz).fileOf

theorem Mapped.of_set (h : Steady M s H) (hs : Stores s s₁ (home s)) (hNz : ptr (home s) (s.inode ip).di pos ≠ 0) :
    Mapped M H ip pos (ptr (home s) (s.inode ip).di pos) s s₁ := by
  have hEff : ∀ inum, eff s₁ inum = eff s inum := fun inum => eff_congr hs.inode (by rw [hs.home])
  have hLow : M.holds (home s₁) := by
    rw [hs.home]
    exact h.low
  refine ⟨.of_stores hs fun _ _ => rfl, ⟨⟨h.mounted.stores_self hs, h.cache.congr hs.inode, ?_⟩, hLow⟩, ?_, hNz, ?_, ?_,
    fun _ => ⟨hs.home, hs.inode⟩, fun inum _ _ p => ?_, ?_⟩
  · rw [hs.home]
    exact h.own.congr (fun r _ => by rw [ptrOf, ptrOf, hEff]) fun _ _ => rfl
  · rw [hs.home, hs.inode]
  · rw [hs.inode]
  · intro p _ _
    rw [hs.home, hs.inode]
  · rw [ptrOf, ptrOf, hEff, hs.home]
  · intro inum _
    rw [Fs.files, Fs.files, hs.home, hEff]

end Mapped

section Bmap

variable {R : Rely Kern Stop Label} {sb : Superblock} {M : LowBits sb} {H : Set Nat} {s : Kern} {ip k bn ind : Nat}

theorem Dinode.Ok.setAddr {di : Dinode} (h : di.Ok) {k b : Nat} (hk : k ≤ ndirect) (hb : b < 2 ^ 32) :
    ({ di with addrs := Function.update di.addrs k b } : Dinode).Ok where
  type := h.type
  major := h.major
  minor := h.minor
  nlink := h.nlink
  size := h.size
  addrs i := by
    dsimp only
    by_cases hi : i = k
    · rw [hi, Function.update_self]
      exact hb
    · rw [Function.update_of_ne hi]
      exact h.addrs i
  rest i hi := by
    dsimp only
    rw [Function.update_of_ne (by omega)]
    exact h.rest i hi

/-- Other pointers are not affected by a new address, even if that is the address of a
clear indirect block. -/
theorem ptr_setAddr {d : Disk} {di : Dinode} {b p : Nat} (hk : k ≤ ndirect) (hOld : di.addrs k = 0)
    (hNz : b ≠ 0) (hb : d b = zeroBlock) (hp : p ≠ k) :
    ptr d { di with addrs := Function.update di.addrs k b } p = ptr d di p := by
  by_cases hLe : p ≤ ndirect
  · rw [ptr_le hLe, ptr_le hLe]
    exact Function.update_of_ne hp ..
  · have hGt : ndirect < p := Nat.lt_of_not_le hLe
    by_cases hInd : k = ndirect
    · subst hInd
      rw [ptr_gt_zero hGt hOld, ptr_gt hGt]
      · simp only [Function.update_self, hb]
        rfl
      · simp only [Function.update_self]
        exact hNz
    · have hSame : Function.update di.addrs k b ndirect = di.addrs ndirect :=
        Function.update_of_ne (Ne.symm hInd) ..
      simp only [ptr, hSame, if_neg hLe]

theorem wp_bmapAddr (hR : Relies M R) (hG : Geom sb) (h : Steady M s H) (hl : LiveSlot s ip)
    (hType : (s.inode ip).di.type ≠ 0) (hk : k ≤ ndirect) {Q : Nat → Kern → Prop}
    (hQ : ∀ addr s', Mapped M H ip k addr s s' → Q addr s') : wp R (bmapAddr ip k) Q s := by
  have hPos : k < npos := Nat.lt_of_le_of_lt hk indirect_lt
  rw [bmapAddr, wp_bind, wp_single]
  refine fun _ => ⟨hR.stop.must _ _ ⟨Label.noConfusion, Label.noConfusion⟩, ?_⟩
  dsimp only
  by_cases hz : (s.inode ip).di.addrs k = 0
  · rw [if_pos hz, wp_bind]
    apply wp_balloc hR hG h.mounted h.low
    intro b s₁ hb hFree h₁
    rw [wp_bind]
    apply wp_modifyK hR.stop
    rw [wp_pure]
    obtain ⟨hS₁, hT₁, hEff₁⟩ := h.alloc ip hb hFree h₁
    have hZero : home s₁ b = zeroBlock := by rw [h₁.home, Function.update_self]
    have hSize : b < 2 ^ 32 := hb.lt_size.trans hG.size
    have hDi : (s₁.inode ip).di = (s.inode ip).di := by rw [h₁.inode]
    apply hQ
    change Mapped M H ip k b s (setDi s₁ ip { (s₁.inode ip).di with
      addrs := Function.update (s₁.inode ip).di.addrs k b })
    rw [hDi]
    refine .of_assign h hl hType hb hFree h₁ (.setDi _) ⟨hS₁.mounted.start, hS₁.mounted.size,
      hS₁.mounted.super, hS₁.mounted.log⟩ ?_ ?_ hPos ((ptr_le hk).trans hz) ?_ ?_ (fun _ _ => rfl)
      (fun _ _ _ => rfl)
    · rw [setDi_self]
      exact (h.cache.ok ip hl).setAddr hk hSize
    · rw [setDi_self]
    · rw [setDi_self, ptr_le hk]
      exact Function.update_self ..
    · intro p _ hne
      rw [setDi_self, home_setDi]
      exact ptr_setAddr hk hz hb.pos hZero hne
  · rw [if_neg hz, wp_pure]
    have hPtr : ptr (home s) (s.inode ip).di k = (s.inode ip).di.addrs k := ptr_le hk
    rw [← hPtr] at hz ⊢
    exact hQ _ s (.of_set h (stores_held h.mounted.log s.held) hz)

theorem wp_bmapIndirect (hR : Relies M R) (hG : Geom sb) (h : Steady M s H) (hl : LiveSlot s ip)
    (hType : (s.inode ip).di.type ≠ 0) (hInd : (s.inode ip).di.addrs ndirect = ind) (hNz : ind ≠ 0)
    (hBn : bn < nindirect) {Q : Nat → Kern → Prop}
    (hQ : ∀ addr s', Mapped M H ip (ndirect + 1 + bn) addr s s' → Q addr s') :
    wp R (bmapIndirect ind bn) Q s := by
  have hi : (s.inode ip).inum < sb.ninodes := h.cache.inum ip hl.lt hl.ref
  have hDi : eff s (s.inode ip).inum = (s.inode ip).di := h.cache.eff_live hl
  have hRef : ptrOf (home s) (eff s) ((s.inode ip).inum, ndirect) = ind := by
    rw [ptrOf_of_type (by rwa [hDi]), ptr_le le_rfl, hDi, hInd]
  have hIndData : InData sb ind := by
    have := h.own.data ((s.inode ip).inum, ndirect) ⟨hi, indirect_lt⟩ (by rwa [hRef])
    rwa [hRef] at this
  have hIndBit : bit sb (home s) ind = true := by
    have := h.own.ptr_bit (r := ((s.inode ip).inum, ndirect)) ⟨hi, indirect_lt⟩ (by rwa [hRef])
    rwa [hRef] at this
  have hGt : ndirect < ndirect + 1 + bn := by omega
  have hPos : ndirect + 1 + bn < npos := by
    rw [npos]
    omega
  have hWord : ptr (home s) (s.inode ip).di (ndirect + 1 + bn) = getWord (home s ind) (4 * bn) := by
    rw [ptr_gt hGt (by rwa [hInd]), hInd, Nat.add_sub_cancel_left]
  rw [bmapIndirect, wp_bind]
  apply wp_breadAs hR.stop h.mounted.log (h.mounted.not_holds hIndData.2) fun _ => hR.stop.must _ _ ⟨Label.noConfusion, Label.noConfusion⟩
  intro s₁ _ h₁
  by_cases hz : getWord (home s ind) (4 * bn) = 0
  · rw [if_pos hz, wp_bind]
    apply wp_balloc hR hG (h.mounted.stores_self h₁) (by rw [h₁.home]; exact h.low)
    intro b s₂ hb hFree h₂
    rw [h₁.home] at hFree h₂
    have h₂' := h₁.trans h₂
    obtain ⟨hS₂, hT₂, hEff₂⟩ := h.alloc ip hb hFree h₂'
    have hNe : ind ≠ b := by
      rintro rfl
      rw [hFree] at hIndBit
      cases hIndBit
    have hIndBlk : home s₂ ind = home s ind := by
      have hne : ind ≠ bblock b sb.ninodes := by
        have h1 := bblock_lt hb.lt_size
        have h2 := hIndData.1
        omega
      rw [h₂'.home, Function.update_of_ne hNe, markUsed, Function.update_of_ne hne]
    rw [wp_bind]
    apply wp_logWriteBuf hR.stop hS₂.mounted.log (hS₂.mounted.not_holds hIndData.2)
    intro s₃ h₃
    rw [wp_bind]
    apply wp_brelse hR.stop h₃.log
    intro s₄ h₄
    rw [wp_pure]
    have h₄' := h₃.trans h₄
    rw [h₃.home, ← hIndBlk] at h₄'
    have hGe := hIndData.ge
    rw [ipb_eq] at hGe
    have hDi₄ : (s₄.inode ip).di = (s.inode ip).di := by rw [h₄'.inode, h₂'.inode]
    have hSize : b < 2 ^ 32 := hb.lt_size.trans hG.size
    apply hQ
    refine .of_assign h hl hType hb hFree h₂' (.of_stores h₄' fun inum hi' => dinodeOf_update hi' hIndData.ge)
      (hS₂.mounted.stores_update h₄' (by omega)) ?_ ?_ hPos (hWord.trans hz) ?_ ?_ ?_ ?_
    · rw [hDi₄]
      exact h.cache.ok ip hl
    · rw [hDi₄]
    · rw [hDi₄, h₄'.home, ptr_gt hGt (by rwa [hInd]), hInd, Function.update_self, Nat.add_sub_cancel_left,
        getWord_setWord_self, Nat.mod_eq_of_lt hSize]
    · intro p _ hne
      rw [hDi₄, h₄'.home]
      by_cases hLe : p ≤ ndirect
      · rw [ptr_le hLe, ptr_le hLe]
      · have hGt' : ndirect < p := Nat.lt_of_not_le hLe
        rw [ptr_gt hGt' (by rwa [hInd]), ptr_gt hGt' (by rwa [hInd]), hInd, Function.update_self,
          getWord_setWord_of_disjoint _ (by omega)]
    · intro b' hb'
      rw [h₄'.home, bit_update hb' (Or.inr hIndData.1)]
    · intro x _ hne
      rw [hInd] at hne
      rw [h₄'.home, Function.update_of_ne hne]
  · rw [if_neg hz, wp_bind]
    apply wp_brelse hR.stop h₁.log
    intro s₂ h₂
    have h₂' := h₁.trans h₂
    rw [h₁.home] at h₂'
    rw [wp_pure]
    rw [← hWord] at hz ⊢
    exact hQ _ s₂ (.of_set h h₂' hz)

theorem Mapped.trans {pos pos' addr addr' : Nat} {s₁ s₂ : Kern} (h : Mapped M H ip pos addr s s₁)
    (h' : Mapped M H ip pos' addr' s₁ s₂)
    (hSame : ptr (home s) (s.inode ip).di pos' ≠ 0 → ptr (home s) (s.inode ip).di pos ≠ 0) :
    Mapped M H ip pos' addr' s s₂ where
  touches := h.touches.trans h'.touches
  sound := h'.sound
  eq := h'.eq
  nz := h'.nz
  fields := by rw [h'.fields, h.fields]
  keep p hp hNz := by
    have hKeep := h.keep p hp hNz
    rw [h'.keep p hp (by rwa [hKeep]), hKeep]
  same hNz := by
    obtain ⟨hHome, hInode⟩ := h.same (hSame hNz)
    obtain ⟨hHome', hInode'⟩ := h'.same (by rwa [hHome, hInode])
    exact ⟨hHome'.trans hHome, hInode'.trans hInode⟩
  rest inum hi hne p := (h'.rest inum hi (by rwa [h.touches.inum_eq]) p).trans (h.rest inum hi hne p)
  files inum hi := (h'.files inum hi).trans (h.files inum hi)

theorem wp_bmap (hR : Relies M R) (hG : Geom sb) (h : Steady M s H) (hl : LiveSlot s ip)
    (hType : (s.inode ip).di.type ≠ 0) (hBn : bn < maxfile) {Q : Nat → Kern → Prop}
    (hQ : ∀ addr s', Mapped M H ip (posOf bn) addr s s' → Q addr s') : wp R (bmap ip bn) Q s := by
  rw [bmap]
  by_cases hDir : bn < ndirect
  · rw [if_pos hDir]
    apply wp_bmapAddr hR hG h hl hType (Nat.le_of_lt hDir)
    intro addr s' hm
    apply hQ
    rwa [posOf, if_pos hDir]
  · have hIn : bn - ndirect < nindirect := by
      rw [maxfile] at hBn
      omega
    rw [if_neg hDir, if_pos hIn, wp_bind]
    apply wp_bmapAddr hR hG h hl hType le_rfl
    intro ind s₁ h₁
    have hAddr : (s₁.inode ip).di.addrs ndirect = ind := by rw [← h₁.eq, ptr_le le_rfl]
    have hPos : ndirect + 1 + (bn - ndirect) = posOf bn := by
      rw [posOf, if_neg hDir]
      omega
    apply wp_bmapIndirect hR hG h₁.sound (h₁.touches.live hl) (by rw [h₁.fields]; exact hType) hAddr h₁.nz hIn
    intro addr s₂ h₂
    rw [hPos] at h₂
    apply hQ
    refine h₁.trans h₂ fun hNz hz => hNz ?_
    rw [ptr_le le_rfl] at hz
    exact ptr_gt_zero (by omega) hz

end Bmap

end Xv6Rpi.Fs
