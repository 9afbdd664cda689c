import Xv6Rpi.Fs.Content

/-! # Inodes in memory and on disk

A field of an inode is changed in its in-memory copy first and reaches the disk with
`iupdate`. With it `writei` is complete: the file has its new bytes and its new size, and
the inode on disk is the one in memory again.
-/

namespace Xv6Rpi.Fs

open Prog

section SetDi

variable {sb : Superblock} {M : LowBits sb} {s : Kern} {H : Set Nat} {ip : Nat} {di : Dinode}

theorem Steady.setDi (h : Steady M s H) (hl : LiveSlot s ip) (hOk : di.Ok)
    (hPtr : ∀ pos < npos, (if di.type = 0 then 0 else ptr (home s) di pos) =
      if (s.inode ip).di.type = 0 then 0 else ptr (home s) (s.inode ip).di pos) :
    Steady M (setDi s ip di) H := by
  refine ⟨⟨⟨h.mounted.start, h.mounted.size, h.mounted.super, h.mounted.log⟩, h.cache.setDi hOk, ?_⟩, h.low⟩
  refine h.own.congr (fun r hr => ?_) fun _ _ => rfl
  rw [home_setDi, ptrOf, ptrOf, h.cache.eff_setDi hl]
  by_cases hIn : r.1 = (s.inode ip).inum
  · rw [if_pos hIn, hIn, h.cache.eff_live hl]
    exact hPtr r.2 hr.2
  · rw [if_neg hIn]

theorem Steady.setDi_fields (h : Steady M s H) (hl : LiveSlot s ip) (hOk : di.Ok)
    (hType : di.type = (s.inode ip).di.type) (hAddrs : di.addrs = (s.inode ip).di.addrs) :
    Steady M (Fs.setDi s ip di) H := by
  refine h.setDi hl hOk fun pos _ => ?_
  rw [hType, ptr, ptr, hAddrs]

theorem CacheInv.files_setDi (h : CacheInv sb s) (hl : LiveSlot s ip) (inum : Nat) :
    files (Fs.setDi s ip di) inum = if inum = (s.inode ip).inum then fileOf (home s) di else files s inum := by
  rw [files, home_setDi, h.eff_setDi hl, apply_ite (fileOf (home s))]
  rfl

end SetDi

theorem ptr_congr {d d' : Disk} {a b : Dinode} (hAddrs : a.addrs = b.addrs)
    (hInd : b.addrs ndirect ≠ 0 → d' (b.addrs ndirect) = d (b.addrs ndirect)) (pos : Nat) :
    ptr d' a pos = ptr d b pos := by
  rw [ptr, ptr, hAddrs]
  by_cases hz : b.addrs ndirect = 0
  · rw [if_pos hz, if_pos hz]
  · rw [if_neg hz, if_neg hz, hInd hz]

theorem Sound.indirect_inData {sb : Superblock} {s : Kern} {H : Set Nat} {ip : Nat} (h : Sound sb s H)
    (hl : LiveSlot s ip) (hType : (s.inode ip).di.type ≠ 0) (hNz : (s.inode ip).di.addrs ndirect ≠ 0) :
    InData sb ((s.inode ip).di.addrs ndirect) := by
  have hDi := h.cache.eff_live hl
  have hRef : ptrOf (home s) (eff s) ((s.inode ip).inum, ndirect) = (s.inode ip).di.addrs ndirect := by
    rw [ptrOf_of_type (by rwa [hDi]), ptr_le le_rfl, hDi]
  have := h.own.data _ ⟨h.cache.inum ip hl.lt hl.ref, indirect_lt⟩ (by rwa [hRef])
  rwa [hRef] at this

structure Updated {sb : Superblock} (M : LowBits sb) (H : Set Nat) (ip : Nat) (s s' : Kern) : Prop where
  inode : s'.inode = s.inode
  file : s'.file = s.file
  proc : s'.proc = s.proc
  devsw : s'.devsw = s.devsw
  busy : s'.log.busy = s.log.busy
  sound : Steady M s' H
  disk : ∀ inum < sb.ninodes, dinodeOf (home s') inum =
    if inum = (s.inode ip).inum then (s.inode ip).di else dinodeOf (home s) inum
  data : ∀ x, sb.ninodes / ipb + 3 ≤ x → home s' x = home s x
  rest : ∀ inum < sb.ninodes, ∀ p, ptrOf (home s') (eff s') (inum, p) = ptrOf (home s) (eff s) (inum, p)
  files : ∀ inum < sb.ninodes, files s' inum = files s inum

section Iupdate

variable {R : Rely Kern Stop Label} {sb : Superblock} {M : LowBits sb} {s s' : Kern} {H : Set Nat} {ip : Nat}

theorem iblock_ge (i : Nat) : 2 ≤ iblock i := Nat.le_add_left ..

theorem Geom.iblock_lt_log (hG : Geom sb) {i : Nat} (hi : i < sb.ninodes) : iblock i < sb.size - sb.nlog := by
  have h1 := iblock_lt hi
  have h2 := hG.fits
  rw [dataStart] at h2
  have := Nat.zero_le (sb.size / bpb)
  omega

theorem Updated.of_stores (h : Steady M s H) (hl : LiveSlot s ip)
    (hs : Stores s s' (Function.update (home s) (iblock (s.inode ip).inum)
      (encodeDinode (home s (iblock (s.inode ip).inum)) ((s.inode ip).inum % ipb) (s.inode ip).di))) :
    Updated M H ip s s' := by
  have hi : (s.inode ip).inum < sb.ninodes := h.cache.inum ip hl.lt hl.ref
  have hDi : eff s (s.inode ip).inum = (s.inode ip).di := h.cache.eff_live hl
  have hBlk := iblock_lt hi
  have hDisk : ∀ inum, dinodeOf (home s') inum =
      if inum = (s.inode ip).inum then (s.inode ip).di else dinodeOf (home s) inum := fun inum => by
    rw [hs.home, dinodeOf_encode (h.cache.ok ip hl)]
  have hEff : ∀ inum, eff s' inum = eff s inum := fun inum => by
    rw [eff, eff, slotOf_congr hs.inode, hs.inode]
    cases hSlot : slotOf s inum with
    | some i => rfl
    | none =>
      have hne : inum ≠ (s.inode ip).inum := fun hEq => slotOf_none hSlot hl hEq.symm
      simp only [hDisk, if_neg hne]
  have hData : ∀ x, sb.ninodes / ipb + 3 ≤ x → home s' x = home s x := fun x hx => by
    rw [hs.home, Function.update_of_ne (by omega)]
  have hAgree : ∀ inum < sb.ninodes, (eff s inum).type ≠ 0 → Agree (home s) (home s') (eff s inum) :=
    fun inum hi' hType => h.own.agree hi' hType fun x hx _ _ => hData x hx.ge
  have hSuper := h.mounted.stores_update hs (by have := iblock_ge (s.inode ip).inum; omega)
  have hBits : ∀ b, bit sb (home s') b = bit sb (home s) b := fun b => by rw [bit, bit, hData _ (bblock_ge b sb)]
  have hPtr : ∀ inum < sb.ninodes, ∀ p, ptrOf (home s') (eff s') (inum, p) = ptrOf (home s) (eff s) (inum, p) := by
    intro inum hi' p
    simp only [ptrOf]
    rw [hEff]
    by_cases hz : (eff s inum).type = 0
    · rw [if_pos hz, if_pos hz]
    · rw [if_neg hz, if_neg hz, (hAgree inum hi' hz).ptr]
  refine ⟨hs.inode, hs.file, hs.proc, hs.devsw, hs.busy, ⟨⟨hSuper, h.cache.congr hs.inode, ?_⟩,
    M.stable _ _ (fun b _ => hBits b) h.low⟩, fun inum _ => hDisk inum, hData, hPtr, fun inum hi' => ?_⟩
  · exact h.own.congr (fun r hr => hPtr r.1 hr.1 r.2) fun b _ => hBits b
  · rw [Fs.files, Fs.files, hEff]
    by_cases hz : (eff s inum).type = 0
    · rw [fileOf, fileOf, if_pos hz, if_pos hz]
    · exact (hAgree inum hi' hz).fileOf

theorem wp_iupdate (hR : Allows R) (hG : Geom sb) (h : Steady M s H) (hl : LiveSlot s ip)
    {Q : Unit → Kern → Prop} (hQ : ∀ s', Updated M H ip s s' → Q () s') : wp R (iupdate ip) Q s := by
  have hi : (s.inode ip).inum < sb.ninodes := h.cache.inum ip hl.lt hl.ref
  have hBlk := hG.iblock_lt_log hi
  rw [iupdate, wp_bind]
  apply wp_getK hR
  rw [wp_bind]
  apply wp_bread hR h.mounted.log (h.mounted.not_holds hBlk)
  intro s₁ h₁
  have hM₁ := h.mounted.stores_self h₁
  rw [wp_bind]
  apply wp_logWriteBuf hR hM₁.log (hM₁.not_holds hBlk)
  intro s₂ h₂
  apply wp_brelse hR h₂.log
  intro s₃ h₃
  have h₃' := (h₁.trans h₂).trans h₃
  rw [h₂.home, h₁.home] at h₃'
  exact hQ s₃ (.of_stores h hl h₃')

end Iupdate

theorem Dinode.Ok.setSize {di : Dinode} (h : di.Ok) {n : Nat} (hn : n < 2 ^ 32) :
    ({ di with size := n } : Dinode).Ok :=
  ⟨h.type, h.major, h.minor, h.nlink, hn, h.addrs, h.rest⟩

/-- Every block below the size of the file is there. -/
structure NoHoles (d : Disk) (di : Dinode) : Prop where
  size : di.size ≤ maxfile * bsize
  ptr : ∀ bn, bn * bsize < di.size → ptr d di (posOf bn) ≠ 0

def AFile.write (f : AFile) (off : Nat) (src : List UInt8) : AFile :=
  { f with size := max f.size (off + src.length), byte := patch f.byte off src }

/-- The bytes from `off` on, at most `n` of them and none past the end. -/
def AFile.read (f : AFile) (off n : Nat) : List UInt8 :=
  (List.range (min (off + n) f.size - off)).map fun j => f.byte (off + j)

section Readi

variable {R : Rely Kern Stop Label} {sb : Superblock} {M : LowBits sb} {H : Set Nat} {s : Kern} {ip off n : Nat}

def CanRead (di : Dinode) (off n : Nat) : Prop := off ≤ di.size ∧ off ≤ (off + n) % 2 ^ 32

instance (di : Dinode) (off n : Nat) : Decidable (CanRead di off n) :=
  inferInstanceAs (Decidable (off ≤ di.size ∧ off ≤ (off + n) % 2 ^ 32))

def CanWrite (di : Dinode) (off n : Nat) : Prop := CanRead di off n ∧ off + n ≤ maxfile * bsize

theorem NoHoles.ptr_ne {d : Disk} {di : Dinode} (h : NoHoles d di) {j : Nat} (hj : j < di.size) :
    Fs.ptr d di (posOf (j / bsize)) ≠ 0 := by
  apply h.ptr
  have := Nat.div_mul_le_self j bsize
  omega

/-- The copy's size is what `writei` and `readi` compare with. -/
theorem Sound.size_eq (h : Sound sb s H) (hl : LiveSlot s ip) (hType : (s.inode ip).di.type ≠ 0) :
    (files s (s.inode ip).inum).size = (s.inode ip).di.size := by
  rw [files, h.cache.eff_live hl, fileOf, if_neg hType]

theorem wp_readi (hR : Relies M R) (hG : Geom sb) (h : Steady M s H) (hl : LiveSlot s ip)
    (hType : (s.inode ip).di.type ≠ 0) (hDev : (s.inode ip).di.type ≠ tDev)
    {Q : Option (List UInt8) → Kern → Prop} (hNone : ¬CanRead (s.inode ip).di off n → Q none s)
    (hSome : CanRead (s.inode ip).di off n → ∀ s', Reads M H ip s s' →
      (NoHoles (home s) (s.inode ip).di → home s' = home s ∧ s'.inode = s.inode) →
      Q (some ((files s (s.inode ip).inum).read off n)) s') : wp R (readi ip off n) Q s := by
  rw [readi, wp_bind]
  apply wp_getK hR.stop
  rw [if_neg hDev]
  by_cases hCan : CanRead (s.inode ip).di off n
  · have hNot : ¬((s.inode ip).di.size < off ∨ (off + n) % 2 ^ 32 < off) := by
      rw [CanRead] at hCan
      omega
    rw [if_neg hNot]
    dsimp only
    have hLen : (if (s.inode ip).di.size < off + n then (s.inode ip).di.size - off else n) =
        min (off + n) (s.inode ip).di.size - off := by
      split <;> omega
    have hSize := h.size_eq hl hType
    rw [hLen, wp_bind]
    apply wp_readiFrom hR hG _ h hl hType le_rfl
    intro s' hr hSame
    rw [wp_pure]
    have hBytes : (files s (s.inode ip).inum).read off n =
        (List.range (min (off + n) (s.inode ip).di.size - off)).map
          fun j => (files s (s.inode ip).inum).byte (off + j) := by
      rw [AFile.read, hSize]
    rw [← hBytes]
    refine hSome hCan s' hr fun hFull => hSame fun j hj => hFull.ptr_ne (by omega)
  · have hBad : (s.inode ip).di.size < off ∨ (off + n) % 2 ^ 32 < off := by
      rw [CanRead] at hCan
      omega
    rw [if_pos hBad, wp_pure]
    exact hNone hCan

end Readi

structure Behind (disk mem : Dinode) : Prop where
  fields : disk = { mem with addrs := disk.addrs }
  addrs : ∀ k ≤ ndirect, disk.addrs k ≠ 0 → mem.addrs k = disk.addrs k

theorem Behind.refl (di : Dinode) : Behind di di := ⟨rfl, fun _ _ _ => rfl⟩

theorem Behind.keep {disk mem mem' : Dinode} {d d' : Disk} (h : Behind disk mem)
    (hFields : mem' = { mem with addrs := mem'.addrs })
    (hKeep : ∀ p < npos, ptr d mem p ≠ 0 → ptr d' mem' p = ptr d mem p) : Behind disk mem' where
  fields := by rw [hFields, h.fields]
  addrs k hk hNz := by
    have hOld := h.addrs k hk hNz
    have hNew := hKeep k (hk.trans_lt (by decide)) (by rwa [ptr_le hk, hOld])
    rwa [ptr_le hk, ptr_le hk, hOld] at hNew

structure WroteTo {sb : Superblock} (M : LowBits sb) (H : Set Nat) (ip off : Nat) (src : List UInt8) (s s' : Kern) : Prop where
  file : s'.file = s.file
  proc : s'.proc = s.proc
  devsw : s'.devsw = s.devsw
  busy : s'.log.busy = s.log.busy
  others : ∀ j, j ≠ ip → s'.inode j = s.inode j
  slot : s'.inode ip = { s.inode ip with di := (s'.inode ip).di }
  sound : Steady M s' H
  disk : ∀ inum < sb.ninodes, inum ≠ (s.inode ip).inum → dinodeOf (home s') inum = dinodeOf (home s) inum
  files : ∀ inum < sb.ninodes, files s' inum =
    if inum = (s.inode ip).inum then (files s inum).write off src else files s inum
  sync : NoHoles (home s) (s.inode ip).di →
    dinodeOf (home s) (s.inode ip).inum = (s.inode ip).di →
    dinodeOf (home s') (s.inode ip).inum = (s'.inode ip).di
  full : NoHoles (home s) (s.inode ip).di → NoHoles (home s') (s'.inode ip).di
  behind : Behind (dinodeOf (home s) (s.inode ip).inum) (s.inode ip).di →
    Behind (dinodeOf (home s') (s.inode ip).inum) (s'.inode ip).di
  rest : ∀ inum < sb.ninodes, inum ≠ (s.inode ip).inum → ∀ p,
    ptrOf (home s') (eff s') (inum, p) = ptrOf (home s) (eff s) (inum, p)

section Writei

variable {R : Rely Kern Stop Label} {sb : Superblock} {M : LowBits sb} {H : Set Nat} {s s' : Kern} {ip off : Nat} {src : List UInt8}

theorem Wrote.noHoles (h : Wrote M H ip off src s s') (hFull : NoHoles (home s) (s.inode ip).di)
    (hOff : off ≤ (s.inode ip).di.size) {bn : Nat} (hBn : bn * bsize < max (s.inode ip).di.size (off + src.length)) :
    ptr (home s') (s'.inode ip).di (posOf bn) ≠ 0 := by
  by_cases hIn : bn * bsize < (s.inode ip).di.size
  · have hLt : bn < maxfile := Nat.lt_of_mul_lt_mul_right (hIn.trans_le hFull.size)
    rw [h.keep _ (posOf_lt hLt) (hFull.ptr bn hIn)]
    exact hFull.ptr bn hIn
  · have := h.mapped (bn * bsize - off) (by omega)
    rwa [Nat.add_sub_cancel' (by omega), Nat.mul_div_cancel _ (by decide)] at this

theorem fileOf_size {d : Disk} {di : Dinode} (hType : di.type ≠ 0) (n : Nat) :
    fileOf d { di with size := n } = { fileOf d di with size := n } := by
  simp only [fileOf, if_neg hType]
  rfl

theorem WroteTo.of_inside (h : Steady M s H) (hl : LiveSlot s ip) (hType : (s.inode ip).di.type ≠ 0)
    (hOff : off ≤ (s.inode ip).di.size) (h₁ : Wrote M H ip off src s s')
    (hIn : src.length = 0 ∨ off + src.length ≤ (s.inode ip).di.size) : WroteTo M H ip off src s s' where
  file := h₁.touches.file
  proc := h₁.touches.proc
  devsw := h₁.touches.devsw
  busy := h₁.touches.busy
  others := h₁.touches.others
  slot := h₁.touches.slot
  sound := h₁.sound
  disk inum hi _ := h₁.touches.disk inum hi
  files inum hi := by
    rw [h₁.files inum hi]
    by_cases hEq : inum = (s.inode ip).inum
    · have hMax : max (Fs.files s inum).size (off + src.length) = (Fs.files s inum).size := by
        rw [hEq, h.size_eq hl hType]
        omega
      rw [if_pos hEq, if_pos hEq, AFile.write, hMax]
    · rw [if_neg hEq, if_neg hEq]
  sync hFull hSync := by
    have hi : (s.inode ip).inum < sb.ninodes := h.cache.inum ip hl.lt hl.ref
    rw [h₁.touches.disk _ hi, hSync, h₁.same fun j hj => hFull.ptr_ne (by omega)]
  full hFull := by
    have hSize : (s'.inode ip).di.size = (s.inode ip).di.size := by rw [h₁.fields]
    refine ⟨by rw [hSize]; exact hFull.size, fun bn hBn => ?_⟩
    exact h₁.noHoles hFull hOff (by omega)
  behind hBehind := by
    rw [h₁.touches.disk _ (h.cache.inum ip hl.lt hl.ref)]
    exact hBehind.keep h₁.fields h₁.keep
  rest := h₁.rest

/-- A write that makes the file longer, with the new size in memory and then on disk. -/
theorem WroteTo.of_grow {s₁ s₂ : Kern} (h : Steady M s H) (hl : LiveSlot s ip)
    (hType : (s.inode ip).di.type ≠ 0) (hOff : off ≤ (s.inode ip).di.size)
    (hMax : off + src.length ≤ maxfile * bsize) (h₁ : Wrote M H ip off src s s₁)
    (hGrow : (s.inode ip).di.size < off + src.length)
    (h₂ : Updated M H ip (setDi s₁ ip { (s₁.inode ip).di with size := off + src.length }) s₂) :
    WroteTo M H ip off src s s₂ := by
  have hi : (s.inode ip).inum < sb.ninodes := h.cache.inum ip hl.lt hl.ref
  have hType₁ : (s₁.inode ip).di.type ≠ 0 := by
    rw [h₁.fields]
    exact hType
  have hSlot : s₂.inode ip = { s₁.inode ip with di := { (s₁.inode ip).di with size := off + src.length } } := by
    rw [h₂.inode, setDi_self]
  have hInum : ((setDi s₁ ip { (s₁.inode ip).di with size := off + src.length }).inode ip).inum =
      (s.inode ip).inum := by
    rw [setDi_self]
    exact h₁.touches.inum_eq
  have hDi : ((setDi s₁ ip { (s₁.inode ip).di with size := off + src.length }).inode ip).di =
      (s₂.inode ip).di := by rw [h₂.inode]
  refine ⟨h₂.file.trans h₁.touches.file, h₂.proc.trans h₁.touches.proc, h₂.devsw.trans h₁.touches.devsw,
    h₂.busy.trans h₁.touches.busy, ?_, ?_, h₂.sound, ?_, ?_, ?_, ?_, ?_, ?_⟩
  · intro j hj
    rw [h₂.inode, setDi_of_ne hj, h₁.touches.others j hj]
  · rw [hSlot, h₁.touches.slot]
  · intro inum hi' hne
    rw [h₂.disk inum hi', hInum, if_neg hne, home_setDi, h₁.touches.disk inum hi']
  · intro inum hi'
    rw [h₂.files inum hi', h₁.sound.cache.files_setDi (h₁.touches.live hl), h₁.touches.inum_eq]
    by_cases hEq : inum = (s.inode ip).inum
    · have hSizes : max (Fs.files s (s.inode ip).inum).size (off + src.length) = off + src.length := by
        rw [h.size_eq hl hType]
        omega
      have hFile : fileOf (home s₁) (s₁.inode ip).di = Fs.files s₁ (s.inode ip).inum := by
        rw [Fs.files, ← h₁.touches.inum_eq, h₁.sound.cache.eff_live (h₁.touches.live hl)]
      rw [if_pos hEq, if_pos hEq, hEq, AFile.write, hSizes, fileOf_size hType₁, hFile, h₁.files _ hi,
        if_pos rfl]
    · rw [if_neg hEq, if_neg hEq, h₁.files inum hi', if_neg hEq]
  · intro _ _
    rw [h₂.disk _ hi, hInum, if_pos rfl, hDi]
  · intro hFull
    have hData : ∀ bn, ptr (home s₂) (s₂.inode ip).di (posOf bn) = ptr (home s₁) (s₁.inode ip).di (posOf bn) := by
      intro bn
      have hInd : (s₁.inode ip).di.addrs ndirect ≠ 0 →
          home s₂ ((s₁.inode ip).di.addrs ndirect) = home s₁ ((s₁.inode ip).di.addrs ndirect) := fun hNz =>
        h₂.data _ (h₁.sound.indirect_inData (h₁.touches.live hl) hType₁ hNz).ge
      rw [hSlot]
      exact ptr_congr rfl hInd _
    refine ⟨by rw [hSlot]; exact hMax, fun bn hBn => ?_⟩
    rw [hSlot] at hBn
    dsimp only at hBn
    rw [hData]
    exact h₁.noHoles hFull hOff (by omega)
  · intro _
    rw [h₂.disk _ hi, hInum, if_pos rfl, hDi]
    exact .refl _
  · intro inum hi' hne p
    have hne' : inum ≠ (s₁.inode ip).inum := by rwa [h₁.touches.inum_eq]
    rw [h₂.rest inum hi', ← h₁.rest inum hi' hne p, home_setDi]
    simp only [ptrOf]
    rw [h₁.sound.cache.eff_setDi (h₁.touches.live hl), if_neg hne']

theorem wp_writei (hR : Relies M R) (hG : Geom sb) (h : Steady M s H) (hl : LiveSlot s ip)
    (hType : (s.inode ip).di.type ≠ 0) (hDev : (s.inode ip).di.type ≠ tDev)
    {Q : Option Nat → Kern → Prop} (hNone : ¬CanWrite (s.inode ip).di off src.length → Q none s)
    (hSome : CanWrite (s.inode ip).di off src.length → ∀ s', WroteTo M H ip off src s s' →
      Q (some src.length) s') : wp R (writei ip src off) Q s := by
  rw [writei, wp_bind]
  apply wp_getK hR.stop
  rw [if_neg hDev]
  by_cases hCan : CanWrite (s.inode ip).di off src.length
  · obtain ⟨⟨hOff, hWrap⟩, hMax⟩ := hCan
    rw [if_neg (by omega), if_neg (by omega), wp_bind]
    apply wp_writeiFrom hR hG _ h hl hType le_rfl hMax
    intro s₁ h₁
    have hl₁ := h₁.touches.live hl
    by_cases hGrow : 0 < src.length ∧ (s.inode ip).di.size < off + src.length
    · rw [if_pos hGrow, wp_bind]
      apply wp_modifyK hR.stop
      rw [wp_bind]
      have hOk : ({ (s₁.inode ip).di with size := off + src.length } : Dinode).Ok :=
        (h₁.sound.cache.ok ip hl₁).setSize (hMax.trans_lt (by decide))
      apply wp_iupdate hR.stop hG (h₁.sound.setDi_fields hl₁ hOk rfl rfl) (liveSlot_setDi.mpr hl₁)
      intro s₂ h₂
      exact hSome ⟨⟨hOff, hWrap⟩, hMax⟩ s₂ (.of_grow h hl hType hOff hMax h₁ hGrow.2 h₂)
    · rw [if_neg hGrow]
      exact hSome ⟨⟨hOff, hWrap⟩, hMax⟩ s₁ (.of_inside h hl hType hOff h₁ (by omega))
  · by_cases hBad : (s.inode ip).di.size < off ∨ (off + src.length) % 2 ^ 32 < off
    · rw [if_pos hBad, wp_pure]
      exact hNone hCan
    · rw [if_neg hBad, if_pos, wp_pure]
      · exact hNone hCan
      · simp only [CanWrite, CanRead] at hCan
        omega

end Writei

end Xv6Rpi.Fs
