import Xv6Rpi.Fs.Bmap

/-! # Reading and writing files

The loops of `readi` and `writei` go through a range of bytes block by block. What they
do is said in terms of files: one of them has bytes replaced, all others are the same.
-/

namespace Xv6Rpi.Fs

open Prog

section Patch

variable {b : Block} {off : Nat} {src : List UInt8}

theorem patch_nil : patch b off [] = b := by
  funext j
  simp [patch]

theorem patch_append (b : Block) (off : Nat) (src rest : List UInt8) :
    patch (patch b off src) (off + src.length) rest = patch b off (src ++ rest) := by
  funext j
  simp only [patch]
  by_cases hLow : off ≤ j
  · by_cases hHigh : off + src.length ≤ j
    · rw [if_pos hHigh, if_pos hLow, if_pos hLow, List.getD_append_right _ _ _ _ (by omega),
        List.getD_eq_default src _ (by omega), Nat.sub_sub]
    · rw [if_neg hHigh, if_pos hLow, if_pos hLow, List.getD_append _ _ _ _ (by omega)]
  · rw [if_neg (by omega), if_neg hLow, if_neg hLow]

theorem patch_of_not_mem {j : Nat} (h : j < off ∨ off + src.length ≤ j) : patch b off src j = b j := by
  rw [patch]
  rcases h with h | h
  · rw [if_neg (by omega)]
  · rw [if_pos (by omega), List.getD_eq_default src _ (by omega)]

theorem patch_of_mem {j : Nat} (hLow : off ≤ j) (hHigh : j - off < src.length) :
    patch b off src j = src[j - off] := by
  rw [patch, if_pos hLow, List.getD_eq_getElem _ _ hHigh]

theorem slice_eq_map (g : Nat → UInt8) {m : Nat} (h : ∀ j < m, b (off + j) = g j) :
    slice b off m = (List.range m).map g := by
  rw [slice]
  apply List.map_congr_left
  intro j hj
  exact h j (List.mem_range.mp hj)

end Patch

/-- Reading changes no file; it may add blocks where there were none. -/
structure Reads {sb : Superblock} (M : LowBits sb) (H : Set Nat) (ip : Nat) (s s' : Kern) : Prop where
  touches : Touches sb ip s s'
  sound : Steady M s' H
  fields : (s'.inode ip).di = { (s.inode ip).di with addrs := (s'.inode ip).di.addrs }
  keep : ∀ k ≤ ndirect, (s.inode ip).di.addrs k ≠ 0 → (s'.inode ip).di.addrs k = (s.inode ip).di.addrs k
  files : ∀ inum < sb.ninodes, files s' inum = files s inum

section Reads

variable {sb : Superblock} {M : LowBits sb} {H : Set Nat} {s s₁ s' : Kern} {ip pos addr : Nat}

theorem Reads.trans (h : Reads M H ip s s₁) (h' : Reads M H ip s₁ s') : Reads M H ip s s' where
  touches := h.touches.trans h'.touches
  sound := h'.sound
  fields := by rw [h'.fields, h.fields]
  keep k hk hNz := by
    have hKeep := h.keep k hk hNz
    rw [h'.keep k hk (by rwa [hKeep]), hKeep]
  files inum hi := (h'.files inum hi).trans (h.files inum hi)

theorem Mapped.reads (h : Mapped M H ip pos addr s s') : Reads M H ip s s' := by
  refine ⟨h.touches, h.sound, h.fields, fun k hk hNz => ?_, h.files⟩
  have := h.keep k (hk.trans_lt indirect_lt) (by rwa [ptr_le hk])
  rwa [ptr_le hk, ptr_le hk] at this

/-- The block that `bmap` returns lies below the log. -/
theorem Mapped.lt_log {bn : Nat} (h : Mapped M H ip (posOf bn) addr s s') (hl : LiveSlot s ip)
    (hType : (s.inode ip).di.type ≠ 0) (hBn : bn < maxfile) : addr < sb.size - sb.nlog := by
  have hl' := h.touches.live hl
  have hType' : (s'.inode ip).di.type ≠ 0 := by
    rw [h.fields]
    exact hType
  have hEff := h.sound.cache.eff_live hl'
  have hRef : ptrOf (home s') (eff s') ((s'.inode ip).inum, posOf bn) = addr := by
    rw [ptrOf_of_type (by rwa [hEff]), hEff, h.eq]
  have hData := h.sound.own.data _ ⟨h.sound.cache.inum ip hl'.lt hl'.ref, posOf_lt hBn⟩
    (by rw [hRef]; exact h.nz)
  rw [hRef] at hData
  exact hData.2

theorem Reads.type (h : Reads M H ip s s') (hType : (s.inode ip).di.type ≠ 0) :
    (s'.inode ip).di.type ≠ 0 := by
  rw [h.fields]
  exact hType

end Reads

section Same

variable {sb : Superblock} {M : LowBits sb} {s s' : Kern} {H : Set Nat} {ip : Nat}

theorem Steady.stores_self (h : Steady M s H) (hs : Stores s s' (home s)) : Steady M s' H := by
  have hEff : ∀ inum, eff s' inum = eff s inum := fun inum => eff_congr hs.inode (by rw [hs.home])
  refine ⟨⟨h.mounted.stores_self hs, h.cache.congr hs.inode, ?_⟩, by rw [hs.home]; exact h.low⟩
  rw [hs.home]
  exact h.own.congr (fun r _ => by rw [ptrOf, ptrOf, hEff]) fun _ _ => rfl

theorem files_stores (hs : Stores s s' (home s)) (inum : Nat) : files s' inum = files s inum := by
  rw [files, files, hs.home, eff_congr hs.inode (by rw [hs.home])]

theorem Steady.reads (h : Steady M s H) (hs : Stores s s' (home s)) : Reads M H ip s s' :=
  ⟨.of_stores hs fun _ _ => rfl, h.stores_self hs, by rw [hs.inode], fun k _ _ => by rw [hs.inode],
    fun inum _ => files_stores hs inum⟩

end Same

section Read

variable {R : Rely Kern Stop Label} {sb : Superblock} {M : LowBits sb} {H : Set Nat} {s : Kern} {ip : Nat}

theorem div_add_eq {off j : Nat} (h : off % bsize + j < bsize) : (off + j) / bsize = off / bsize := by
  simp only [bsize] at *
  omega

theorem mod_add_eq {off j : Nat} (h : off % bsize + j < bsize) : (off + j) % bsize = off % bsize + j := by
  simp only [bsize] at *
  omega

theorem CacheInv.byte_eq (hC : CacheInv sb s) (hl : LiveSlot s ip) (hType : (s.inode ip).di.type ≠ 0) {off : Nat}
    (hOff : off / bsize < maxfile) (hNz : ptr (home s) (s.inode ip).di (posOf (off / bsize)) ≠ 0) :
    (files s (s.inode ip).inum).byte off =
      home s (ptr (home s) (s.inode ip).di (posOf (off / bsize))) (off % bsize) := by
  have hLt : off < maxfile * bsize := (Nat.div_lt_iff_lt_mul (by decide)).mp hOff
  rw [files, hC.eff_live hl, fileOf, if_neg hType]
  simp only [if_pos hLt, byteAt, if_neg hNz]

theorem wp_bmap_out {Q : Nat → Kern → Prop} (hR : Allows R) {bn : Nat} (hBn : ¬bn < maxfile) :
    wp R (bmap ip bn) Q s := by
  simp only [maxfile] at hBn
  rw [bmap, if_neg (by omega), if_neg (by omega)]
  exact wp_panic hR (by decide) (by decide)

theorem wp_readiFrom (hR : Relies M R) (hG : Geom sb) (fuel : Nat) {off n : Nat} (h : Steady M s H)
    (hl : LiveSlot s ip) (hType : (s.inode ip).di.type ≠ 0) (hn : n ≤ fuel) {Q : List UInt8 → Kern → Prop}
    (hQ : ∀ s', Reads M H ip s s' →
      ((∀ j < n, ptr (home s) (s.inode ip).di (posOf ((off + j) / bsize)) ≠ 0) →
        home s' = home s ∧ s'.inode = s.inode) →
      Q ((List.range n).map fun j => (files s (s.inode ip).inum).byte (off + j)) s') :
    wp R (readiFrom ip fuel off n) Q s := by
  induction fuel generalizing s off n Q with
  | zero =>
    obtain rfl : n = 0 := by omega
    exact hQ s (h.reads (stores_held h.mounted.log s.held)) fun _ => ⟨rfl, rfl⟩
  | succ fuel ih =>
    rw [readiFrom]
    by_cases hz : n = 0
    · rw [if_pos hz, wp_pure]
      subst hz
      exact hQ s (h.reads (stores_held h.mounted.log s.held)) fun _ => ⟨rfl, rfl⟩
    rw [if_neg hz, wp_bind]
    by_cases hBn : off / bsize < maxfile
    · apply wp_bmap hR hG h hl hType hBn
      intro addr s₁ h₁
      have hl₁ := h₁.touches.live hl
      have hType₁ := h₁.reads.type hType
      have hInum := h₁.touches.inum_eq
      have hi : (s.inode ip).inum < sb.ninodes := h.cache.inum ip hl.lt hl.ref
      have hData : addr < sb.size - sb.nlog := h₁.lt_log hl hType hBn
      rw [wp_bind]
      apply wp_bread hR.stop h₁.sound.mounted.log (h₁.sound.mounted.not_holds hData)
      intro s₂ h₂
      dsimp only
      rw [wp_bind]
      apply wp_brelse hR.stop h₂.log
      intro s₃ h₃
      have h₃' := h₂.trans h₃
      rw [h₂.home] at h₃'
      have hReads₃ : Reads M H ip s s₃ := h₁.reads.trans (h₁.sound.reads h₃')
      generalize hm : min n (bsize - off % bsize) = m
      have hMod : off % bsize < bsize := Nat.mod_lt _ (by decide)
      have hmn : m ≤ n := by omega
      have hmb : off % bsize + m ≤ bsize := by omega
      have hm0 : 0 < m := by omega
      rw [wp_bind]
      apply ih hReads₃.sound (hReads₃.touches.live hl) (hReads₃.type hType) (by omega)
      intro s₄ h₄ hSame₄
      rw [wp_pure]
      have hHere : slice (home s₁ addr) (off % bsize) m =
          (List.range m).map fun j => (files s (s.inode ip).inum).byte (off + j) := by
        apply slice_eq_map
        intro j hj
        have hDiv : (off + j) / bsize = off / bsize := div_add_eq (by omega)
        have hBlk : ptr (home s₁) (s₁.inode ip).di (posOf ((off + j) / bsize)) = addr := by
          rw [hDiv, h₁.eq]
        rw [← h₁.files _ hi, ← hInum, h₁.sound.cache.byte_eq hl₁ hType₁ (by rwa [hDiv])
          (by rw [hBlk]; exact h₁.nz), hBlk, mod_add_eq (by omega)]
      have hRest : ((List.range (n - m)).map fun j => (files s₃ (s₃.inode ip).inum).byte (off + m + j)) =
          (List.range (n - m)).map fun j => (files s (s.inode ip).inum).byte (off + (m + j)) := by
        apply List.map_congr_left
        intro j _
        rw [hReads₃.touches.inum_eq, hReads₃.files _ hi, Nat.add_assoc]
      have hAll : slice (home s₁ addr) (off % bsize) m ++
          ((List.range (n - m)).map fun j => (files s₃ (s₃.inode ip).inum).byte (off + m + j)) =
          (List.range n).map fun j => (files s (s.inode ip).inum).byte (off + j) := by
        rw [hHere, hRest]
        conv_rhs => rw [← Nat.add_sub_cancel' hmn, List.range_add, List.map_append, List.map_map]
        rfl
      rw [hAll]
      refine hQ s₄ (hReads₃.trans h₄) fun hMap => ?_
      obtain ⟨hHome₁, hInode₁⟩ := h₁.same (by simpa using hMap 0 (by omega))
      have hHome₃ : home s₃ = home s := h₃'.home.trans hHome₁
      have hInode₃ : s₃.inode = s.inode := h₃'.inode.trans hInode₁
      obtain ⟨hHome₄, hInode₄⟩ := hSame₄ fun j hj => by
        rw [hHome₃, hInode₃, Nat.add_assoc]
        exact hMap (m + j) (by omega)
      exact ⟨hHome₄.trans hHome₃, hInode₄.trans hInode₃⟩
    · exact wp_bmap_out hR.stop hBn

end Read

section Write

variable {R : Rely Kern Stop Label} {sb : Superblock} {M : LowBits sb} {s s₁ s' : Kern} {H : Set Nat} {ip bn addr : Nat}
  {data : Block}

theorem ptr_update {d : Disk} {di : Dinode} (h : addr ≠ di.addrs ndirect) (pos : Nat) :
    ptr (Function.update d addr data) di pos = ptr d di pos := by
  rw [ptr, ptr, Function.update_of_ne (Ne.symm h)]

def AFile.setBlock (f : AFile) (bn : Nat) (data : Block) : AFile :=
  { f with byte := fun off => if off / bsize = bn then data (off % bsize) else f.byte off }

theorem fileOf_update {d : Disk} {di : Dinode} (hType : di.type ≠ 0) (hBn : bn < maxfile)
    (hAddr : ptr d di (posOf bn) = addr) (hNz : addr ≠ 0) (hInd : addr ≠ di.addrs ndirect)
    (hInj : ∀ bn' < maxfile, ptr d di (posOf bn') = addr → bn' = bn) :
    fileOf (Function.update d addr data) di = (fileOf d di).setBlock bn data := by
  simp only [fileOf, if_neg hType, AFile.setBlock]
  congr 1
  funext off
  by_cases hOff : off < maxfile * bsize
  · have hLt : off / bsize < maxfile := Nat.div_lt_of_lt_mul (by rwa [Nat.mul_comm])
    rw [if_pos hOff, if_pos hOff, byteAt, byteAt, ptr_update hInd]
    by_cases hHere : off / bsize = bn
    · rw [if_pos hHere, hHere, hAddr, if_neg hNz, Function.update_self]
    · have hne : ptr d di (posOf (off / bsize)) ≠ addr := fun hEq => hHere (hInj _ hLt hEq)
      rw [if_neg hHere, Function.update_of_ne hne]
  · have hne : off / bsize ≠ bn := by
      intro hEq
      rw [← hEq] at hBn
      exact hOff ((Nat.div_lt_iff_lt_mul (by decide)).mp hBn)
    rw [if_neg hOff, if_neg hne, if_neg hOff]

theorem Steady.dataWrite (h : Steady M s H) (hl : LiveSlot s ip) (hType : (s.inode ip).di.type ≠ 0)
    (hBn : bn < maxfile) (hAddr : ptr (home s) (s.inode ip).di (posOf bn) = addr) (hNz : addr ≠ 0)
    (hs : Stores s s' (Function.update (home s) addr data)) :
    Steady M s' H ∧ Touches sb ip s s' ∧
      (∀ pos, ptr (home s') (s.inode ip).di pos = ptr (home s) (s.inode ip).di pos) ∧
      (∀ inum < sb.ninodes, inum ≠ (s.inode ip).inum → ∀ p,
        ptrOf (home s') (eff s') (inum, p) = ptrOf (home s) (eff s) (inum, p)) ∧
      ∀ inum < sb.ninodes, files s' inum =
        if inum = (s.inode ip).inum then (files s inum).setBlock bn data else files s inum := by
  have hi : (s.inode ip).inum < sb.ninodes := h.cache.inum ip hl.lt hl.ref
  have hDi : eff s (s.inode ip).inum = (s.inode ip).di := h.cache.eff_live hl
  have hPtr : ∀ pos, ptrOf (home s) (eff s) ((s.inode ip).inum, pos) = ptr (home s) (s.inode ip).di pos :=
    fun pos => by rw [ptrOf_of_type (by rwa [hDi]), hDi]
  have hNz' : ptrOf (home s) (eff s) ((s.inode ip).inum, posOf bn) ≠ 0 := by rwa [hPtr, hAddr]
  have hData : InData sb addr := by
    have := h.own.data _ ⟨hi, posOf_lt hBn⟩ hNz'
    rwa [hPtr, hAddr] at this
  -- no other pointer names the block
  have hOnly : ∀ r, ValidRef sb r → ptrOf (home s) (eff s) r = addr → r = ((s.inode ip).inum, posOf bn) := by
    intro r hr hEq
    exact h.own.inj r _ hr ⟨hi, posOf_lt hBn⟩ (by rw [hEq, hPtr, hAddr]) (by rwa [hEq])
  have hInd : addr ≠ (s.inode ip).di.addrs ndirect := by
    intro hEq
    have := hOnly ((s.inode ip).inum, ndirect) ⟨hi, indirect_lt⟩ (by rw [hPtr, ptr_le le_rfl, hEq])
    exact posOf_ne_indirect bn (Prod.mk.inj this).2.symm
  have hDisk : ∀ inum < sb.ninodes,
      dinodeOf (Function.update (home s) addr data) inum = dinodeOf (home s) inum :=
    fun inum hi' => dinodeOf_update hi' hData.ge
  have hEff : ∀ inum < sb.ninodes, eff s' inum = eff s inum := fun inum hi' =>
    eff_congr hs.inode (by rw [hs.home, hDisk inum hi'])
  have hOther : ∀ inum < sb.ninodes, inum ≠ (s.inode ip).inum → (eff s inum).type ≠ 0 →
      Agree (home s) (home s') (eff s inum) := by
    intro inum hi' hne hType'
    apply h.own.agree hi' hType'
    rintro x _ _ ⟨pos, hPos, hEq⟩
    have hne' : x ≠ addr := by
      rintro rfl
      have := hOnly (inum, pos) ⟨hi', hPos⟩ (by rw [ptrOf_of_type hType', hEq])
      exact hne (Prod.mk.inj this).1
    rw [hs.home, Function.update_of_ne hne']
  have hPtrs : ∀ pos, ptr (home s') (s.inode ip).di pos = ptr (home s) (s.inode ip).di pos := fun pos => by
    rw [hs.home, ptr_update hInd]
  have hGe := hData.ge
  rw [ipb_eq] at hGe
  have hBits : ∀ b < sb.size, bit sb (home s') b = bit sb (home s) b := fun b hb => by
    rw [hs.home, bit_update hb (Or.inr hData.1)]
  have hLow : M.holds (home s') := M.stable _ _ (fun b hb => hBits b ((hb.trans_le hData.1).trans hData.lt_size)) h.low
  refine ⟨⟨⟨h.mounted.stores_update hs (by omega), h.cache.congr hs.inode, ?_⟩, hLow⟩, .of_stores hs hDisk, hPtrs,
    fun inum hi' hne p => ?_, ?_⟩
  · apply h.own.congr
    · intro r hr
      rw [ptrOf, ptrOf, hEff r.1 hr.1]
      by_cases hz : (eff s r.1).type = 0
      · rw [if_pos hz, if_pos hz]
      · rw [if_neg hz, if_neg hz]
        by_cases hIn : r.1 = (s.inode ip).inum
        · rw [hIn, hDi, hPtrs]
        · rw [(hOther r.1 hr.1 hIn hz).ptr]
    · exact hBits
  · simp only [ptrOf]
    rw [hEff inum hi']
    by_cases hz : (eff s inum).type = 0
    · rw [if_pos hz, if_pos hz]
    · rw [if_neg hz, if_neg hz, (hOther inum hi' hne hz).ptr]
  · intro inum hi'
    rw [files, files, hEff inum hi']
    by_cases hIn : inum = (s.inode ip).inum
    · rw [if_pos hIn, hIn, hDi, hs.home]
      refine fileOf_update hType hBn hAddr hNz hInd fun bn' hBn' hEq => ?_
      have := hOnly ((s.inode ip).inum, posOf bn') ⟨hi, posOf_lt hBn'⟩ (by rw [hPtr, hEq])
      exact posOf_injective (Prod.mk.inj this).2
    · rw [if_neg hIn]
      by_cases hz : (eff s inum).type = 0
      · rw [fileOf, fileOf, if_pos hz, if_pos hz]
      · exact (hOther inum hi' hIn hz).fileOf

structure Wrote {sb : Superblock} (M : LowBits sb) (H : Set Nat) (ip off : Nat) (src : List UInt8) (s s' : Kern) : Prop where
  touches : Touches sb ip s s'
  sound : Steady M s' H
  fields : (s'.inode ip).di = { (s.inode ip).di with addrs := (s'.inode ip).di.addrs }
  files : ∀ inum < sb.ninodes, files s' inum = if inum = (s.inode ip).inum then
    { files s inum with byte := patch (files s inum).byte off src } else files s inum
  keep : ∀ p < npos, ptr (home s) (s.inode ip).di p ≠ 0 →
    ptr (home s') (s'.inode ip).di p = ptr (home s) (s.inode ip).di p
  mapped : ∀ j < src.length, ptr (home s') (s'.inode ip).di (posOf ((off + j) / bsize)) ≠ 0
  same : (∀ j < src.length, ptr (home s) (s.inode ip).di (posOf ((off + j) / bsize)) ≠ 0) →
    (s'.inode ip).di = (s.inode ip).di
  rest : ∀ inum < sb.ninodes, inum ≠ (s.inode ip).inum → ∀ p,
    ptrOf (home s') (eff s') (inum, p) = ptrOf (home s) (eff s) (inum, p)

theorem Wrote.nil (h : Steady M s H) (off : Nat) : Wrote M H ip off [] s s where
  touches := .refl ..
  sound := h
  fields := rfl
  files inum _ := by
    rw [patch_nil]
    split <;> rfl
  keep _ _ _ := rfl
  mapped j hj := absurd hj (Nat.not_lt_zero j)
  same _ := rfl
  rest _ _ _ _ := rfl

theorem Wrote.append {off : Nat} {src rest : List UInt8} (h : Wrote M H ip off src s s₁)
    (h' : Wrote M H ip (off + src.length) rest s₁ s')
    (hMax : off + src.length + rest.length ≤ maxfile * bsize) :
    Wrote M H ip off (src ++ rest) s s' where
  touches := h.touches.trans h'.touches
  sound := h'.sound
  fields := by rw [h'.fields, h.fields]
  files inum hi := by
    rw [h'.files inum hi, h.touches.inum_eq, h.files inum hi]
    by_cases hIn : inum = (s.inode ip).inum
    · rw [if_pos hIn, if_pos hIn, if_pos hIn]
      dsimp only
      rw [patch_append]
    · rw [if_neg hIn, if_neg hIn, if_neg hIn]
  keep p hp hNz := by
    have hKeep := h.keep p hp hNz
    rw [h'.keep p hp (by rwa [hKeep]), hKeep]
  mapped j hj := by
    by_cases hLt : j < src.length
    · have hPos : posOf ((off + j) / bsize) < npos :=
        posOf_lt (Nat.div_lt_of_lt_mul (by rw [Nat.mul_comm]; omega))
      rw [h'.keep _ hPos (h.mapped j hLt)]
      exact h.mapped j hLt
    · rw [List.length_append] at hj
      have := h'.mapped (j - src.length) (by omega)
      rwa [show off + src.length + (j - src.length) = off + j by omega] at this
  same hMap := by
    rw [List.length_append] at hMap
    have hFirst := h.same fun j hj => hMap j (by omega)
    rw [h'.same fun j hj => ?_, hFirst]
    have hPos : posOf ((off + src.length + j) / bsize) < npos :=
      posOf_lt (Nat.div_lt_of_lt_mul (by rw [Nat.mul_comm]; omega))
    have := hMap (src.length + j) (by omega)
    rw [← Nat.add_assoc] at this
    rw [h.keep _ hPos this]
    exact this
  rest inum hi hne p := (h'.rest inum hi (by rwa [h.touches.inum_eq]) p).trans (h.rest inum hi hne p)

theorem AFile.setBlock_patch {f : AFile} {off m : Nat} {blk : Block} {chunk : List UInt8}
    (hLen : chunk.length = m) (hm : off % bsize + m ≤ bsize)
    (hBlk : ∀ j, j / bsize = off / bsize → f.byte j = blk (j % bsize)) :
    f.setBlock (off / bsize) (patch blk (off % bsize) chunk) = { f with byte := patch f.byte off chunk } := by
  simp only [AFile.setBlock]
  congr 1
  funext j
  have hj := Nat.div_add_mod j bsize
  have hOff := Nat.div_add_mod off bsize
  by_cases hIn : off ≤ j ∧ j < off + m
  · have hDiv : j / bsize = off / bsize := by
      have : (off + (j - off)) / bsize = off / bsize := div_add_eq (by omega)
      rwa [Nat.add_sub_cancel' hIn.1] at this
    have hMod : j % bsize = off % bsize + (j - off) := by
      have : (off + (j - off)) % bsize = off % bsize + (j - off) := mod_add_eq (by omega)
      rwa [Nat.add_sub_cancel' hIn.1] at this
    rw [if_pos hDiv, patch_of_mem (by omega) (by omega), patch_of_mem hIn.1 (by omega)]
    congr 1
    omega
  · rw [patch_of_not_mem (b := f.byte) (by omega)]
    by_cases hDiv : j / bsize = off / bsize
    · rw [if_pos hDiv, hBlk j hDiv]
      rw [hDiv] at hj
      exact patch_of_not_mem (by omega)
    · rw [if_neg hDiv]

theorem Wrote.chunk {off m : Nat} {chunk : List UInt8} (hl : LiveSlot s ip)
    (hType : (s.inode ip).di.type ≠ 0) (hC : CacheInv sb s) (hBn : off / bsize < maxfile)
    (h₁ : Mapped M H ip (posOf (off / bsize)) addr s s₁) (hLen : chunk.length = m)
    (hPos : 0 < m) (hm : off % bsize + m ≤ bsize)
    (hs : Stores s₁ s' (Function.update (home s₁) addr (patch (home s₁ addr) (off % bsize) chunk))) :
    Wrote M H ip off chunk s s' := by
  have hl₁ := h₁.touches.live hl
  have hType₁ := h₁.reads.type hType
  have hInum := h₁.touches.inum_eq
  have hi : (s.inode ip).inum < sb.ninodes := hC.inum ip hl.lt hl.ref
  obtain ⟨hSound, hTouch, hPtrs, hRest, hFiles⟩ := h₁.sound.dataWrite hl₁ hType₁ hBn h₁.eq h₁.nz hs
  have hDi : (s'.inode ip).di = (s₁.inode ip).di := by rw [hs.inode]
  refine ⟨h₁.touches.trans hTouch, hSound, by rw [hDi, h₁.fields], ?_, ?_, ?_, ?_, fun inum hi' hne p => ?_⟩
  · intro inum hi'
    rw [hFiles inum hi', hInum, h₁.files inum hi']
    by_cases hIn : inum = (s.inode ip).inum
    · rw [if_pos hIn, if_pos hIn]
      apply AFile.setBlock_patch hLen hm
      intro j hj
      have hNz : ptr (home s₁) (s₁.inode ip).di (posOf (j / bsize)) ≠ 0 := by
        rw [hj, h₁.eq]
        exact h₁.nz
      rw [hIn, ← h₁.files _ hi, ← hInum, h₁.sound.cache.byte_eq hl₁ hType₁ (by rwa [hj]) hNz, hj, h₁.eq]
    · rw [if_neg hIn, if_neg hIn]
  · intro p hp hNz
    rw [hDi, hPtrs, h₁.keep p hp hNz]
  · intro j hj
    rw [hDi, hPtrs, div_add_eq (by omega), h₁.eq]
    exact h₁.nz
  · intro hMap
    rw [hDi]
    have := hMap 0 (by omega)
    rw [Nat.add_zero] at this
    rw [(h₁.same this).2]
  · exact (hRest inum hi' (by rwa [hInum]) p).trans (h₁.rest inum hi' hne p)

theorem wp_writeiFrom (hR : Relies M R) (hG : Geom sb) (fuel : Nat) {off : Nat} {src : List UInt8}
    (h : Steady M s H) (hl : LiveSlot s ip) (hType : (s.inode ip).di.type ≠ 0) (hn : src.length ≤ fuel)
    (hMax : off + src.length ≤ maxfile * bsize) {Q : Unit → Kern → Prop}
    (hQ : ∀ s', Wrote M H ip off src s s' → Q () s') : wp R (writeiFrom ip fuel off src) Q s := by
  induction fuel generalizing s off src Q with
  | zero =>
    obtain rfl : src = [] := List.length_eq_zero_iff.mp (by omega)
    exact hQ s (.nil h off)
  | succ fuel ih =>
    rw [writeiFrom]
    by_cases hz : src = []
    · rw [if_pos hz, wp_pure]
      subst hz
      exact hQ s (.nil h off)
    rw [if_neg hz, wp_bind]
    have hPosLen : 0 < src.length := List.length_pos_iff.mpr hz
    have hBn : off / bsize < maxfile := Nat.div_lt_of_lt_mul (by rw [Nat.mul_comm]; omega)
    apply wp_bmap hR hG h hl hType hBn
    intro addr s₁ h₁
    have hData : addr < sb.size - sb.nlog := h₁.lt_log hl hType hBn
    generalize hm : min src.length (bsize - off % bsize) = m
    have hMod : off % bsize < bsize := Nat.mod_lt _ (by decide)
    rw [wp_bind]
    apply wp_bread hR.stop h₁.sound.mounted.log (h₁.sound.mounted.not_holds hData)
    intro s₂ h₂
    have hM₂ := h₁.sound.mounted.stores_self h₂
    dsimp only
    rw [wp_bind]
    apply wp_logWriteBuf hR.stop hM₂.log (hM₂.not_holds hData)
    intro s₃ h₃
    rw [wp_bind]
    apply wp_brelse hR.stop h₃.log
    intro s₄ h₄
    have h₄' := (h₂.trans h₃).trans h₄
    rw [h₃.home, h₂.home] at h₄'
    have hTake : (src.take m).length = m := by
      rw [List.length_take]
      omega
    have hW : Wrote M H ip off (src.take m) s s₄ :=
      .chunk hl hType h.cache hBn h₁ hTake (by omega) (by omega) h₄'
    have hDrop : (src.drop m).length = src.length - m := List.length_drop ..
    apply ih hW.sound (hW.touches.live hl) (by rw [hW.fields]; exact hType) (by omega) (by omega)
    intro s₅ h₅
    have hAll := hW.append (by rwa [hTake]) (by omega)
    rw [List.take_append_drop] at hAll
    exact hQ s₅ hAll

end Write

end Xv6Rpi.Fs
