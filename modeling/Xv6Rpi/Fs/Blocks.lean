import Xv6Rpi.Fs.View

/-! # Who owns a block

The super block splits the disk into inodes, bitmap, data area and log. A block of the
data area is in use exactly if one pointer of one allocated inode names it; while a
function has a block in its hands that no inode names yet, the block counts as held.
-/

namespace Xv6Rpi.Fs

open Prog

def dataStart (sb : Superblock) : Nat := sb.ninodes / ipb + 3 + sb.size / bpb + 1

def InData (sb : Superblock) (b : Nat) : Prop := dataStart sb ≤ b ∧ b < sb.size - sb.nlog

instance (sb : Superblock) (b : Nat) : Decidable (InData sb b) :=
  inferInstanceAs (Decidable (dataStart sb ≤ b ∧ b < sb.size - sb.nlog))

/-- A super block whose data area lies between the bitmap and the log. -/
structure Geom (sb : Superblock) : Prop where
  nlog : sb.nlog ≤ sb.size
  size : sb.size < 2 ^ 32
  fits : dataStart sb ≤ sb.size - sb.nlog

theorem Geom.lt_log {sb : Superblock} (h : Geom sb) {x : Nat} (hx : x < 4) : x < sb.size - sb.nlog := by
  have := h.fits
  simp only [dataStart, ipb_eq, bpb_eq] at this
  omega

section Areas

variable {sb : Superblock} {d : Disk} {b b' i : Nat}

theorem iblock_lt (hi : i < sb.ninodes) : iblock i < sb.ninodes / ipb + 3 := by
  have := Nat.div_le_div_right (c := ipb) (Nat.le_of_lt hi)
  simp only [iblock]
  omega

theorem bblock_ge (b : Nat) (sb : Superblock) : sb.ninodes / ipb + 3 ≤ bblock b sb.ninodes := by
  simp only [bblock, bpb_eq]
  omega

theorem bblock_lt (hb : b < sb.size) : bblock b sb.ninodes < dataStart sb := by
  have := Nat.div_le_div_right (c := bpb) (Nat.le_of_lt hb)
  simp only [bblock, dataStart]
  omega

theorem InData.pos (h : InData sb b) : b ≠ 0 := by
  have := h.1
  simp only [dataStart, ipb_eq, bpb_eq] at this
  omega

theorem InData.ge (h : InData sb b) : sb.ninodes / ipb + 3 ≤ b := by
  have := h.1
  rw [dataStart] at this
  have := Nat.zero_le (sb.size / bpb)
  omega

theorem InData.lt_size (h : InData sb b) : b < sb.size := by
  have := h.2
  omega

/-- Whether the bitmap shows a block as used. -/
def bit (sb : Superblock) (d : Disk) (b : Nat) : Bool := getBit (d (bblock b sb.ninodes)) (b % bpb)

def markUsed (sb : Superblock) (d : Disk) (b : Nat) : Disk :=
  Function.update d (bblock b sb.ninodes) (setBit (d (bblock b sb.ninodes)) (b % bpb))

def markFree (sb : Superblock) (d : Disk) (b : Nat) : Disk :=
  Function.update d (bblock b sb.ninodes) (clearBit (d (bblock b sb.ninodes)) (b % bpb))

theorem bblock_eq_iff : bblock b' sb.ninodes = bblock b sb.ninodes ↔ b' / bpb = b / bpb := by
  simp only [bblock]
  omega

theorem eq_of_bitmap (h : b' / bpb = b / bpb) (h' : b' % bpb = b % bpb) : b' = b := by
  rw [← Nat.div_add_mod b' bpb, ← Nat.div_add_mod b bpb, h, h']

theorem bit_markUsed (sb : Superblock) (d : Disk) (b b' : Nat) :
    bit sb (markUsed sb d b) b' = (bit sb d b' || decide (b' = b)) := by
  rw [bit, bit, markUsed]
  by_cases h : bblock b' sb.ninodes = bblock b sb.ninodes
  · rw [h, Function.update_self, getBit_setBit]
    congr 1
    simp only [decide_eq_decide]
    exact ⟨eq_of_bitmap (bblock_eq_iff.mp h), fun h' => by rw [h']⟩
  · have hne : b' ≠ b := fun h' => h (by rw [h'])
    rw [Function.update_of_ne h, decide_eq_false hne, Bool.or_false]

theorem bit_markFree (sb : Superblock) (d : Disk) (b b' : Nat) :
    bit sb (markFree sb d b) b' = (bit sb d b' && decide (b' ≠ b)) := by
  rw [bit, bit, markFree]
  by_cases h : bblock b' sb.ninodes = bblock b sb.ninodes
  · rw [h, Function.update_self, getBit_clearBit]
    congr 1
    simp only [decide_eq_decide, ne_eq, not_iff_not]
    exact ⟨eq_of_bitmap (bblock_eq_iff.mp h), fun h' => by rw [h']⟩
  · have hne : b' ≠ b := fun h' => h (by rw [h'])
    rw [Function.update_of_ne h, decide_eq_true hne, Bool.and_true]

theorem bit_update {x : Nat} (hb : b < sb.size) (hx : x < sb.ninodes / ipb + 3 ∨ dataStart sb ≤ x)
    (data : Block) : bit sb (Function.update d x data) b = bit sb d b := by
  have h1 := bblock_ge b sb
  have h2 := bblock_lt hb
  rw [bit, Function.update_of_ne (by omega), bit]

end Areas

/-- The lowest block that the bitmap shows as free belongs to the data area. -/
def AllocInData (sb : Superblock) (d : Disk) : Prop :=
  ∀ b < sb.size, bit sb d b = false → (∀ b' < b, bit sb d b' = true) → InData sb b

instance (sb : Superblock) (d : Disk) : Decidable (AllocInData sb d) :=
  inferInstanceAs (Decidable (∀ b < sb.size, bit sb d b = false → (∀ b' < b, bit sb d b' = true) → InData sb b))

/-- A property of the bitmap that only depends on the bits before the data area. -/
structure LowBits (sb : Superblock) where
  holds : Disk → Prop
  stable : ∀ d d', (∀ b < dataStart sb, bit sb d' b = bit sb d b) → holds d → holds d'

/-- The file system described by `sb` is in use. -/
structure Mounted (sb : Superblock) (s : Kern) : Prop where
  start : s.log.start = sb.size - sb.nlog
  size : s.log.size = sb.nlog
  super : decodeSb (home s 1) = sb
  log : LogInv s.log s.disk

/-- The search for a free block is only started where it ends in the data area. -/
structure Relies {sb : Superblock} (M : LowBits sb) (R : Rely Kern Stop Label) : Prop where
  stop : Allows R
  balloc : ∀ s, R.may .balloc s → M.holds (home s) → AllocInData sb (home s)
  must : ∀ s, Mounted sb s → AllocInData sb (home s) → R.must .balloc s

section Mounted

variable {R : Rely Kern Stop Label} {sb : Superblock} {s s' : Kern} {d : Disk} {b x : Nat}

theorem Mounted.not_holds (h : Mounted sb s) (hx : x < sb.size - sb.nlog) : ¬s.log.Holds x := by
  rintro ⟨hLow, _⟩
  rw [h.start] at hLow
  omega

theorem Mounted.stores (h : Mounted sb s) (hs : Stores s s' d) (hd : decodeSb (d 1) = sb) : Mounted sb s' :=
  ⟨hs.start.trans h.start, hs.size.trans h.size, by rw [hs.home, hd], hs.log⟩

theorem Mounted.stores_self (h : Mounted sb s) (hs : Stores s s' (home s)) : Mounted sb s' :=
  h.stores hs h.super

/-- Writing any block other than the super block keeps the file system in use. -/
theorem Mounted.stores_update {data : Block} (h : Mounted sb s)
    (hs : Stores s s' (Function.update (home s) x data)) (hx : 1 < x) : Mounted sb s' :=
  h.stores hs (by rw [Function.update_of_ne (Nat.ne_of_lt hx), h.super])

theorem wp_readsbAs (hR : Allows R) (hG : Geom sb) (h : Mounted sb s) {l : Label} (hMust : R.may l s → R.must l s)
    {Q : Superblock → Kern → Prop} (hQ : ∀ s', R.may l s → Stores s s' (home s) → Q sb s') :
    wp R (readsbAs l) Q s := by
  have hOne : ¬s.log.Holds 1 := h.not_holds (hG.lt_log (by decide))
  rw [readsbAs, wp_bind]
  apply wp_breadAs hR h.log hOne hMust
  intro s₁ hMay h₁
  rw [wp_bind]
  apply wp_brelse hR h₁.log
  intro s₂ h₂
  rw [wp_pure, h.super]
  have h₂' := h₁.trans h₂
  rw [h₁.home] at h₂'
  exact hQ s₂ hMay h₂'

theorem wp_bzero (hR : Allows R) (h : Mounted sb s) (hb : b < sb.size - sb.nlog) {Q : Unit → Kern → Prop}
    (hQ : ∀ s', Stores s s' (Function.update (home s) b zeroBlock) → Q () s') : wp R (bzero b) Q s := by
  rw [bzero, wp_bind]
  apply wp_bread hR h.log (h.not_holds hb)
  intro s₁ h₁
  rw [wp_bind]
  apply wp_logWriteBuf hR h₁.log (by rw [h₁.holds]; exact h.not_holds hb)
  intro s₂ h₂
  apply wp_brelse hR h₂.log
  intro s₃ h₃
  have h₃' := (h₁.trans h₂).trans h₃
  rw [h₂.home, h₁.home] at h₃'
  exact hQ s₃ h₃'

theorem bitmap_add (sb : Superblock) {bi : Nat} (hb : b % bpb = 0) (hbi : bi < bpb) :
    bblock (b + bi) sb.ninodes = bblock b sb.ninodes ∧ (b + bi) % bpb = bi := by
  simp only [bblock, bpb_eq] at *
  omega

theorem wp_ballocFrom (hR : Allows R) (hG : Geom sb) (hM : Mounted sb s)
    (hFirst : AllocInData sb (home s)) {k : Nat} (hb : b % bpb = 0) (hk : b + k * bpb < sb.size + bpb)
    (hLow : ∀ b' < b, b' < sb.size → bit sb (home s) b' = true) {Q : Nat → Kern → Prop}
    (hQ : ∀ b s', InData sb b → bit sb (home s) b = false →
      Stores s s' (Function.update (markUsed sb (home s) b) b zeroBlock) → Q b s') :
    wp R (ballocFrom sb k b) Q s := by
  induction k generalizing b s with
  | zero => exact wp_panic hR (by decide) (by decide)
  | succ k ih =>
    rw [Nat.add_mul, Nat.one_mul] at hk
    have hSize : b < sb.size := by omega
    have hBitmap : bblock b sb.ninodes < sb.size - sb.nlog := (bblock_lt hSize).trans_le hG.fits
    rw [ballocFrom, wp_bind]
    apply wp_bread hR hM.log (hM.not_holds hBitmap)
    intro s₁ h₁
    have hM₁ := hM.stores_self h₁
    cases hFree : firstFree (home s (bblock b sb.ninodes)) (min bpb (sb.size - b)) with
    | some bi =>
      obtain ⟨hbi, hClear⟩ := firstFree_some hFree
      obtain ⟨hBlk, hMod⟩ := bitmap_add sb hb (show bi < bpb by omega)
      have hBit : bit sb (home s) (b + bi) = false := by rw [bit, hBlk, hMod, hClear]
      have hBefore : ∀ b' < b + bi, bit sb (home s) b' = true := fun b' hb' => by
        by_cases hIn : b' < b
        · exact hLow b' hIn (by omega)
        · obtain ⟨hBlk', hMod'⟩ := bitmap_add sb hb (show b' - b < bpb by omega)
          rw [Nat.add_sub_cancel' (by omega)] at hBlk' hMod'
          rw [bit, hBlk', hMod']
          exact firstFree_before hFree (by omega)
      have hData : InData sb (b + bi) := hFirst _ (by omega) hBit hBefore
      dsimp only
      rw [wp_bind]
      apply wp_logWriteBuf hR hM₁.log (hM₁.not_holds hBitmap)
      intro s₂ h₂
      rw [wp_bind]
      apply wp_brelse hR h₂.log
      intro s₃ h₃
      have hMark : Function.update (home s) (bblock b sb.ninodes)
          (setBit (home s (bblock b sb.ninodes)) bi) = markUsed sb (home s) (b + bi) := by
        rw [markUsed, hBlk, hMod]
      have h₃' := (h₁.trans h₂).trans h₃
      rw [h₂.home, h₁.home, hMark] at h₃'
      have hOne : 1 < bblock b sb.ninodes := by
        have := bblock_ge b sb
        rw [ipb_eq] at this
        omega
      have hM₃ : Mounted sb s₃ := hM.stores_update (x := bblock b sb.ninodes) (by rw [hMark]; exact h₃') hOne
      rw [wp_bind]
      apply wp_bzero hR hM₃ hData.2
      intro s₄ h₄
      rw [wp_pure]
      have h₄' := h₃'.trans h₄
      rw [h₃'.home] at h₄'
      exact hQ _ s₄ hData hBit h₄'
    | none =>
      dsimp only
      rw [wp_bind]
      apply wp_brelse hR h₁.log
      intro s₂ h₂
      have h₂' := h₁.trans h₂
      rw [h₁.home] at h₂'
      have hSkip : ∀ b' < b + bpb, b' < sb.size → bit sb (home s) b' = true := fun b' hb' hLt => by
        by_cases hIn : b' < b
        · exact hLow b' hIn hLt
        · obtain ⟨hBlk', hMod'⟩ := bitmap_add sb hb (show b' - b < bpb by omega)
          rw [Nat.add_sub_cancel' (by omega)] at hBlk' hMod'
          rw [bit, hBlk', hMod']
          exact firstFree_none hFree (by omega)
      apply ih (hM.stores_self h₂') (by rwa [h₂'.home]) (by rw [Nat.add_mod_right]; exact hb) (by omega)
        (by rwa [h₂'.home])
      intro b' s' hData hBit h'
      rw [h₂'.home] at hBit h'
      exact hQ b' s' hData hBit (h₂'.trans h')

/-- `balloc` gives out the first free block that the bitmap shows and clears it. -/
theorem wp_balloc {M : LowBits sb} (hR : Relies M R) (hG : Geom sb) (hM : Mounted sb s) (hLow : M.holds (home s))
    {Q : Nat → Kern → Prop}
    (hQ : ∀ b s', InData sb b → bit sb (home s) b = false →
      Stores s s' (Function.update (markUsed sb (home s) b) b zeroBlock) → Q b s') :
    wp R balloc Q s := by
  rw [balloc, wp_bind]
  apply wp_readsbAs hR.stop hG hM fun hMay => hR.must s hM (hR.balloc s hMay hLow)
  intro s₁ hMay h₁
  have hFirst := hR.balloc s hMay hLow
  have hBound : 0 + (sb.size + bpb - 1) / bpb * bpb < sb.size + bpb := by
    have := Nat.div_mul_le_self (sb.size + bpb - 1) bpb
    rw [bpb_eq] at *
    omega
  apply wp_ballocFrom hR.stop hG (hM.stores_self h₁) (by rwa [h₁.home]) (Nat.zero_mod _) hBound
    (fun b' hb' => absurd hb' (Nat.not_lt_zero b'))
  intro b' s' hData hBit h'
  rw [h₁.home] at hBit h'
  exact hQ b' s' hData hBit (h₁.trans h')

theorem wp_bfree (hR : Allows R) (hG : Geom sb) (hM : Mounted sb s) (hb : InData sb b)
    (hBit : bit sb (home s) b = true) {Q : Unit → Kern → Prop}
    (hQ : ∀ s', Stores s s' (markFree sb (home s) b) → Q () s') : wp R (bfree b) Q s := by
  have hBitmap : bblock b sb.ninodes < sb.size - sb.nlog := (bblock_lt hb.lt_size).trans_le hG.fits
  rw [bfree, readsbK, wp_bind]
  apply wp_readsbAs hR hG hM fun _ => hR.must _ _ ⟨Label.noConfusion, Label.noConfusion⟩
  intro s₁ _ h₁
  have hM₁ := hM.stores_self h₁
  rw [wp_bind]
  apply wp_bread hR hM₁.log (hM₁.not_holds hBitmap)
  intro s₂ h₂
  have hM₂ := hM₁.stores_self h₂
  rw [bit] at hBit
  rw [h₁.home, hBit]
  simp only [Bool.not_true, Bool.false_eq_true, if_false]
  rw [wp_bind]
  apply wp_logWriteBuf hR hM₂.log (hM₂.not_holds hBitmap)
  intro s₃ h₃
  apply wp_brelse hR h₃.log
  intro s₄ h₄
  have h₄' := ((h₁.trans h₂).trans h₃).trans h₄
  rw [h₃.home, h₂.home, h₁.home] at h₄'
  exact hQ s₄ h₄'

end Mounted

end Xv6Rpi.Fs
