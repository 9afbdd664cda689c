import Xv6Rpi.Fs.Update

/-! # Truncating a file

`itrunc` gives back every block of a file. The direct pointers are dropped one by one. The
entries of the indirect block stay where they are until the block itself is given back,
so their blocks are held by the function from the beginning of that loop.
-/

namespace Xv6Rpi.Fs

open Prog

structure Frees (sb : Superblock) (s s' : Kern) : Prop where
  inode : s'.inode = s.inode
  file : s'.file = s.file
  proc : s'.proc = s.proc
  devsw : s'.devsw = s.devsw
  busy : s'.log.busy = s.log.busy
  mounted : Mounted sb s'
  low : ∀ b < dataStart sb, bit sb (home s') b = bit sb (home s) b
  same : ∀ x, x < sb.ninodes / ipb + 3 ∨ dataStart sb ≤ x → home s' x = home s x

section Frees

variable {R : Rely Kern Stop Label} {sb : Superblock} {s s₁ s' : Kern} {d : Disk} {D : Nat → Dinode} {H : Set Nat}
  {b inum : Nat}

theorem Frees.refl (h : Mounted sb s) : Frees sb s s :=
  ⟨rfl, rfl, rfl, rfl, rfl, h, fun _ _ => rfl, fun _ _ => rfl⟩

theorem Frees.trans (h : Frees sb s s₁) (h' : Frees sb s₁ s') : Frees sb s s' where
  inode := h'.inode.trans h.inode
  file := h'.file.trans h.file
  proc := h'.proc.trans h.proc
  devsw := h'.devsw.trans h.devsw
  busy := h'.busy.trans h.busy
  mounted := h'.mounted
  low b hb := (h'.low b hb).trans (h.low b hb)
  same x hx := (h'.same x hx).trans (h.same x hx)

theorem Frees.of_stores_self (h : Mounted sb s) (hs : Stores s s' (home s)) : Frees sb s s' where
  inode := hs.inode
  file := hs.file
  proc := hs.proc
  devsw := hs.devsw
  busy := hs.busy
  mounted := h.stores_self hs
  low b _ := by rw [hs.home]
  same x _ := by rw [hs.home]

theorem markFree_same (hb : b < sb.size) {x : Nat} (hx : x < sb.ninodes / ipb + 3 ∨ dataStart sb ≤ x) :
    markFree sb d b x = d x := by
  have h1 := bblock_ge b sb
  have h2 := bblock_lt hb
  rw [markFree, Function.update_of_ne (by omega)]

theorem Frees.of_markFree (h : Mounted sb s) (hb : InData sb b) (hs : Stores s s' (markFree sb (home s) b)) :
    Frees sb s s' where
  inode := hs.inode
  file := hs.file
  proc := hs.proc
  devsw := hs.devsw
  busy := hs.busy
  mounted := by
    refine h.stores hs ?_
    rw [markFree_same hb.lt_size (Or.inl (Nat.lt_add_left _ (by decide))), h.super]
  low b' hb' := by
    have hne : b' ≠ b := (hb'.trans_le hb.1).ne
    rw [hs.home, bit_markFree, decide_eq_true hne, Bool.and_true]
  same x hx := by rw [hs.home, markFree_same hb.lt_size hx]

theorem Frees.dinodeOf (h : Frees sb s s') (hi : inum < sb.ninodes) :
    dinodeOf (home s') inum = dinodeOf (home s) inum := by
  rw [Fs.dinodeOf, h.same _ (Or.inl (iblock_lt hi)), Fs.dinodeOf]

theorem Frees.eff (h : Frees sb s s') (hi : inum < sb.ninodes) : eff s' inum = eff s inum :=
  eff_congr h.inode (h.dinodeOf hi)

theorem Frees.touches (h : Frees sb s s') (ip : Nat) : Touches sb ip s s' where
  file := h.file
  proc := h.proc
  devsw := h.devsw
  busy := h.busy
  others j _ := by rw [h.inode]
  slot := by rw [h.inode]
  disk _ := h.dinodeOf

theorem Own.agree_of_same (h : Own sb d D H) {d' : Disk}
    (hSame : ∀ x, x < sb.ninodes / ipb + 3 ∨ dataStart sb ≤ x → d' x = d x) (hi : inum < sb.ninodes)
    (hType : (D inum).type ≠ 0) : Agree d d' (D inum) :=
  h.agree hi hType fun x hx _ _ => hSame x (Or.inr hx.1)

theorem Own.ptrOf_of_same (h : Own sb d D H) {d' : Disk}
    (hSame : ∀ x, x < sb.ninodes / ipb + 3 ∨ dataStart sb ≤ x → d' x = d x) {r : Nat × Nat} (hr : ValidRef sb r) :
    ptrOf d' D r = ptrOf d D r :=
  Own.ptrOf_agree (fun _ hi hType => h.agree_of_same hSame hi hType) hr

theorem Own.held_bit (h : Own sb d D H) (hb : b ∈ H) : InData sb b ∧ bit sb d b = true :=
  ⟨(h.held b hb).1, (h.bits b (h.held b hb).1).mpr (Or.inr hb)⟩

theorem wp_bfree_held (hR : Allows R) (hG : Geom sb) (hM : Mounted sb s) (h : Own sb (home s) D (insert b H))
    (hb : b ∉ H) {Q : Unit → Kern → Prop}
    (hQ : ∀ s', Frees sb s s' → Own sb (home s') D H → Q () s') : wp R (bfree b) Q s := by
  obtain ⟨hData, hBit⟩ := h.held_bit (Set.mem_insert b H)
  apply wp_bfree hR hG hM hData hBit
  intro s' hs
  have hF : Frees sb s s' := .of_markFree hM hData hs
  refine hQ s' hF (h.give hb (fun r hr => h.ptrOf_of_same hF.same hr) fun b' _ => ?_)
  rw [hs.home, bit_markFree]

end Frees

section Direct

variable {R : Rely Kern Stop Label} {sb : Superblock} {M : LowBits sb} {d d' : Disk} {D D' : Nat → Dinode}
  {H : Set Nat} {s s' : Kern} {r₀ : Nat × Nat} {b ip : Nat}

theorem Own.release (h : Own sb d D H) (hr₀ : ValidRef sb r₀) (hNz : ptrOf d D r₀ ≠ 0)
    (hNew : ptrOf d D' r₀ = 0) (hPtr : ∀ r, ValidRef sb r → r ≠ r₀ → ptrOf d D' r = ptrOf d D r)
    (hSame : ∀ r, ValidRef sb r → ptrOf d' D' r = ptrOf d D' r)
    (hBit : ∀ b < sb.size, bit sb d' b = (bit sb d b && decide (b ≠ ptrOf d D r₀))) : Own sb d' D' H := by
  have hDrop := h.drop fun r hr => show ptrOf d D' r = ptrOf d D r ∨ ptrOf d D' r = 0 by
    by_cases hEq : r = r₀
    · rw [hEq]
      exact Or.inr hNew
    · exact Or.inl (hPtr r hr hEq)
  have hHeld : H ∪ {b | b ≠ 0 ∧ ∃ r, ValidRef sb r ∧ ptrOf d D r = b ∧ ptrOf d D' r = 0} =
      insert (ptrOf d D r₀) H := by
    ext b
    simp only [Set.mem_union, Set.mem_ofPred_eq, Set.mem_insert_iff]
    constructor
    · rintro (hIn | ⟨hb, r, hr, rfl, hz⟩)
      · exact Or.inr hIn
      · by_cases hEq : r = r₀
        · exact Or.inl (by rw [hEq])
        · rw [hPtr r hr hEq] at hz
          exact absurd hz hb
    · rintro (rfl | hIn)
      · exact Or.inr ⟨hNz, r₀, hr₀, rfl, hNew⟩
      · exact Or.inl hIn
  rw [hHeld] at hDrop
  exact hDrop.give (fun hIn => (h.held _ hIn).2 r₀ hr₀ rfl) hSame hBit

/-- The first `n` addresses of the inode in `ip` have been dropped, with their blocks. -/
structure Cut {sb : Superblock} (M : LowBits sb) (H : Set Nat) (ip n : Nat) (s s' : Kern) : Prop where
  touches : Touches sb ip s s'
  di : (s'.inode ip).di =
    { (s.inode ip).di with addrs := fun k => if k < n then 0 else (s.inode ip).di.addrs k }
  sound : Steady M s' H
  same : ∀ x, x < sb.ninodes / ipb + 3 ∨ dataStart sb ≤ x → home s' x = home s x

theorem Cut.refl (h : Steady M s H) (ip : Nat) : Cut M H ip 0 s s := ⟨.refl .., rfl, h, fun _ _ => rfl⟩

def Dinode.dropAddr (di : Dinode) (k : Nat) : Dinode := { di with addrs := Function.update di.addrs k 0 }

theorem ptr_dropAddr {di : Dinode} {k pos : Nat} (hk : k < ndirect) :
    ptr d (di.dropAddr k) pos = if pos = k then 0 else ptr d di pos := by
  have hInd : Function.update di.addrs k 0 ndirect = di.addrs ndirect := Function.update_of_ne hk.ne' ..
  simp only [ptr, Dinode.dropAddr, hInd]
  by_cases hEq : pos = k
  · rw [if_pos hEq, hEq, if_pos hk.le, Function.update_self]
  · rw [if_neg hEq, Function.update_of_ne hEq]

/-- Changing the copy of an inode after blocks have been given back. -/
theorem Frees.eff_setDi (h : Frees sb s s') (hC : CacheInv sb s) (hl : LiveSlot s ip) (di : Dinode) {inum : Nat}
    (hi : inum < sb.ninodes) :
    Fs.eff (setDi s' ip di) inum = if inum = (s.inode ip).inum then di else Fs.eff s inum := by
  rw [(hC.congr h.inode).eff_setDi (hl.congr h.inode), h.inode, h.eff hi]

theorem wp_truncAddr (hR : Allows R) (hG : Geom sb) (h : Steady M s H) (hl : LiveSlot s ip)
    (hType : (s.inode ip).di.type ≠ 0) {k : Nat} (hk : k < ndirect) (hNz : (s.inode ip).di.addrs k ≠ 0)
    {Q : Unit → Kern → Prop}
    (hQ : ∀ s', Touches sb ip s s' → (s'.inode ip).di = (s.inode ip).di.dropAddr k → Steady M s' H →
      (∀ x, x < sb.ninodes / ipb + 3 ∨ dataStart sb ≤ x → home s' x = home s x) → Q () s') :
    wp R (bfree ((s.inode ip).di.addrs k))
      (fun r s₁ => Q r (setDi s₁ ip ((s₁.inode ip).di.dropAddr k))) s := by
  have hi : (s.inode ip).inum < sb.ninodes := h.cache.inum ip hl.lt hl.ref
  have hDi : eff s (s.inode ip).inum = (s.inode ip).di := h.cache.eff_live hl
  have hRef : ValidRef sb ((s.inode ip).inum, k) := ⟨hi, hk.trans (by decide)⟩
  have hOld : ptrOf (home s) (eff s) ((s.inode ip).inum, k) = (s.inode ip).di.addrs k := by
    rw [ptrOf_of_type (by rwa [hDi]), hDi, ptr_le hk.le]
  have hNz' : ptrOf (home s) (eff s) ((s.inode ip).inum, k) ≠ 0 := by rwa [hOld]
  have hData : InData sb ((s.inode ip).di.addrs k) := by
    have := h.own.data _ hRef hNz'
    rwa [hOld] at this
  have hBit : bit sb (home s) ((s.inode ip).di.addrs k) = true := by
    have := h.own.ptr_bit hRef hNz'
    rwa [hOld] at this
  apply wp_bfree hR hG h.mounted hData hBit
  intro s₁ h₁
  have hF : Frees sb s s₁ := .of_markFree h.mounted hData h₁
  have hDi₁ : (s₁.inode ip).di = (s.inode ip).di := by rw [hF.inode]
  rw [hDi₁]
  have hEff : ∀ inum < sb.ninodes, eff (setDi s₁ ip ((s.inode ip).di.dropAddr k)) inum =
      if inum = (s.inode ip).inum then (s.inode ip).di.dropAddr k else eff s inum :=
    fun inum hi' => hF.eff_setDi h.cache hl _ hi'
  have hPtr : ∀ r, ValidRef sb r → ptrOf (home s) (eff (setDi s₁ ip ((s.inode ip).di.dropAddr k))) r =
      if r = ((s.inode ip).inum, k) then 0 else ptrOf (home s) (eff s) r := by
    intro r hr
    rw [ptrOf, hEff r.1 hr.1]
    by_cases hIn : r.1 = (s.inode ip).inum
    · have hIff : r = ((s.inode ip).inum, k) ↔ r.2 = k := by rw [Prod.ext_iff, and_iff_right hIn]
      have hType' : ((s.inode ip).di.dropAddr k).type ≠ 0 := hType
      rw [if_pos hIn, ptrOf, hIn, hDi, ptr_dropAddr hk, if_neg hType', if_neg hType]
      simp only [hIff]
    · have hne : r ≠ ((s.inode ip).inum, k) := fun hEq => hIn (congrArg Prod.fst hEq)
      rw [if_neg hIn, if_neg hne, ptrOf]
  have hOwn : Own sb (home s₁) (eff (setDi s₁ ip ((s.inode ip).di.dropAddr k))) H := by
    refine h.own.release hRef hNz' ?_ (fun r hr hne => ?_) (fun r hr => ?_) fun b _ => ?_
    · rw [hPtr _ hRef, if_pos rfl]
    · rw [hPtr r hr, if_neg hne]
    · refine Own.ptrOf_agree (fun inum hi' hType' => ?_) hr
      intro pos hPos hNz₂
      have hEq : ptrOf (home s) (eff (setDi s₁ ip ((s.inode ip).di.dropAddr k))) (inum, pos) =
          ptr (home s) (eff (setDi s₁ ip ((s.inode ip).di.dropAddr k)) inum) pos := ptrOf_of_type hType'
      rw [← hEq] at hNz₂ ⊢
      rw [hPtr _ ⟨hi', hPos⟩] at hNz₂ ⊢
      split at hNz₂
      · exact absurd rfl hNz₂
      · rename_i hne
        rw [if_neg hne]
        exact hF.same _ (Or.inr (h.own.data _ ⟨hi', hPos⟩ hNz₂).1)
    · rw [h₁.home, bit_markFree, hOld]
  refine hQ _ ((hF.touches ip).trans (.setDi _)) ?_ ⟨⟨?_, ?_, hOwn⟩, M.stable _ _ hF.low h.low⟩ hF.same
  · rw [setDi_self]
  · exact ⟨hF.mounted.start, hF.mounted.size, hF.mounted.super, hF.mounted.log⟩
  · exact (h.cache.congr hF.inode).setDi ((h.cache.ok ip hl).setAddr hk.le (by decide))

theorem Cut.succ {s₁ : Kern} {n : Nat} (h : Cut M H ip n s s₁) (hT : Touches sb ip s₁ s')
    (hDi : (s'.inode ip).di = (s₁.inode ip).di.dropAddr n) (hSound : Steady M s' H)
    (hSame : ∀ x, x < sb.ninodes / ipb + 3 ∨ dataStart sb ≤ x → home s' x = home s₁ x) :
    Cut M H ip (n + 1) s s' where
  touches := h.touches.trans hT
  di := by
    rw [hDi, h.di, Dinode.dropAddr]
    congr 1
    funext k
    by_cases hk : k = n
    · rw [hk, Function.update_self, if_pos (Nat.lt_succ_self n)]
    · have hIff : k < n + 1 ↔ k < n := by omega
      rw [Function.update_of_ne hk]
      simp only [hIff]
  sound := hSound
  same x hx := (hSame x hx).trans (h.same x hx)

theorem Cut.skip {n : Nat} (h : Cut M H ip n s s') (hz : (s'.inode ip).di.addrs n = 0) : Cut M H ip (n + 1) s s' := by
  refine h.succ (.refl ..) ?_ h.sound fun _ _ => rfl
  rw [Dinode.dropAddr, Function.update_eq_self_iff.mpr hz.symm]

theorem wp_truncDirect (hR : Allows R) (hG : Geom sb) (hl : LiveSlot s ip) (hType : (s.inode ip).di.type ≠ 0)
    {s₁ : Kern} {k : Nat} (hk : k ≤ ndirect) (h : Cut M H ip (ndirect - k) s s₁) {Q : Unit → Kern → Prop}
    (hQ : ∀ s', Cut M H ip ndirect s s' → Q () s') : wp R (truncDirect ip k) Q s₁ := by
  induction k generalizing s₁ with
  | zero => exact hQ s₁ h
  | succ k ih =>
    have hLt : ndirect - (k + 1) < ndirect := by omega
    have hNext : ndirect - (k + 1) + 1 = ndirect - k := by omega
    have hType₁ : (s₁.inode ip).di.type ≠ 0 := by rwa [h.di]
    rw [truncDirect, wp_bind]
    apply wp_getK hR
    by_cases hz : (s₁.inode ip).di.addrs (ndirect - (k + 1)) = 0
    · rw [if_neg (not_not.mpr hz)]
      exact ih (by omega) (hNext ▸ h.skip hz)
    · rw [if_pos hz, wp_bind]
      refine wp_mono (wp_truncAddr hR hG h.sound (h.touches.live hl) hType₁ hLt hz
        (Q := fun _ s₂ => wp R (truncDirect ip k) Q s₂) fun s₂ hT hDi hSound hSame => ?_) fun _ s₂ h₂ => ?_
      · exact ih (by omega) (hNext ▸ h.succ hT hDi hSound hSame)
      · rw [wp_bind]
        exact wp_modifyK hR h₂

end Direct

section Indirect

variable {R : Rely Kern Stop Label} {sb : Superblock} {M : LowBits sb} {d : Disk} {D : Nat → Dinode}
  {H K : Set Nat} {s s' : Kern} {bp : Block} {b ip inum j k : Nat}

def entriesFrom (bp : Block) (j : Nat) : Set Nat :=
  {b | b ≠ 0 ∧ ∃ i, j ≤ i ∧ i < nindirect ∧ getWord bp (4 * i) = b}

theorem mem_entriesFrom : b ∈ entriesFrom bp j ↔ b ≠ 0 ∧ ∃ i, j ≤ i ∧ i < nindirect ∧ getWord bp (4 * i) = b :=
  Iff.rfl

theorem entriesFrom_end (h : nindirect ≤ j) : entriesFrom bp j = ∅ := by
  ext b
  rw [mem_entriesFrom, Set.mem_empty_iff_false, iff_false]
  rintro ⟨_, i, h1, h2, _⟩
  omega

theorem entriesFrom_zero (hj : j < nindirect) (hz : getWord bp (4 * j) = 0) :
    entriesFrom bp j = entriesFrom bp (j + 1) := by
  ext b
  rw [mem_entriesFrom, mem_entriesFrom]
  refine and_congr_right fun hb => exists_congr fun i => ?_
  constructor
  · rintro ⟨h1, h2, rfl⟩
    have hne : i ≠ j := by
      rintro rfl
      exact hb hz
    exact ⟨by omega, h2, rfl⟩
  · rintro ⟨h1, h2, h3⟩
    exact ⟨by omega, h2, h3⟩

theorem entriesFrom_succ (hj : j < nindirect) (hNz : getWord bp (4 * j) ≠ 0) :
    entriesFrom bp j = insert (getWord bp (4 * j)) (entriesFrom bp (j + 1)) := by
  ext b
  rw [Set.mem_insert_iff, mem_entriesFrom, mem_entriesFrom]
  constructor
  · rintro ⟨hb, i, h1, h2, rfl⟩
    by_cases hEq : i = j
    · exact Or.inl (by rw [hEq])
    · exact Or.inr ⟨hb, i, by omega, h2, rfl⟩
  · rintro (rfl | ⟨hb, i, h1, h2, rfl⟩)
    · exact ⟨hNz, j, le_rfl, hj, rfl⟩
    · exact ⟨hb, i, by omega, h2, rfl⟩

structure Entries (bp : Block) (K : Set Nat) : Prop where
  inj : ∀ i < nindirect, ∀ j < nindirect, getWord bp (4 * i) = getWord bp (4 * j) → getWord bp (4 * i) ≠ 0 → i = j
  out : ∀ i < nindirect, getWord bp (4 * i) ≠ 0 → getWord bp (4 * i) ∉ K

theorem Entries.not_mem (h : Entries bp K) (hj : j < nindirect) (hNz : getWord bp (4 * j) ≠ 0) :
    getWord bp (4 * j) ∉ K ∪ entriesFrom bp (j + 1) := by
  rintro (hIn | ⟨_, i, h1, h2, hEq⟩)
  · exact h.out j hj hNz hIn
  · have := h.inj i h2 j hj hEq (by rwa [hEq])
    omega

/-- The loop over the entries of the indirect block gives back the blocks they name. -/
theorem wp_truncIndirect (hR : Allows R) (hG : Geom sb) (hM : Mounted sb s) (hEnt : Entries bp K)
    (hk : k ≤ nindirect) (h : Own sb (home s) D (K ∪ entriesFrom bp (nindirect - k))) {Q : Unit → Kern → Prop}
    (hQ : ∀ s', Frees sb s s' → Own sb (home s') D K → Q () s') : wp R (truncIndirect bp k) Q s := by
  induction k generalizing s with
  | zero =>
    rw [entriesFrom_end (by omega), Set.union_empty] at h
    exact hQ s (.refl hM) h
  | succ k ih =>
    have hLt : nindirect - (k + 1) < nindirect := by omega
    have hNext : nindirect - (k + 1) + 1 = nindirect - k := by omega
    rw [truncIndirect]
    by_cases hz : getWord bp (4 * (nindirect - (k + 1))) = 0
    · rw [entriesFrom_zero hLt hz, hNext] at h
      rw [if_neg (not_not.mpr hz)]
      exact ih hM (by omega) h hQ
    · have hOut := hEnt.not_mem hLt hz
      rw [entriesFrom_succ hLt hz, Set.union_insert, hNext] at h
      rw [hNext] at hOut
      rw [if_pos hz, wp_bind]
      apply wp_bfree_held hR hG hM h hOut
      intro s₁ hF hOwn
      exact ih hF.mounted (by omega) hOwn fun s' hF' => hQ s' (hF.trans hF')

def dropIndirect (D : Nat → Dinode) (inum : Nat) : Nat → Dinode :=
  Function.update D inum ((D inum).dropAddr ndirect)

theorem ptrOf_dropIndirect (hType : (D inum).type ≠ 0) (r : Nat × Nat) :
    ptrOf d (dropIndirect D inum) r = if r.1 = inum ∧ ndirect ≤ r.2 then 0 else ptrOf d D r := by
  obtain ⟨i, pos⟩ := r
  by_cases hIn : i = inum
  · subst hIn
    have hHere : dropIndirect D i i = (D i).dropAddr ndirect := Function.update_self ..
    have hType' : (dropIndirect D i i).type ≠ 0 := by rwa [hHere]
    rw [ptrOf_of_type (r := (i, pos)) hType', ptrOf_of_type (r := (i, pos)) hType, hHere]
    simp only [true_and, ptr, Dinode.dropAddr, Function.update_self, if_true]
    by_cases hPos : ndirect ≤ pos
    · rw [if_pos hPos]
      by_cases hEq : pos = ndirect
      · rw [hEq, Function.update_self, if_pos le_rfl]
      · rw [if_neg (by omega)]
    · have hne : pos ≠ ndirect := by omega
      have hLe : pos ≤ ndirect := by omega
      rw [if_neg hPos, if_pos hLe, if_pos hLe, Function.update_of_ne hne]
  · have hNot : ¬(i = inum ∧ ndirect ≤ pos) := fun h => hIn h.1
    have hElse : dropIndirect D inum i = D i := Function.update_of_ne hIn ..
    simp only [if_neg hNot, ptrOf, hElse]

theorem Own.ptrOf_entry (hType : (D inum).type ≠ 0) (hNz : (D inum).addrs ndirect ≠ 0) (i : Nat) :
    ptrOf d D (inum, ndirect + 1 + i) = getWord (d ((D inum).addrs ndirect)) (4 * i) := by
  rw [ptrOf_of_type hType, ptr_gt (by omega) hNz, Nat.add_sub_cancel_left]

/-- The indirect block and the blocks that its entries name go to the holder. -/
theorem Own.takeIndirect (h : Own sb d D H) (hi : inum < sb.ninodes) (hType : (D inum).type ≠ 0)
    (hNz : (D inum).addrs ndirect ≠ 0) :
    Own sb d (dropIndirect D inum)
        (insert ((D inum).addrs ndirect) H ∪ entriesFrom (d ((D inum).addrs ndirect)) 0) ∧
      Entries (d ((D inum).addrs ndirect)) (insert ((D inum).addrs ndirect) H) ∧ (D inum).addrs ndirect ∉ H := by
  have hInd : ptrOf d D (inum, ndirect) = (D inum).addrs ndirect := by rw [ptrOf_of_type hType, ptr_le le_rfl]
  have hRef : ValidRef sb (inum, ndirect) := ⟨hi, indirect_lt⟩
  have hRefs : ∀ i < nindirect, ValidRef sb (inum, ndirect + 1 + i) := fun i hi' => ⟨hi, by
    simp only [npos]
    omega⟩
  have hEntry := fun i => Own.ptrOf_entry (d := d) hType hNz i
  refine ⟨?_, ⟨?_, ?_⟩, ?_⟩
  · have hDrop := h.drop fun r _ => show ptrOf d (dropIndirect D inum) r = ptrOf d D r ∨
        ptrOf d (dropIndirect D inum) r = 0 by
      rw [ptrOf_dropIndirect hType]
      split
      · exact Or.inr rfl
      · exact Or.inl rfl
    convert hDrop using 1
    ext b
    simp only [Set.mem_union, Set.mem_insert_iff, mem_entriesFrom, Set.mem_ofPred_eq, ptrOf_dropIndirect hType]
    constructor
    · rintro ((rfl | hIn) | ⟨hb, i, _, hLt, rfl⟩)
      · exact Or.inr ⟨hNz, _, hRef, hInd, if_pos ⟨rfl, le_rfl⟩⟩
      · exact Or.inl hIn
      · exact Or.inr ⟨hb, _, hRefs i hLt, hEntry i, if_pos ⟨rfl, by dsimp only; omega⟩⟩
    · rintro (hIn | ⟨hb, ⟨i, pos⟩, hr, rfl, hz⟩)
      · exact Or.inl (Or.inr hIn)
      · split at hz
        · rename_i hPos
          obtain ⟨rfl, hLe⟩ := hPos
          dsimp only at hLe
          by_cases hEq : pos = ndirect
          · exact Or.inl (Or.inl (by rw [hEq, hInd]))
          · have hLt := hr.2
            simp only [npos] at hLt
            obtain ⟨n, rfl⟩ : ∃ n, pos = ndirect + 1 + n := ⟨pos - (ndirect + 1), by omega⟩
            exact Or.inr ⟨hb, n, Nat.zero_le _, by omega, (hEntry n).symm⟩
        · exact absurd hz hb
  · intro i hi' j hj hEq hb
    rw [← hEntry, ← hEntry] at hEq
    rw [← hEntry] at hb
    have := h.inj _ _ (hRefs i hi') (hRefs j hj) hEq hb
    have := (Prod.mk.inj this).2
    omega
  · intro i hi' hb hIn
    rw [← hEntry] at hb hIn
    rcases hIn with hEq | hIn
    · have := (Prod.mk.inj (h.inj _ _ (hRefs i hi') hRef (by rw [hEq, hInd]) hb)).2
      omega
    · exact (h.held _ hIn).2 _ (hRefs i hi') rfl
  · intro hIn
    exact (h.held _ hIn).2 _ hRef hInd

end Indirect

section Itrunc

variable {R : Rely Kern Stop Label} {sb : Superblock} {M : LowBits sb} {H : Set Nat} {s s₁ s' : Kern} {ip inum n : Nat}

theorem Cut.last (h : Cut M H ip ndirect s s₁) (hl : LiveSlot s ip) (hF : Frees sb s₁ s')
    (hOwn : Own sb (home s') (dropIndirect (eff s₁) (s.inode ip).inum) H) :
    Cut M H ip (ndirect + 1) s (setDi s' ip ((s₁.inode ip).di.dropAddr ndirect)) := by
  have hl₁ := h.touches.live hl
  have hInum : (s₁.inode ip).inum = (s.inode ip).inum := h.touches.inum_eq
  refine h.succ ((hF.touches ip).trans (.setDi _)) (by rw [setDi_self]) ⟨⟨?_, ?_, ?_⟩, M.stable _ _ hF.low h.sound.low⟩
    hF.same
  · exact ⟨hF.mounted.start, hF.mounted.size, hF.mounted.super, hF.mounted.log⟩
  · exact (h.sound.cache.congr hF.inode).setDi ((h.sound.cache.ok ip hl₁).setAddr le_rfl (by decide))
  · refine hOwn.congr (fun r hr => ?_) fun _ _ => rfl
    have hEff : eff (setDi s' ip ((s₁.inode ip).di.dropAddr ndirect)) r.1 =
        dropIndirect (eff s₁) (s.inode ip).inum r.1 := by
      rw [hF.eff_setDi h.sound.cache hl₁ _ hr.1, hInum, dropIndirect]
      by_cases hIn : r.1 = (s.inode ip).inum
      · rw [if_pos hIn, hIn, Function.update_self, ← hInum, h.sound.cache.eff_live hl₁]
      · rw [if_neg hIn, Function.update_of_ne hIn]
    rw [home_setDi, ptrOf, ptrOf, hEff]

theorem Cut.eff (h : Cut M H ip n s s') (hC : CacheInv sb s) (hl : LiveSlot s ip) (hi : inum < sb.ninodes)
    (hne : inum ≠ (s.inode ip).inum) : Fs.eff s' inum = Fs.eff s inum := by
  rw [h.touches.eff hC hl hi, if_neg hne]

theorem Cut.rest (h : Cut M H ip n s s') (h₀ : Steady M s H) (hl : LiveSlot s ip) (hi : inum < sb.ninodes)
    (hne : inum ≠ (s.inode ip).inum) (p : Nat) :
    ptrOf (home s') (Fs.eff s') (inum, p) = ptrOf (home s) (Fs.eff s) (inum, p) := by
  simp only [ptrOf, h.eff h₀.cache hl hi hne]
  by_cases hz : (Fs.eff s inum).type = 0
  · rw [if_pos hz, if_pos hz]
  · rw [if_neg hz, if_neg hz, (h₀.own.agree_of_same h.same hi hz).ptr]

theorem Cut.files (h : Cut M H ip n s s') (h₀ : Steady M s H) (hl : LiveSlot s ip) (hi : inum < sb.ninodes)
    (hne : inum ≠ (s.inode ip).inum) : files s' inum = files s inum := by
  rw [Fs.files, Fs.files, h.eff h₀.cache hl hi hne]
  by_cases hz : (Fs.eff s inum).type = 0
  · rw [fileOf, fileOf, if_pos hz, if_pos hz]
  · exact (h₀.own.agree_of_same h.same hi hz).fileOf

structure Truncated {sb : Superblock} (M : LowBits sb) (H : Set Nat) (ip : Nat) (s s' : Kern) : Prop where
  file : s'.file = s.file
  proc : s'.proc = s.proc
  devsw : s'.devsw = s.devsw
  busy : s'.log.busy = s.log.busy
  others : ∀ j, j ≠ ip → s'.inode j = s.inode j
  slot : s'.inode ip = { s.inode ip with di := { (s.inode ip).di with size := 0, addrs := fun _ => 0 } }
  sound : Steady M s' H
  disk : ∀ inum < sb.ninodes, dinodeOf (home s') inum =
    if inum = (s.inode ip).inum then (s'.inode ip).di else dinodeOf (home s) inum
  rest : ∀ inum < sb.ninodes, inum ≠ (s.inode ip).inum → ∀ p,
    ptrOf (home s') (Fs.eff s') (inum, p) = ptrOf (home s) (Fs.eff s) (inum, p)
  files : ∀ inum < sb.ninodes, inum ≠ (s.inode ip).inum → files s' inum = files s inum

theorem Truncated.of_cut (h₀ : Steady M s H) (hl : LiveSlot s ip) (h : Cut M H ip (ndirect + 1) s s₁)
    (h' : Updated M H ip (setDi s₁ ip { (s₁.inode ip).di with size := 0 }) s') : Truncated M H ip s s' := by
  have hl₁ := h.touches.live hl
  have hInum := h.touches.inum_eq
  have hAddrs : (s₁.inode ip).di = { (s.inode ip).di with addrs := fun _ => 0 } := by
    have hAll : (fun k => if k < ndirect + 1 then 0 else (s.inode ip).di.addrs k) = fun _ => 0 := by
      funext k
      by_cases hk : k < ndirect + 1
      · rw [if_pos hk]
      · rw [if_neg hk]
        exact (h₀.cache.ok ip hl).rest k (by omega)
    rw [h.di, hAll]
  have hSet : (setDi s₁ ip { (s₁.inode ip).di with size := 0 }).inode ip =
      { s₁.inode ip with di := { (s₁.inode ip).di with size := 0 } } := setDi_self ..
  have hEff : ∀ inum, inum ≠ (s.inode ip).inum →
      Fs.eff (setDi s₁ ip { (s₁.inode ip).di with size := 0 }) inum = Fs.eff s₁ inum := fun inum hne => by
    rw [h.sound.cache.eff_setDi hl₁, hInum, if_neg hne]
  refine ⟨h'.file.trans h.touches.file, h'.proc.trans h.touches.proc, h'.devsw.trans h.touches.devsw,
    h'.busy.trans h.touches.busy, ?_, ?_, h'.sound, ?_, ?_, ?_⟩
  · intro j hj
    rw [h'.inode, setDi_of_ne hj, h.touches.others j hj]
  · rw [h'.inode, hSet, hAddrs, h.touches.slot]
  · intro inum hi
    rw [h'.disk inum hi, h'.inode, hSet]
    dsimp only
    rw [hInum, home_setDi, h.touches.disk inum hi]
  · intro inum hi hne p
    rw [h'.rest inum hi, ← h.rest h₀ hl hi hne p, home_setDi]
    simp only [ptrOf, hEff inum hne]
  · intro inum hi hne
    rw [h'.files inum hi, ← h.files h₀ hl hi hne, Fs.files, Fs.files, home_setDi, hEff inum hne]

theorem wp_itrunc (hR : Allows R) (hG : Geom sb) (h : Steady M s H) (hl : LiveSlot s ip)
    (hType : (s.inode ip).di.type ≠ 0) {Q : Unit → Kern → Prop} (hQ : ∀ s', Truncated M H ip s s' → Q () s') :
    wp R (itrunc ip) Q s := by
  -- what is left to do when all pointers are gone
  have hEnd : ∀ s₁, Cut M H ip (ndirect + 1) s s₁ → wp R (do
      modifyDi ip fun di => { di with size := 0 }
      iupdate ip) Q s₁ := by
    intro s₁ h₁
    have hl₁ := h₁.touches.live hl
    rw [wp_bind]
    apply wp_modifyK hR
    have hOk : ({ (s₁.inode ip).di with size := 0 } : Dinode).Ok := (h₁.sound.cache.ok ip hl₁).setSize (by decide)
    apply wp_iupdate hR hG (h₁.sound.setDi_fields hl₁ hOk rfl rfl) (liveSlot_setDi.mpr hl₁)
    intro s' h'
    exact hQ s' (.of_cut h hl h₁ h')
  rw [itrunc, wp_bind]
  apply wp_truncDirect hR hG hl hType le_rfl (by rw [Nat.sub_self]; exact .refl h ip)
  intro s₁ h₁
  have hl₁ := h₁.touches.live hl
  rw [wp_bind]
  apply wp_getK hR
  by_cases hz : (s₁.inode ip).di.addrs ndirect = 0
  · rw [if_neg (not_not.mpr hz)]
    exact hEnd s₁ (h₁.skip hz)
  · have hInum : (s₁.inode ip).inum = (s.inode ip).inum := h₁.touches.inum_eq
    have hDi : eff s₁ (s.inode ip).inum = (s₁.inode ip).di := by rw [← hInum, h₁.sound.cache.eff_live hl₁]
    have hType₁ : (s₁.inode ip).di.type ≠ 0 := by rwa [h₁.di]
    have hData := h₁.sound.indirect_inData hl₁ hType₁ hz
    obtain ⟨hOwn, hEnt, hOut⟩ := h₁.sound.own.takeIndirect (h.cache.inum ip hl.lt hl.ref) (by rwa [hDi])
      (by rwa [hDi])
    rw [hDi] at hOwn hEnt hOut
    rw [if_pos hz, wp_bind]
    apply wp_bread hR h₁.sound.mounted.log (h₁.sound.mounted.not_holds hData.2)
    intro s₂ h₂
    have hF₂ : Frees sb s₁ s₂ := .of_stores_self h₁.sound.mounted h₂
    rw [wp_bind]
    apply wp_truncIndirect hR hG hF₂.mounted hEnt le_rfl (by rw [Nat.sub_self, h₂.home]; exact hOwn)
    intro s₃ hF₃ hOwn₃
    rw [wp_bind]
    apply wp_brelse hR hF₃.mounted.log
    intro s₄ h₄
    have hF₄ : Frees sb s₃ s₄ := .of_stores_self hF₃.mounted h₄
    rw [← h₄.home] at hOwn₃
    rw [wp_bind]
    apply wp_bfree_held hR hG hF₄.mounted hOwn₃ hOut
    intro s₅ hF₅ hOwn₅
    have hF := ((hF₂.trans hF₃).trans hF₄).trans hF₅
    rw [wp_bind]
    apply wp_modifyK hR
    have hLast := h₁.last hl hF hOwn₅
    rw [← hF.inode] at hLast
    exact hEnd _ hLast

end Itrunc

end Xv6Rpi.Fs
