import Xv6Rpi.Fs.Files

/-! # Entries of the inode cache

A function that takes, locks, unlocks or drops an inode changes one entry of the cache and no
block of the file system. The inodes, and with them the files, stay what they are as long as
the entry holds what the disk holds when it is filled and when it is given up.
-/

namespace Xv6Rpi.Fs

open Prog

/-- What is relied on about runs in which every search for a free block ends in the data area. -/
def inData (sb : Superblock) : Rely Kern Stop Label := ⟨fun _ => True, AllocsInData sb, fun _ _ => True⟩

instance (sb : Superblock) (P : Kern → Prop) : CommitsIn (inData sb) P := ⟨fun _ _ => trivial⟩

theorem inData_relies {sb : Superblock} (M : LowBits sb) : Relies M (inData sb) :=
  ⟨⟨fun _ _ _ => trivial, fun _ _ _ => trivial⟩, fun _ hs _ => hs, fun _ _ _ => trivial⟩

structure Reslot (ip : Nat) (s s' : Kern) : Prop where
  file : s'.file = s.file
  proc : s'.proc = s.proc
  devsw : s'.devsw = s.devsw
  start : s'.log.start = s.log.start
  size : s'.log.size = s.log.size
  busy : s'.log.busy = s.log.busy
  log : LogInv s'.log s'.disk
  home : home s' = home s
  others : ∀ j, j ≠ ip → s'.inode j = s.inode j

section Reslot

variable {sb : Superblock} {M : LowBits sb} {H : Set Nat} {s s₁ s' : Kern} {ip inum : Nat} {x : Inode}

theorem Reslot.trans (h : Reslot ip s s₁) (h' : Reslot ip s₁ s') : Reslot ip s s' where
  file := h'.file.trans h.file
  proc := h'.proc.trans h.proc
  devsw := h'.devsw.trans h.devsw
  start := h'.start.trans h.start
  size := h'.size.trans h.size
  busy := h'.busy.trans h.busy
  log := h'.log
  home := h'.home.trans h.home
  others j hj := (h'.others j hj).trans (h.others j hj)

theorem Reslot.of_set (h : LogInv s.log s.disk) (ip : Nat) (x : Inode) : Reslot ip s (setInode s ip x) :=
  ⟨rfl, rfl, rfl, rfl, rfl, rfl, h, rfl, fun _ hj => setInode_of_ne hj x⟩

theorem Reslot.of_stores (h : Stores s s' (Fs.home s)) (ip : Nat) : Reslot ip s s' where
  file := h.file
  proc := h.proc
  devsw := h.devsw
  start := h.start
  size := h.size
  busy := h.busy
  log := h.log
  home := h.home
  others _ _ := by rw [h.inode]

theorem Reslot.mounted (h : Reslot ip s s') (hM : Mounted sb s) : Mounted sb s' :=
  ⟨h.start.trans hM.start, h.size.trans hM.size, by rw [h.home, hM.super], h.log⟩

theorem Reslot.live (h : Reslot ip s s') {j : Nat} (hj : j ≠ ip) : LiveSlot s' j ↔ LiveSlot s j := by
  have hSame := h.others j hj
  exact ⟨fun hl => ⟨hl.lt, hSame ▸ hl.ref, hSame ▸ hl.valid⟩, fun hl => ⟨hl.lt, by rw [hSame]; exact hl.ref,
    by rw [hSame]; exact hl.valid⟩⟩

theorem CacheInv.eff_cases (h : CacheInv sb s) (inum : Nat) :
    (∃ j, LiveSlot s j ∧ (s.inode j).inum = inum ∧ eff s inum = (s.inode j).di) ∨
      (∀ j, LiveSlot s j → (s.inode j).inum ≠ inum) ∧ eff s inum = dinodeOf (home s) inum := by
  cases hSlot : slotOf s inum with
  | some j =>
    obtain ⟨hl, rfl⟩ := slotOf_some hSlot
    exact Or.inl ⟨j, hl, rfl, h.eff_live hl⟩
  | none =>
    refine Or.inr ⟨fun j hl => slotOf_none hSlot hl, ?_⟩
    rw [eff, hSlot]

theorem eff_of_dead (h : ∀ j, LiveSlot s j → (s.inode j).inum ≠ inum) : eff s inum = dinodeOf (home s) inum := by
  cases hSlot : slotOf s inum with
  | some j => exact absurd (slotOf_some hSlot).2 (h j (slotOf_some hSlot).1)
  | none => rw [eff, hSlot]

/-- The new contents of the entry agree with the inode, and its old contents were not the
only ones. -/
theorem Reslot.eff (h : Reslot ip s s') (hC : CacheInv sb s) (hC' : CacheInv sb s')
    (hGain : LiveSlot s' ip → (s'.inode ip).di = Fs.eff s (s'.inode ip).inum)
    (hLose : LiveSlot s ip → (LiveSlot s' ip ∧ (s'.inode ip).inum = (s.inode ip).inum) ∨
      (s.inode ip).di = dinodeOf (Fs.home s) (s.inode ip).inum) (inum : Nat) : Fs.eff s' inum = Fs.eff s inum := by
  rcases hC'.eff_cases inum with ⟨j, hl, rfl, hEff⟩ | ⟨hNone, hEff⟩
  · rw [hEff]
    by_cases hj : j = ip
    · subst hj
      exact hGain hl
    · rw [h.others j hj]
      exact (hC.eff_live ((h.live hj).mp hl)).symm
  · rw [hEff, h.home]
    rcases hC.eff_cases inum with ⟨j, hl, rfl, hEff'⟩ | ⟨_, hEff'⟩
    · by_cases hj : j = ip
      · subst hj
        rcases hLose hl with ⟨hl', hInum⟩ | hSynced
        · exact absurd hInum (hNone j hl')
        · rw [hEff', hSynced]
      · have hl' := (h.live hj).mpr hl
        exact absurd (by rw [h.others j hj]) (hNone j hl')
    · exact hEff'.symm

theorem CacheInv.reslot (h : CacheInv sb s) (hs : Reslot ip s s')
    (hUniq : 0 < (s'.inode ip).ref → ∀ j < ninode, j ≠ ip → 0 < (s.inode j).ref → (s.inode j).inum ≠ (s'.inode ip).inum)
    (hInum : 0 < (s'.inode ip).ref → (s'.inode ip).inum < sb.ninodes)
    (hOk : LiveSlot s' ip → (s'.inode ip).di.Ok) : CacheInv sb s' where
  uniq i hi j hj hri hrj hEq := by
    by_cases hip : i = ip
    · by_cases hjp : j = ip
      · rw [hip, hjp]
      · subst hip
        rw [hs.others j hjp] at hrj hEq
        exact absurd hEq.symm (hUniq hri j hj hjp hrj)
    · by_cases hjp : j = ip
      · subst hjp
        rw [hs.others i hip] at hri hEq
        exact absurd hEq (hUniq hrj i hi hip hri)
      · rw [hs.others i hip, hs.others j hjp] at hEq
        rw [hs.others i hip] at hri
        rw [hs.others j hjp] at hrj
        exact h.uniq i hi j hj hri hrj hEq
  inum i hi hr := by
    by_cases hip : i = ip
    · subst hip
      exact hInum hr
    · rw [hs.others i hip] at hr ⊢
      exact h.inum i hi hr
  ok i hl := by
    by_cases hip : i = ip
    · subst hip
      exact hOk hl
    · rw [hs.others i hip]
      exact h.ok i ((hs.live hip).mp hl)

theorem CacheInv.rehold (h : CacheInv sb s) (hs : Reslot ip s s') (hIn : ip < ninode)
    (hRef : 0 < (s'.inode ip).ref → 0 < (s.inode ip).ref) (hInum : (s'.inode ip).inum = (s.inode ip).inum)
    (hOk : LiveSlot s' ip → (s'.inode ip).di.Ok) : CacheInv sb s' := by
  refine h.reslot hs (fun hr j hj hne hrj hEq => ?_) (fun hr => ?_) hOk
  · rw [hInum] at hEq
    exact hne (h.uniq j hj ip hIn hrj (hRef hr) hEq)
  · rw [hInum]
    exact h.inum ip hIn (hRef hr)

theorem Steady.reslot (h : Steady M s H) (hs : Reslot ip s s') (hC : CacheInv sb s')
    (hEff : ∀ inum, eff s' inum = eff s inum) : Steady M s' H := by
  refine ⟨⟨hs.mounted h.mounted, hC, ?_⟩, by rw [hs.home]; exact h.low⟩
  rw [hs.home]
  exact h.own.congr (fun r _ => by rw [ptrOf, ptrOf, hEff]) fun _ _ => rfl

theorem Reslot.files (hs : Reslot ip s s') (hEff : ∀ inum, Fs.eff s' inum = Fs.eff s inum) (inum : Nat) :
    Fs.files s' inum = Fs.files s inum := by
  rw [Fs.files, Fs.files, hs.home, hEff]

end Reslot

structure Locked {sb : Superblock} (M : LowBits sb) (H : Set Nat) (ip : Nat) (s s' : Kern) : Prop where
  reslot : Reslot ip s s'
  sound : Steady M s' H
  eff : ∀ inum, eff s' inum = eff s inum
  ref : 0 < (s.inode ip).ref
  slot : s'.inode ip = ⟨(s.inode ip).inum, (s.inode ip).ref, true, true, Fs.eff s (s.inode ip).inum⟩

structure Unlocked {sb : Superblock} (M : LowBits sb) (H : Set Nat) (ip : Nat) (s s' : Kern) : Prop where
  reslot : Reslot ip s s'
  sound : Steady M s' H
  eff : ∀ inum, eff s' inum = eff s inum
  ref : 0 < (s.inode ip).ref
  slot : s'.inode ip = { s.inode ip with busy := false }

section Lock

variable {R : Rely Kern Stop Label} {sb : Superblock} {M : LowBits sb} {H : Set Nat} {s s₁ s' : Kern} {ip : Nat} {x : Inode}

theorem CacheInv.eff_ok (h : CacheInv sb s) (inum : Nat) : (eff s inum).Ok := by
  rcases h.eff_cases inum with ⟨j, hl, -, hEff⟩ | ⟨-, hEff⟩
  · rw [hEff]
    exact h.ok j hl
  · rw [hEff]
    exact dinodeOf_ok _ _

theorem Steady.rehold (h : Steady M s H) (hs : Reslot ip s s') (hIn : ip < ninode) (hRef : 0 < (s.inode ip).ref)
    (hInum : (s'.inode ip).inum = (s.inode ip).inum)
    (hGain : LiveSlot s' ip → (s'.inode ip).di = eff s (s.inode ip).inum)
    (hLose : LiveSlot s ip → LiveSlot s' ip ∨ (s.inode ip).di = dinodeOf (home s) (s.inode ip).inum) :
    Steady M s' H ∧ ∀ inum, eff s' inum = eff s inum := by
  have hC : CacheInv sb s' := h.cache.rehold hs hIn (fun _ => hRef) hInum fun hl => by
    rw [hGain hl]
    exact h.cache.eff_ok _
  have hEff := hs.eff h.cache hC (fun hl => by rw [hGain hl, hInum]) fun hl => (hLose hl).imp_left fun hl' => ⟨hl', hInum⟩
  exact ⟨h.reslot hs hC hEff, hEff⟩

theorem wp_ilock (hR : Allows R) (hG : Geom sb) (h : Steady M s H) (hIn : ip < ninode)
    (hType : (eff s (s.inode ip).inum).type = 0 → R.stop (.panic .ilockNoType)) {Q : Unit → Kern → Prop}
    (hQ : ∀ s', Locked M H ip s s' → ((s.inode ip).valid = false → (eff s (s.inode ip).inum).type ≠ 0) → Q () s') :
    wp R (ilock ip) Q s := by
  rw [ilock, wp_bind]
  apply wp_act hR
  by_cases hRef : (s.inode ip).ref < 1
  · rw [if_pos hRef]
    exact hR.stop _ (by simp) (by simp)
  rw [if_neg hRef]
  by_cases hBusy : (s.inode ip).busy = true
  · rw [if_pos hBusy]
    exact hR.stop _ (by simp) (by simp)
  rw [if_neg hBusy]
  dsimp only
  have hPos : 0 < (s.inode ip).ref := by omega
  have hDone : ∀ s' : Kern, Reslot ip s s' →
      s'.inode ip = ⟨(s.inode ip).inum, (s.inode ip).ref, true, true, eff s (s.inode ip).inum⟩ →
      Locked M H ip s s' := fun s' hs hSlot => by
    obtain ⟨hS, hEff⟩ := h.rehold hs hIn hPos (by rw [hSlot]) (fun _ => by rw [hSlot])
      fun _ => Or.inl ⟨hIn, by rw [hSlot]; exact hPos, by rw [hSlot]⟩
    exact ⟨hs, hS, hEff, hPos, hSlot⟩
  rw [wp_bind]
  apply wp_getK hR
  rw [setInode_self]
  by_cases hValid : (s.inode ip).valid = true
  · have hDi := h.cache.eff_live ⟨hIn, hPos, hValid⟩
    rw [if_neg (by rw [hValid]; decide), wp_pure]
    refine hQ _ (hDone _ (.of_set h.mounted.log ip _) ?_) fun hNot => absurd hNot (by rw [hValid]; decide)
    rw [setInode_self, hDi, hValid]
  · rw [Bool.not_eq_true] at hValid
    have hi := h.cache.inum ip hIn hPos
    have hDead : ∀ j, LiveSlot s j → (s.inode j).inum ≠ (s.inode ip).inum := fun j hl hEq => by
      obtain rfl := h.cache.uniq j hl.lt ip hIn hl.ref hPos hEq
      rw [hl.valid] at hValid
      cases hValid
    have hDi : eff s (s.inode ip).inum = dinodeOf (home s) (s.inode ip).inum := eff_of_dead hDead
    rw [if_pos (by rw [hValid]; rfl), wp_bind]
    apply wp_bread hR (s := setInode s ip { s.inode ip with busy := true }) h.mounted.log
      (h.mounted.not_holds (hG.iblock_lt_log hi))
    intro s₁ h₁
    have hr₁ : Reslot ip s s₁ := (Reslot.of_set h.mounted.log ip _).trans (.of_stores h₁ ip)
    have hSlot₁ : s₁.inode ip = { s.inode ip with busy := true } := by rw [h₁.inode, setInode_self]
    rw [wp_bind]
    apply wp_modifyK hR
    rw [wp_bind]
    apply wp_brelse hR (s := setInode s₁ ip _) h₁.log
    intro s₂ h₂
    have hr₂ := (hr₁.trans (Reslot.of_set h₁.log ip _)).trans (.of_stores h₂ ip)
    rw [wp_bind]
    apply wp_modifyK hR
    rw [wp_bind]
    apply wp_getK hR
    have hr₃ := hr₂.trans (Reslot.of_set h₂.log ip { s₂.inode ip with valid := true })
    have hHome : home (setInode s ip { s.inode ip with busy := true }) = home s := rfl
    have hSlot₃ : (setInode s₂ ip { s₂.inode ip with valid := true }).inode ip =
        ⟨(s.inode ip).inum, (s.inode ip).ref, true, true, eff s (s.inode ip).inum⟩ := by
      rw [setInode_self, h₂.inode, setInode_self, hSlot₁, hDi, hHome]
      rfl
    rw [hSlot₃]
    by_cases hz : (eff s (s.inode ip).inum).type = 0
    · rw [if_pos hz]
      exact wp_act hR (hType hz)
    · rw [if_neg hz, wp_pure]
      exact hQ _ (hDone _ hr₃ hSlot₃) fun _ => hz

theorem wp_iunlock (hR : Allows R) (h : Steady M s H) (hIn : ip < ninode) {Q : Unit → Kern → Prop}
    (hQ : ∀ s', Unlocked M H ip s s' → Q () s') : wp R (iunlock ip) Q s := by
  rw [iunlock]
  apply wp_act hR
  by_cases hBad : (!(s.inode ip).busy) = true ∨ (s.inode ip).ref < 1
  · rw [if_pos hBad]
    exact hR.stop _ (by simp) (by simp)
  · rw [if_neg hBad]
    have hPos : 0 < (s.inode ip).ref := by omega
    have hs : Reslot ip s (setInode s ip { s.inode ip with busy := false }) := .of_set h.mounted.log ip _
    obtain ⟨hS, hEff⟩ := h.rehold hs hIn hPos (by rw [setInode_self])
      (fun hl => by
        have hValid := hl.valid
        rw [setInode_self] at hValid
        rw [setInode_self, h.cache.eff_live ⟨hIn, hPos, hValid⟩])
      fun hl => Or.inl ⟨hIn, by rw [setInode_self]; exact hl.ref, by rw [setInode_self]; exact hl.valid⟩
    exact hQ _ ⟨hs, hS, hEff, hPos, setInode_self ..⟩

end Lock

end Xv6Rpi.Fs
