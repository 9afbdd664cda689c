import Mathlib.Data.Multiset.Count
import Xv6Rpi.Fs.Directory
import Xv6Rpi.Fs.Trunc

/-! # References to cached inodes

Between two calls every copy of an inode in memory is the inode on disk, every file has all
of its blocks, and each reference to a cache entry belongs to somebody. The functions that take
and drop references keep this. An entry that somebody else has locked stays as it is.
-/

namespace Xv6Rpi.Fs

open Prog

/-- All blocks of the file are there, and the entries of a directory name inodes. -/
structure Sane (sb : Superblock) (d : Disk) (di : Dinode) : Prop where
  full : NoHoles d di
  align : di.type = tDir → direntSz ∣ di.size
  entry : di.type = tDir → ∀ i name v, entries (fileOf d di) i = some (name, v) → v < sb.ninodes

/-- Nobody is changing an inode, and `c` are the references that there are to cache entries. -/
structure Fit {sb : Superblock} (M : LowBits sb) (c : Multiset Nat) (s : Kern) : Prop extends Steady M s ∅ where
  synced : ∀ j, LiveSlot s j → (s.inode j).di = dinodeOf (home s) (s.inode j).inum
  typed : ∀ j, LiveSlot s j → (s.inode j).di.type ≠ 0
  sane : ∀ k < sb.ninodes, (eff s k).type ≠ 0 → Sane sb (home s) (eff s k)
  refs : ∀ j < ninode, (s.inode j).ref = c.count j
  lt : ∀ j ∈ c, j < ninode

structure Rests (A : Set Nat) (s s' : Kern) : Prop where
  file : s'.file = s.file
  proc : s'.proc = s.proc
  devsw : s'.devsw = s.devsw
  inum : ∀ j ∈ A, (s'.inode j).inum = (s.inode j).inum
  locked : ∀ j ∈ A, (s.inode j).busy = true → s'.inode j = { s.inode j with ref := (s'.inode j).ref }

structure Looked (s s' : Kern) : Prop where
  home : home s' = home s
  eff : ∀ k, eff s' k = eff s k

section Relations

variable {A B : Set Nat} {s s₁ s' : Kern} {ip j : Nat}

theorem Rests.refl (A : Set Nat) (s : Kern) : Rests A s s := ⟨rfl, rfl, rfl, fun _ _ => rfl, fun _ _ _ => rfl⟩

theorem Rests.trans (h : Rests A s s₁) (h' : Rests A s₁ s') : Rests A s s' where
  file := h'.file.trans h.file
  proc := h'.proc.trans h.proc
  devsw := h'.devsw.trans h.devsw
  inum j hj := (h'.inum j hj).trans (h.inum j hj)
  locked j hj hBusy := by
    have hOld := h.locked j hj hBusy
    have hNew := h'.locked j hj (by rw [hOld]; exact hBusy)
    rw [hNew, hOld]

theorem Rests.mono (h : Rests B s s') (hAB : A ⊆ B) : Rests A s s' :=
  ⟨h.file, h.proc, h.devsw, fun j hj => h.inum j (hAB hj), fun j hj => h.locked j (hAB hj)⟩

theorem Rests.type (h : Rests A s s') (hj : j ∈ A) (hBusy : (s.inode j).busy = true) :
    (s'.inode j).di.type = (s.inode j).di.type := by
  rw [h.locked j hj hBusy]

theorem Rests.none (h : Rests A s s') : Rests ∅ s s' := h.mono (Set.empty_subset A)

theorem Rests.of_others (hFile : s'.file = s.file) (hProc : s'.proc = s.proc) (hDevsw : s'.devsw = s.devsw)
    (hOthers : ∀ j, j ≠ ip → s'.inode j = s.inode j) (hNot : ip ∉ A) : Rests A s s' := by
  have hSame : ∀ j ∈ A, s'.inode j = s.inode j := fun j hj => hOthers j fun hEq => hNot (hEq ▸ hj)
  exact ⟨hFile, hProc, hDevsw, fun j hj => by rw [hSame j hj], fun j hj _ => by rw [hSame j hj]⟩

theorem Looked.refl (s : Kern) : Looked s s := ⟨rfl, fun _ => rfl⟩

theorem Looked.trans (h : Looked s s₁) (h' : Looked s₁ s') : Looked s s' :=
  ⟨h'.home.trans h.home, fun k => (h'.eff k).trans (h.eff k)⟩

theorem Looked.files (h : Looked s s') (k : Nat) : files s' k = files s k := by
  rw [Fs.files, Fs.files, h.home, h.eff]

end Relations

section Fit

variable {sb : Superblock} {M : LowBits sb} {c c' : Multiset Nat} {d d' : Disk} {di : Dinode} {s s' : Kern} {ip j k : Nat}

theorem Sane.congr (h : Sane sb d di) (hFile : fileOf d' di = fileOf d di) (hPtr : ∀ p, ptr d' di p = ptr d di p) :
    Sane sb d' di where
  full := ⟨h.full.size, fun bn hBn => by
    rw [hPtr]
    exact h.full.ptr bn hBn⟩
  align := h.align
  entry := by
    rw [hFile]
    exact h.entry

theorem Fit.eff_eq (h : Fit M c s) (k : Nat) : eff s k = dinodeOf (home s) k := by
  rcases h.cache.eff_cases k with ⟨j, hl, rfl, hEff⟩ | ⟨-, hEff⟩
  · rw [hEff, h.synced j hl]
  · exact hEff

theorem ptrOf_eq {D D' : Nat → Dinode} (h : D' k = D k) {p : Nat} : ptrOf d D' (k, p) = ptrOf d D (k, p) := by
  rw [ptrOf, ptrOf, h]

theorem Fit.ref_pos (h : Fit M c s) (hj : j ∈ c) : 0 < (s.inode j).ref := by
  rw [h.refs j (h.lt j hj), Nat.cast_pos]
  exact Multiset.count_pos.mpr hj

theorem Fit.mem_of_ref (h : Fit M c s) (hIn : j < ninode) (hPos : 0 < (s.inode j).ref) : j ∈ c := by
  rw [h.refs j hIn, Nat.cast_pos] at hPos
  exact Multiset.count_pos.mp hPos

theorem Fit.inum_lt (h : Fit M c s) (hj : j ∈ c) : (s.inode j).inum < sb.ninodes :=
  h.cache.inum j (h.lt j hj) (h.ref_pos hj)

theorem Fit.change (h : Fit M c s) (ip k₀ : Nat) (hS : Steady M s' ∅) (hOthers : ∀ j, j ≠ ip → s'.inode j = s.inode j)
    (hSlots : ∀ j, j ≠ ip → LiveSlot s j → (s.inode j).inum ≠ k₀)
    (hDisk : ∀ k < sb.ninodes, k ≠ k₀ → dinodeOf (home s') k = dinodeOf (home s) k)
    (hPtr : ∀ k < sb.ninodes, k ≠ k₀ → ∀ p, ptrOf (home s') (eff s') (k, p) = ptrOf (home s) (eff s) (k, p))
    (hFiles : ∀ k < sb.ninodes, k ≠ k₀ → files s' k = files s k)
    (hSync : LiveSlot s' ip → (s'.inode ip).di = dinodeOf (home s') (s'.inode ip).inum ∧ (s'.inode ip).di.type ≠ 0)
    (hSane : (dinodeOf (home s') k₀).type ≠ 0 → Sane sb (home s') (dinodeOf (home s') k₀))
    (hRefs : ∀ j < ninode, (s'.inode j).ref = c'.count j) (hLt : ∀ j ∈ c', j < ninode) : Fit M c' s' := by
  have hLive : ∀ j, j ≠ ip → LiveSlot s' j → LiveSlot s j := fun j hj hl =>
    ⟨hl.lt, hOthers j hj ▸ hl.ref, hOthers j hj ▸ hl.valid⟩
  have hSynced : ∀ j, LiveSlot s' j → (s'.inode j).di = dinodeOf (home s') (s'.inode j).inum := fun j hl => by
    by_cases hj : j = ip
    · subst hj
      exact (hSync hl).1
    · have hl' := hLive j hj hl
      rw [hOthers j hj, hDisk _ (h.cache.inum j hl'.lt hl'.ref) (hSlots j hj hl')]
      exact h.synced j hl'
  have hEff : ∀ k, eff s' k = dinodeOf (home s') k := fun k => by
    rcases hS.cache.eff_cases k with ⟨j, hl, rfl, hEff⟩ | ⟨-, hEff⟩
    · rw [hEff, hSynced j hl]
    · exact hEff
  refine ⟨hS, hSynced, fun j hl => ?_, fun k hk hType => ?_, hRefs, hLt⟩
  · by_cases hj : j = ip
    · subst hj
      exact (hSync hl).2
    · rw [hOthers j hj]
      exact h.typed j (hLive j hj hl)
  · by_cases hEq : k = k₀
    · rw [hEff, hEq]
      rw [hEff, hEq] at hType
      exact hSane hType
    · have hSame : eff s' k = eff s k := by rw [hEff, h.eff_eq, hDisk k hk hEq]
      have hOld := hType
      rw [hSame] at hOld
      rw [hSame]
      refine (h.sane k hk hOld).congr ?_ fun p => ?_
      · have := hFiles k hk hEq
        rwa [files, files, hSame] at this
      · have := hPtr k hk hEq p
        rwa [ptrOf_of_type hType, ptrOf_of_type hOld, hSame] at this

theorem Fit.reslot (h : Fit M c s) (c' : Multiset Nat) (hs : Reslot ip s s')
    (hUniq : 0 < (s'.inode ip).ref → ∀ j < ninode, j ≠ ip → 0 < (s.inode j).ref → (s.inode j).inum ≠ (s'.inode ip).inum)
    (hInum : 0 < (s'.inode ip).ref → (s'.inode ip).inum < sb.ninodes)
    (hSync : LiveSlot s' ip → (s'.inode ip).di = dinodeOf (home s) (s'.inode ip).inum ∧ (s'.inode ip).di.type ≠ 0)
    (hRef : ip < ninode → (s'.inode ip).ref = c'.count ip) (hCount : ∀ j, j ≠ ip → c'.count j = c.count j)
    (hLt : ∀ j ∈ c', j < ninode) : Fit M c' s' ∧ Looked s s' := by
  have hC : CacheInv sb s' := h.cache.reslot hs hUniq hInum fun hl => by
    rw [(hSync hl).1]
    exact dinodeOf_ok _ _
  have hEff : ∀ k, eff s' k = eff s k := hs.eff h.cache hC (fun hl => by rw [(hSync hl).1, h.eff_eq])
    fun hl => Or.inr (h.synced ip hl)
  have hLive : ∀ j, j ≠ ip → LiveSlot s' j → LiveSlot s j := fun j hj => (hs.live hj).mp
  refine ⟨⟨h.toSteady.reslot hs hC hEff, fun j hl => ?_, fun j hl => ?_, fun k hk => ?_, fun j hj => ?_, hLt⟩,
    hs.home, hEff⟩
  · rw [hs.home]
    by_cases hj : j = ip
    · subst hj
      exact (hSync hl).1
    · rw [hs.others j hj]
      exact h.synced j (hLive j hj hl)
  · by_cases hj : j = ip
    · subst hj
      exact (hSync hl).2
    · rw [hs.others j hj]
      exact h.typed j (hLive j hj hl)
  · rw [hEff, hs.home]
    exact h.sane k hk
  · by_cases hEq : j = ip
    · rw [hEq] at hj ⊢
      exact hRef hj
    · rw [hs.others j hEq, h.refs j hj, hCount j hEq]

end Fit

abbrev inUse (c : Multiset Nat) : Set Nat := {j | j ∈ c}

section Slots

variable {R : Rely Kern Stop Label} {sb : Superblock} {M : LowBits sb} {c : Multiset Nat} {s s' : Kern} {ip j k p : Nat}

theorem count_cons_other {a b : Nat} (h : b ≠ a) (c : Multiset Nat) : (a ::ₘ c).count b = c.count b :=
  Multiset.count_cons_of_ne h c

theorem wp_act_run (hR : Allows R) {α : Type} {f : Kern → Except Stop (α × Kern)} {Q : α → Kern → Prop}
    (hOk : ∀ a s', (act f).run s = .ok (a, s') → Q a s') (hErr : ∀ e, (act f).run s = .error e → R.stop e) :
    wp R (act f) Q s := by
  have hRun : (act f).run s = f s := by
    rw [act, Prog.single, Prog.run]
    cases f s <;> rfl
  apply wp_act hR
  rw [hRun] at hOk hErr
  cases hf : f s with
  | error e => exact hErr e hf
  | ok r => exact hOk r.1 r.2 hf

/-- A reference is taken to an entry in use; the entry stays as it is otherwise. -/
theorem Fit.take (h : Fit M c s) (hj : j ∈ c) :
    Fit M (j ::ₘ c) (setInode s j { s.inode j with ref := (s.inode j).ref + 1 }) ∧
      Looked s (setInode s j { s.inode j with ref := (s.inode j).ref + 1 }) ∧
      Rests (inUse c) s (setInode s j { s.inode j with ref := (s.inode j).ref + 1 }) := by
  have hIn := h.lt j hj
  have hPos := h.ref_pos hj
  have hs : Reslot j s (setInode s j { s.inode j with ref := (s.inode j).ref + 1 }) := .of_set h.mounted.log j _
  obtain ⟨hFit, hLooked⟩ := h.reslot (j ::ₘ c) hs
    (by
      rw [setInode_self]
      exact fun _ i hi hne hr hEq => hne (h.cache.uniq i hi j hIn hr hPos hEq))
    (by
      rw [setInode_self]
      exact fun _ => h.inum_lt hj)
    (fun hl => by
      have hv := hl.valid
      rw [setInode_self] at hv ⊢
      exact ⟨h.synced j ⟨hIn, hPos, hv⟩, h.typed j ⟨hIn, hPos, hv⟩⟩)
    (fun _ => by
      rw [setInode_self, Multiset.count_cons_self, h.refs j hIn]
      push_cast
      ring)
    (fun i hi => count_cons_other hi c) fun i hi => (Multiset.mem_cons.mp hi).elim (fun hEq => hEq ▸ hIn) (h.lt i)
  refine ⟨hFit, hLooked, rfl, rfl, rfl, fun i _ => ?_, fun i _ _ => ?_⟩
  · by_cases hi : i = j
    · rw [hi, setInode_self]
    · rw [setInode_of_ne hi]
  · by_cases hi : i = j
    · rw [hi, setInode_self]
    · rw [setInode_of_ne hi]

theorem Fit.wp_iget (hR : Allows R) (h : Fit M c s) (hk : k < sb.ninodes) {Q : Nat → Kern → Prop}
    (hQ : ∀ ip s', Fit M (ip ::ₘ c) s' → Looked s s' → Rests (inUse c) s s' → (s'.inode ip).inum = k →
      Q ip s') : wp R (iget k) Q s := by
  refine wp_act_run hR (fun ip s' hRun => ?_) fun e hRun => ?_
  · rcases run_iget s k with ⟨ip', s₁, hRun', hGot⟩ | ⟨hRun', -⟩
    · obtain ⟨rfl, rfl⟩ := Prod.mk.inj (Except.ok.inj (hRun'.symm.trans hRun))
      by_cases hUsed : (s.inode ip').ref = 0
      · have hNot : ip' ∉ c := fun hIn => (h.ref_pos hIn).ne' hUsed
        have hOthers : ∀ j, j ≠ ip' → s₁.inode j = s.inode j := fun j hj => by
          rw [hGot.state]
          exact setInode_of_ne hj _
        have hs : Reslot ip' s s₁ := by
          rw [hGot.state]
          exact .of_set h.mounted.log ip' _
        have hDead : ¬LiveSlot s₁ ip' := fun hl => by
          have := hl.valid
          rw [(hGot.fresh hUsed).1] at this
          cases this
        obtain ⟨hFit, hLooked⟩ := h.reslot (ip' ::ₘ c) hs
          (fun _ j hj _ hr => by
            rw [hGot.inum]
            exact hGot.new hUsed j hj hr)
          (fun _ => by rwa [hGot.inum]) (fun hl => absurd hl hDead)
          (fun _ => by
            rw [hGot.ref, hUsed, Multiset.count_cons_self, Multiset.count_eq_zero_of_notMem hNot]
            rfl)
          (fun j hj => count_cons_other hj c)
          fun j hj => (Multiset.mem_cons.mp hj).elim (fun hEq => hEq ▸ hGot.lt) (h.lt j)
        exact hQ ip' s₁ hFit hLooked (.of_others hs.file hs.proc hs.devsw hOthers hNot) hGot.inum
      · have hPos : 0 < (s.inode ip').ref := lt_of_le_of_ne hGot.used (Ne.symm hUsed)
        obtain ⟨hFit, hLooked, hRests⟩ := h.take (h.mem_of_ref hGot.lt hPos)
        rw [← hGot.keep hPos, ← hGot.state] at hFit hLooked hRests
        exact hQ ip' s₁ hFit hLooked hRests hGot.inum
    · cases hRun'.symm.trans hRun
  · rcases run_iget s k with ⟨ip', s₁, hRun', -⟩ | ⟨hRun', -⟩
    · cases hRun'.symm.trans hRun
    · obtain rfl := Except.error.inj (hRun'.symm.trans hRun)
      exact hR.stop _ (by simp) (by simp)

theorem Fit.setBusy (h : Fit M c s) (hIp : ip ∈ c) (b : Bool) : Fit M c (setInode s ip { s.inode ip with busy := b }) := by
  have hIn := h.lt ip hIp
  have hPos := h.ref_pos hIp
  have hs : Reslot ip s (setInode s ip { s.inode ip with busy := b }) := .of_set h.mounted.log ip _
  refine (h.reslot c hs ?_ ?_ (fun hl => ?_) ?_ (fun _ _ => rfl) h.lt).1
  · rw [setInode_self]
    exact fun _ j hj hne hr hEq => hne (h.cache.uniq j hj ip hIn hr hPos hEq)
  · rw [setInode_self]
    exact fun _ => h.inum_lt hIp
  · have hv := hl.valid
    rw [setInode_self] at hv ⊢
    exact ⟨h.synced ip ⟨hIn, hPos, hv⟩, h.typed ip ⟨hIn, hPos, hv⟩⟩
  · rw [setInode_self]
    exact fun _ => h.refs ip hIn

theorem Fit.wp_idupCwd (hR : Allows R) (h : Fit M c s) (hCwd : ∀ j, (s.proc p).cwd = some j → j ∈ c) {Q : Nat → Kern → Prop}
    (hQ : ∀ ip s', Fit M (ip ::ₘ c) s' → Looked s s' → Rests (inUse c) s s' → Q ip s') : wp R (idupCwd p) Q s := by
  rw [idupCwd]
  apply wp_act hR
  cases hEq : (s.proc p).cwd with
  | none => exact hR.stop _ (by simp) (by simp)
  | some j =>
    obtain ⟨hFit, hLooked, hRests⟩ := h.take (hCwd j hEq)
    exact hQ j _ hFit hLooked hRests

structure LockedAt (s s' : Kern) (ip : Nat) : Prop where
  idle : (s.inode ip).busy = false
  busy : (s'.inode ip).busy = true
  live : LiveSlot s' ip
  inum : (s'.inode ip).inum = (s.inode ip).inum
  others : ∀ j, j ≠ ip → s'.inode j = s.inode j

theorem LockedAt.rests (h : LockedAt s s' ip) (hFile : s'.file = s.file) (hProc : s'.proc = s.proc)
    (hDevsw : s'.devsw = s.devsw) (A : Set Nat) : Rests A s s' := by
  refine ⟨hFile, hProc, hDevsw, fun j _ => ?_, fun j _ hBusy => ?_⟩
  · by_cases hj : j = ip
    · rw [hj, h.inum]
    · rw [h.others j hj]
  · have hj : j ≠ ip := fun hEq => by
      rw [hEq, h.idle] at hBusy
      cases hBusy
    rw [h.others j hj]

/-- Nobody gets past the lock of an entry that is locked. -/
theorem wp_ilock_busy (hR : Allows R) (hBusy : (s.inode ip).busy = true) {Q : Unit → Kern → Prop} :
    wp R (ilock ip) Q s := by
  rw [ilock, wp_bind]
  apply wp_act hR
  by_cases hRef : (s.inode ip).ref < 1
  · rw [if_pos hRef]
    exact hR.stop _ (by simp) (by simp)
  · rw [if_neg hRef, if_pos hBusy]
    exact hR.stop _ (by simp) (by simp)

theorem Fit.wp_ilock (hR : Allows R) (hG : Geom sb) (hStop : R.stop (.panic .ilockNoType)) (h : Fit M c s) (hIp : ip ∈ c)
    {Q : Unit → Kern → Prop} (hQ : ∀ s', Fit M c s' → Looked s s' → Rests (inUse c) s s' → LockedAt s s' ip → Q () s') :
    wp R (ilock ip) Q s := by
  cases hBusy : (s.inode ip).busy with
  | true => exact wp_ilock_busy hR hBusy
  | false =>
    have hIn := h.lt ip hIp
    refine Fs.wp_ilock hR hG h.toSteady hIn (fun _ => hStop) fun s' hL hType => ?_
    have hPos := h.ref_pos hIp
    have hSlot := hL.slot
    have hLive : LiveSlot s' ip := ⟨hIn, by rw [hSlot]; exact hPos, by rw [hSlot]⟩
    have hTyped : (eff s (s.inode ip).inum).type ≠ 0 := by
      cases hv : (s.inode ip).valid with
      | true =>
        rw [h.cache.eff_live ⟨hIn, hPos, hv⟩]
        exact h.typed ip ⟨hIn, hPos, hv⟩
      | false => exact hType hv
    have hLock : LockedAt s s' ip := ⟨hBusy, by rw [hSlot], hLive, by rw [hSlot], hL.reslot.others⟩
    obtain ⟨hFit, hLooked⟩ := h.reslot c hL.reslot
      (by
        rw [hSlot]
        exact fun _ j hj hne hr hEq => hne (h.cache.uniq j hj ip hIn hr hPos hEq))
      (by
        rw [hSlot]
        exact fun _ => h.inum_lt hIp)
      (fun _ => by
        rw [hSlot]
        exact ⟨h.eff_eq _, hTyped⟩)
      (fun _ => by
        rw [hSlot]
        exact h.refs ip hIn)
      (fun _ _ => rfl) h.lt
    exact hQ s' hFit hLooked (hLock.rests hL.reslot.file hL.reslot.proc hL.reslot.devsw _) hLock

theorem Fit.wp_iunlock (hR : Allows R) (h : Fit M c s) (hIp : ip ∈ c) {Q : Unit → Kern → Prop}
    (hQ : ∀ s', Fit M c s' → Looked s s' → Reslot ip s s' → s'.inode ip = { s.inode ip with busy := false } → Q () s') :
    wp R (iunlock ip) Q s := by
  have hIn := h.lt ip hIp
  refine Fs.wp_iunlock hR h.toSteady hIn fun s' hU => ?_
  have hPos := h.ref_pos hIp
  have hSlot := hU.slot
  have hLive : LiveSlot s' ip → LiveSlot s ip := fun hl => by
    have hv := hl.valid
    rw [hSlot] at hv
    exact ⟨hIn, hPos, hv⟩
  obtain ⟨hFit, hLooked⟩ := h.reslot c hU.reslot
    (by
      rw [hSlot]
      exact fun _ j hj hne hr hEq => hne (h.cache.uniq j hj ip hIn hr hPos hEq))
    (by
      rw [hSlot]
      exact fun _ => h.inum_lt hIp)
    (fun hl => by
      rw [hSlot]
      exact ⟨h.synced ip (hLive hl), h.typed ip (hLive hl)⟩)
    (fun _ => by
      rw [hSlot]
      exact h.refs ip hIn)
    (fun _ _ => rfl) h.lt
  exact hQ s' hFit hLooked hU.reslot hSlot

end Slots

def LastRef (s : Kern) (ip : Nat) : Prop :=
  (s.inode ip).ref = 1 ∧ (s.inode ip).valid = true ∧ (s.inode ip).di.nlink = 0

instance (s : Kern) (ip : Nat) : Decidable (LastRef s ip) :=
  inferInstanceAs (Decidable ((s.inode ip).ref = 1 ∧ (s.inode ip).valid = true ∧ (s.inode ip).di.nlink = 0))

def Gentle (R : Rely Kern Stop Label) : Prop := ∀ ip s, R.may (.iput ip) s → ¬LastRef s ip

section Drop

variable {R : Rely Kern Stop Label} {sb : Superblock} {M : LowBits sb} {c : Multiset Nat} {s s₁ s₂ s' : Kern} {ip : Nat}

theorem Truncated.untyped (h : Truncated M ∅ ip s s₁) (hl : LiveSlot s ip) :
    LiveSlot s₁ ip ∧ Steady M (setDi s₁ ip { (s₁.inode ip).di with type := 0 }) ∅ := by
  have hSlot := h.slot
  have hLive : LiveSlot s₁ ip := ⟨hl.lt, by rw [hSlot]; exact hl.ref, by rw [hSlot]; exact hl.valid⟩
  refine ⟨hLive, h.sound.setDi hLive ?_ fun pos _ => ?_⟩
  · have hOk := h.sound.cache.ok ip hLive
    exact { hOk with type := Nat.two_pow_pos 16 }
  · have hZero : ptr (home s₁) (s₁.inode ip).di pos = 0 := by
      rw [hSlot, ptr]
      split
      · rfl
      · rfl
    rw [if_pos rfl, hZero, ite_self]

theorem Fit.freed (h : Fit M (ip ::ₘ c) s) (hl : LiveSlot s ip) (hOne : (s.inode ip).ref = 1) (hT : Truncated M ∅ ip s s₁)
    (hU : Updated M ∅ ip (setDi s₁ ip { (s₁.inode ip).di with type := 0 }) s₂) :
    Fit M c (setInode s₂ ip { s₂.inode ip with busy := false, valid := false, ref := (s₂.inode ip).ref - 1 }) := by
  obtain ⟨hLive₁, hSteady⟩ := hT.untyped hl
  have hInum : (s₁.inode ip).inum = (s.inode ip).inum := by rw [hT.slot]
  have hSlot₂ : s₂.inode ip = { s₁.inode ip with di := { (s₁.inode ip).di with type := 0 } } := by
    rw [hU.inode, setDi_self]
  have hRef₂ : (s₂.inode ip).ref = 1 := by
    rw [hSlot₂, hT.slot]
    exact hOne
  have hNot : ip ∉ c := fun hIn => by
    have hRef := h.refs ip hl.lt
    have := Multiset.count_pos.mpr hIn
    rw [hOne, Multiset.count_cons_self] at hRef
    omega
  have hLive₂ : LiveSlot s₂ ip := ⟨hl.lt, by rw [hRef₂]; decide, by rw [hSlot₂]; exact hLive₁.valid⟩
  have hi : (s.inode ip).inum < sb.ninodes := h.cache.inum ip hl.lt hl.ref
  have hi₂ : (s₂.inode ip).inum = (s.inode ip).inum := by rw [hSlot₂, hInum]
  have hDisk₂ : dinodeOf (home s₂) (s.inode ip).inum = { (s₁.inode ip).di with type := 0 } := by
    rw [hU.disk _ hi, setDi_self, if_pos hInum.symm]
  set s' := setInode s₂ ip { s₂.inode ip with busy := false, valid := false, ref := (s₂.inode ip).ref - 1 } with hs'
  have hSelf : s'.inode ip = { s₂.inode ip with busy := false, valid := false, ref := (s₂.inode ip).ref - 1 } :=
    setInode_self ..
  have hs : Reslot ip s₂ s' := .of_set hU.sound.mounted.log ip _
  have hZero : (s'.inode ip).ref = 0 := by
    rw [hSelf, hRef₂]
    rfl
  have hDead : ¬LiveSlot s' ip := fun hl' => hl'.ref.ne' hZero
  have hC : CacheInv sb s' := hU.sound.cache.reslot hs (fun hr => absurd hZero hr.ne') (fun hr => absurd hZero hr.ne')
    fun hl' => absurd hl' hDead
  have hEff : ∀ k, eff s' k = eff s₂ k := hs.eff hU.sound.cache hC (fun hl' => absurd hl' hDead) fun _ => Or.inr <| by
    rw [hi₂, hDisk₂, hSlot₂]
  have hOthers : ∀ j, j ≠ ip → s'.inode j = s.inode j := fun j hj => by
    rw [hs.others j hj, hU.inode, setDi_of_ne hj, hT.others j hj]
  have hMid : ∀ k, k ≠ (s.inode ip).inum → eff (setDi s₁ ip { (s₁.inode ip).di with type := 0 }) k = eff s₁ k :=
    fun k hne => by rw [hT.sound.cache.eff_setDi hLive₁, if_neg (by rwa [hInum])]
  refine h.change ip (s.inode ip).inum (hU.sound.reslot hs hC hEff) hOthers
    (fun j hj hl' hEq => hj (h.cache.uniq j hl'.lt ip hl.lt hl'.ref hl.ref hEq)) (fun k hk hne => ?_)
    (fun k hk hne p => ?_) (fun k hk hne => ?_) (fun hl' => absurd hl' hDead) (fun hType => ?_) (fun j hj => ?_)
    fun j hj => h.lt j (Multiset.mem_cons_of_mem hj)
  · rw [hs.home, hU.disk k hk, if_neg (by rwa [setDi_self, hInum]), home_setDi, hT.disk k hk, if_neg hne]
  · calc ptrOf (home s') (eff s') (k, p) = ptrOf (home s₂) (eff s₂) (k, p) := by rw [hs.home, ptrOf_eq (hEff k)]
      _ = ptrOf (home s₁) (eff (setDi s₁ ip { (s₁.inode ip).di with type := 0 })) (k, p) := hU.rest k hk p
      _ = ptrOf (home s₁) (eff s₁) (k, p) := ptrOf_eq (hMid k hne)
      _ = ptrOf (home s) (eff s) (k, p) := hT.rest k hk hne p
  · rw [files, hEff, hs.home, ← files, hU.files k hk, files, hMid k hne, home_setDi, ← files, hT.files k hk hne]
  · rw [hs.home, hDisk₂] at hType
    exact absurd rfl hType
  · by_cases hEq : j = ip
    · rw [hEq, hZero, Multiset.count_eq_zero_of_notMem hNot]
      rfl
    · rw [hOthers j hEq, h.refs j hj, count_cons_other hEq]

theorem Fit.wp_iput (hR : Allows R) (hG : Geom sb) (h : Fit M (ip ::ₘ c) s) {Q : Unit → Kern → Prop}
    (hQ : ∀ s', Fit M c s' → (Gentle R → Looked s s') → Rests (inUse c) s s' → Q () s') : wp R (iput ip) Q s := by
  have hMem : ip ∈ ip ::ₘ c := Multiset.mem_cons_self ip c
  have hIn := h.lt ip hMem
  have hPos := h.ref_pos hMem
  have hRefs := h.refs ip hIn
  rw [Multiset.count_cons_self] at hRefs
  rw [iput, wp_bind, wp_single]
  refine fun hMay => ⟨hR.must _ _ (by simp), ?_⟩
  by_cases hLast : LastRef s ip
  · rw [LastRef] at hLast
    rw [if_pos hLast]
    by_cases hBusy : (s.inode ip).busy = true
    · rw [if_pos hBusy]
      exact hR.stop _ (by simp) (by simp)
    rw [if_neg hBusy]
    dsimp only
    rw [if_pos rfl]
    have hNot : ip ∉ c := fun hIn' => by
      have := Multiset.count_pos.mpr hIn'
      rw [hLast.1] at hRefs
      omega
    have hFit := h.setBusy hMem true
    have hLive : LiveSlot (setInode s ip { s.inode ip with busy := true }) ip :=
      ⟨hIn, by rw [setInode_self]; exact hPos, by rw [setInode_self]; exact hLast.2.1⟩
    rw [wp_bind]
    refine wp_itrunc hR hG hFit.toSteady hLive (hFit.typed ip hLive) fun s₁ hT => ?_
    obtain ⟨hLive₁, hSteady⟩ := hT.untyped hLive
    rw [wp_bind]
    apply wp_modifyK hR
    rw [wp_bind]
    refine wp_iupdate hR hG hSteady (liveSlot_setDi.mpr hLive₁) fun s₂ hU => ?_
    apply wp_modifyK hR
    refine hQ _ (hFit.freed hLive (by rw [setInode_self]; exact hLast.1) hT hU) (fun hGentle => absurd hLast (hGentle ip s hMay))
      (.of_others ?_ ?_ ?_ (fun j hj => ?_) hNot)
    · exact hU.file.trans (hT.file.trans rfl)
    · exact hU.proc.trans (hT.proc.trans rfl)
    · exact hU.devsw.trans (hT.devsw.trans rfl)
    · rw [setInode_of_ne hj, hU.inode, setDi_of_ne hj, hT.others j hj, setInode_of_ne hj]
  · rw [LastRef] at hLast
    rw [if_neg hLast]
    dsimp only
    rw [if_neg Bool.false_ne_true]
    have hs : Reslot ip s (setInode s ip { s.inode ip with ref := (s.inode ip).ref - 1 }) := .of_set h.mounted.log ip _
    obtain ⟨hFit, hLooked⟩ := h.reslot c hs
      (by
        rw [setInode_self]
        exact fun _ j hj hne hr hEq => hne (h.cache.uniq j hj ip hIn hr hPos hEq))
      (by
        rw [setInode_self]
        exact fun _ => h.inum_lt hMem)
      (fun hl => by
        have hv := hl.valid
        rw [setInode_self] at hv ⊢
        exact ⟨h.synced ip ⟨hIn, hPos, hv⟩, h.typed ip ⟨hIn, hPos, hv⟩⟩)
      (fun _ => by
        rw [setInode_self, hRefs]
        push_cast
        ring)
      (fun j hj => (count_cons_other hj c).symm) fun j hj => h.lt j (Multiset.mem_cons_of_mem hj)
    refine hQ _ hFit (fun _ => hLooked) ⟨rfl, rfl, rfl, fun j _ => ?_, fun j _ _ => ?_⟩
    · by_cases hj : j = ip
      · rw [hj, setInode_self]
      · rw [setInode_of_ne hj]
    · by_cases hj : j = ip
      · rw [hj, setInode_self]
      · rw [setInode_of_ne hj]

theorem Fit.wp_iunlockput (hR : Allows R) (hG : Geom sb) (h : Fit M (ip ::ₘ c) s) {Q : Unit → Kern → Prop}
    (hQ : ∀ s', Fit M c s' → (Gentle R → Looked s s') → Rests {j | j ∈ c ∧ j ≠ ip} s s' →
      (∀ j ∈ c, (s'.inode j).inum = (s.inode j).inum) → Q () s') : wp R (iunlockput ip) Q s := by
  rw [iunlockput, wp_bind]
  refine h.wp_iunlock hR (Multiset.mem_cons_self ip c) fun s₁ h₁ hL₁ hs₁ hSlot => ?_
  refine h₁.wp_iput hR hG fun s' h' hL' hRests => ?_
  have hFirst : Rests {j | j ∈ c ∧ j ≠ ip} s s₁ :=
    .of_others hs₁.file hs₁.proc hs₁.devsw hs₁.others fun hIn => hIn.2 rfl
  refine hQ s' h' (fun hGentle => hL₁.trans (hL' hGentle)) (hFirst.trans (hRests.mono fun j hj => hj.1)) fun j hj => ?_
  rw [hRests.inum j hj]
  by_cases hEq : j = ip
  · rw [hEq, hSlot]
  · rw [hs₁.others j hEq]

end Drop

section Transactions

variable {R : Rely Kern Stop Label} {sb : Superblock} {M : LowBits sb} {c : Multiset Nat} {s s' : Kern}

theorem Fit.of_home (h : Fit M c s) (hInode : s'.inode = s.inode) (hHome : home s' = home s) (hM : Mounted sb s') :
    Fit M c s' ∧ Looked s s' := by
  have hEff : ∀ k, eff s' k = eff s k := fun k => eff_congr hInode (by rw [hHome])
  have hLive : ∀ j, LiveSlot s' j → LiveSlot s j := fun j hl => hl.congr hInode.symm
  refine ⟨⟨⟨h.toSound.of_home hInode hHome hM, by rw [hHome]; exact h.low⟩, fun j hl => ?_, fun j hl => ?_,
    fun k hk => ?_, fun j hj => ?_, h.lt⟩, hHome, hEff⟩
  · rw [hInode, hHome]
    exact h.synced j (hLive j hl)
  · rw [hInode]
    exact h.typed j (hLive j hl)
  · rw [hEff, hHome]
    exact h.sane k hk
  · rw [hInode]
    exact h.refs j hj

theorem Rests.of_inode {A : Set Nat} (hFile : s'.file = s.file) (hProc : s'.proc = s.proc) (hDevsw : s'.devsw = s.devsw)
    (hInode : s'.inode = s.inode) : Rests A s s' :=
  ⟨hFile, hProc, hDevsw, fun j _ => by rw [hInode], fun j _ _ => by rw [hInode]⟩

theorem Fit.wp_beginTransK (hR : Allows R) (h : Fit M c s) {Q : Unit → Kern → Prop}
    (hQ : ∀ s', Fit M c s' → Looked s s' → Rests (inUse c) s s' → s'.inode = s.inode → Q () s') :
    wp R beginTransK Q s := by
  refine Fs.wp_beginTransK hR fun _ => ?_
  have hBegun : Fit M c { s with log := beginTrans s.log } ∧ Looked s { s with log := beginTrans s.log } :=
    h.of_home rfl rfl h.mounted.begins
  obtain ⟨hFit, hLooked⟩ := hBegun
  exact hQ _ hFit hLooked (.of_inode rfl rfl rfl rfl) rfl

def InOrder {sb : Superblock} (M : LowBits sb) (s : Kern) : Prop := ∃ c, Fit M c s

theorem Fit.wp_commitTransK [hC : CommitsIn R (InOrder M)] (hR : Allows R) (h : Fit M c s) {Q : Unit → Kern → Prop}
    (hQ : ∀ s', Fit M c s' → Looked s s' → Rests (inUse c) s s' → s'.inode = s.inode → Q () s') :
    wp R commitTransK Q s := by
  refine Fs.wp_commitTransK hR h.mounted.log (fun s' hs => hC.commit s' ⟨c, ?_⟩) fun s' hc => ?_
  · exact (h.of_home hs.inode hs.home (h.mounted.stores hs (by rw [h.mounted.super]))).1
  obtain ⟨hFit, hLooked⟩ := h.of_home hc.inode hc.home (h.mounted.commits hc)
  exact hQ s' hFit hLooked (.of_inode hc.file hc.proc hc.devsw hc.inode) hc.inode

end Transactions

end Xv6Rpi.Fs
