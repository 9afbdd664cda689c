import Xv6Rpi.Fs.Refs

/-! # Changing files, directories and inodes

The functions that a call uses while it has an inode locked: each leaves every inode as it should be
between two calls, keeps the references and changes no entry of the cache that is locked,
but for the copy of the inode it works on.
-/

namespace Xv6Rpi.Fs

open Prog

/-- The caller has a reference to the entry `ip`, and it has locked it. -/
structure Mine (c : Multiset Nat) (s : Kern) (ip : Nat) : Prop where
  mem : ip ∈ c
  live : LiveSlot s ip
  busy : (s.inode ip).busy = true

structure SameSlot (ip : Nat) (s s' : Kern) : Prop where
  slot : s'.inode ip = { s.inode ip with di := (s'.inode ip).di }
  type : (s'.inode ip).di.type = (s.inode ip).di.type

/-- The entries in use but for `ip`. -/
abbrev allBut (c : Multiset Nat) (ip : Nat) : Set Nat := {j | j ∈ c ∧ j ≠ ip}

section Mine

variable {sb : Superblock} {M : LowBits sb} {c c' : Multiset Nat} {A : Set Nat} {s s₁ s' : Kern} {ip : Nat}

theorem Mine.of_locked (hMem : ip ∈ c) (h : LockedAt s s' ip) : Mine c s' ip := ⟨hMem, h.live, h.busy⟩

theorem Mine.rests (h : Mine c s ip) (hRests : Rests A s s') (hIn : ip ∈ A) (h' : Fit M c' s') (hMem : ip ∈ c') :
    Mine c' s' ip := by
  have hSlot := hRests.locked ip hIn h.busy
  exact ⟨hMem, ⟨h.live.lt, h'.ref_pos hMem, by rw [hSlot]; exact h.live.valid⟩, by rw [hSlot]; exact h.busy⟩

theorem Mine.same (h : Mine c s ip) (hSame : SameSlot ip s s') : Mine c s' ip := by
  have hSlot := hSame.slot
  exact ⟨h.mem, ⟨h.live.lt, by rw [hSlot]; exact h.live.ref, by rw [hSlot]; exact h.live.valid⟩,
    by rw [hSlot]; exact h.busy⟩

theorem Mine.sameSlot (h : Mine c s ip) (hRests : Rests A s s') (hIn : ip ∈ A) (h₀ : Fit M c s) (h' : Fit M c s') :
    SameSlot ip s s' := by
  have hSlot := hRests.locked ip hIn h.busy
  have hRef : (s'.inode ip).ref = (s.inode ip).ref := (h'.refs ip h.live.lt).trans (h₀.refs ip h.live.lt).symm
  rw [hRef] at hSlot
  exact ⟨by rw [hSlot], by rw [hSlot]⟩

theorem SameSlot.refl (ip : Nat) (s : Kern) : SameSlot ip s s := ⟨rfl, rfl⟩

theorem SameSlot.trans (h : SameSlot ip s s₁) (h' : SameSlot ip s₁ s') : SameSlot ip s s' :=
  ⟨by rw [h'.slot, h.slot], h'.type.trans h.type⟩

theorem SameSlot.inum (h : SameSlot ip s s') : (s'.inode ip).inum = (s.inode ip).inum := by rw [h.slot]

theorem Rests.allBut (hFile : s'.file = s.file) (hProc : s'.proc = s.proc) (hDevsw : s'.devsw = s.devsw)
    (hOthers : ∀ j, j ≠ ip → s'.inode j = s.inode j) : Rests (allBut c ip) s s' :=
  .of_others hFile hProc hDevsw hOthers fun hIn => hIn.2 rfl

theorem Fit.same (h : Fit M c s) (hs : Same s s') : Fit M c s' ∧ Looked s s' := by
  have hStores := hs.stores h.mounted.log
  exact h.of_home hs.inode hStores.home (h.mounted.stores_self hStores)

theorem Rests.of_same (hs : Same s s') : Rests A s s' := by
  rw [Same] at hs
  refine .of_inode ?_ ?_ ?_ ?_
  all_goals rw [hs]

end Mine

section Fields

variable {R : Rely Kern Stop Label} {sb : Superblock} {M : LowBits sb} {c : Multiset Nat} {d d' : Disk} {di di' : Dinode}
  {s s₁ s' : Kern} {ip : Nat}

theorem entries_congr {f f' : AFile} (hSize : f'.size = f.size) (hByte : f'.byte = f.byte) : entries f' = entries f := by
  funext i
  rw [entries, entries, dirent, dirent, hSize, hByte]

/-- Link counts and device numbers have nothing to do with the contents. -/
theorem Sane.fields (h : Sane sb d di) (hType : di'.type = di.type) (hSize : di'.size = di.size)
    (hAddrs : di'.addrs = di.addrs) (hPtr : ∀ p, ptr d' di p = ptr d di p) (hFile : fileOf d' di = fileOf d di) :
    Sane sb d' di' := by
  have hSane := h.congr hFile hPtr
  have hSame : ∀ p, ptr d' di' p = ptr d' di p := fun p => by rw [ptr, ptr, hAddrs]
  refine ⟨⟨?_, fun bn hBn => ?_⟩, fun hDir => ?_, fun hDir => ?_⟩
  · rw [hSize]
    exact hSane.full.size
  · rw [hSame]
    rw [hSize] at hBn
    exact hSane.full.ptr bn hBn
  · rw [hSize]
    exact hSane.align (hType ▸ hDir)
  · have hNz : di.type ≠ 0 := by
      rw [← hType, hDir]
      decide
    have hEntries : entries (fileOf d' di') = entries (fileOf d' di) := by
      rw [fileOf, fileOf, if_neg hNz, if_neg (by rwa [hType])]
      refine entries_congr hSize ?_
      funext off
      dsimp only
      rw [byteAt, byteAt, hSame]
    rw [hEntries]
    exact hSane.entry (hType ▸ hDir)

/-- The copy of a locked inode has been changed and written to disk. -/
theorem Fit.updated (h : Fit M c s) (hl : LiveSlot s ip) (hType : di.type = (s.inode ip).di.type)
    (hSize : di.size = (s.inode ip).di.size) (hAddrs : di.addrs = (s.inode ip).di.addrs)
    (hU : Updated M ∅ ip (setDi s ip di) s') : Fit M c s' := by
  have hOthers : ∀ j, j ≠ ip → s'.inode j = s.inode j := fun j hj => by rw [hU.inode, setDi_of_ne hj]
  have hSlot : s'.inode ip = { s.inode ip with di := di } := by rw [hU.inode, setDi_self]
  have hi := h.cache.inum ip hl.lt hl.ref
  have hDisk : dinodeOf (home s') (s.inode ip).inum = di := by
    rw [hU.disk _ hi, setDi_self, if_pos rfl]
  have hMid : ∀ k, k ≠ (s.inode ip).inum → eff (setDi s ip di) k = eff s k := fun k hne => by
    rw [h.cache.eff_setDi hl, if_neg hne]
  have hTyped := h.typed ip hl
  have hOld := h.sane _ hi (by rwa [h.cache.eff_live hl])
  have hLive : LiveSlot s' ip := ⟨hl.lt, by rw [hSlot]; exact hl.ref, by rw [hSlot]; exact hl.valid⟩
  have hEff := hU.sound.cache.eff_live hLive
  rw [hSlot] at hEff
  refine h.change ip (s.inode ip).inum hU.sound hOthers
    (fun j hj hl' hEq => hj (h.cache.uniq j hl'.lt ip hl.lt hl'.ref hl.ref hEq)) (fun k hk hne => ?_)
    (fun k hk hne p => ?_) (fun k hk hne => ?_) (fun _ => ?_) (fun _ => ?_) (fun j hj => ?_) h.lt
  · rw [hU.disk k hk, if_neg (by rwa [setDi_self]), home_setDi]
  · rw [hU.rest k hk p, home_setDi]
    exact ptrOf_eq (hMid k hne)
  · rw [hU.files k hk, files, hMid k hne, home_setDi, files]
  · rw [hSlot, hDisk]
    exact ⟨rfl, by rwa [hType]⟩
  · rw [hDisk]
    rw [h.cache.eff_live hl] at hOld
    have hPtr : ∀ p, ptr (home s') di p = ptr (home s) di p := fun p => by
      have := hU.rest _ hi p
      rwa [ptrOf_of_type (by rw [hEff, hType]; exact hTyped), hEff, home_setDi,
        ptrOf_of_type (by rw [h.cache.eff_setDi hl, if_pos rfl, hType]; exact hTyped), h.cache.eff_setDi hl, if_pos rfl] at this
    have hFile : fileOf (home s') di = fileOf (home s) di := by
      have := hU.files _ hi
      rwa [files, hEff, h.cache.files_setDi hl, if_pos rfl] at this
    exact (hOld.fields hType hSize hAddrs (fun _ => rfl) rfl).congr hFile hPtr
  · by_cases hEq : j = ip
    · rw [hEq, hSlot]
      exact h.refs ip hl.lt
    · rw [hOthers j hEq]
      exact h.refs j hj

theorem Fit.wp_updateDi (hR : Allows R) (hG : Geom sb) (h : Fit M c s) (hMine : Mine c s ip) {f : Dinode → Dinode}
    (hOk : (f (s.inode ip).di).Ok) (hType : (f (s.inode ip).di).type = (s.inode ip).di.type)
    (hSize : (f (s.inode ip).di).size = (s.inode ip).di.size) (hAddrs : (f (s.inode ip).di).addrs = (s.inode ip).di.addrs)
    {α : Type} {g : Unit → FsM α} {Q : α → Kern → Prop}
    (hQ : ∀ s', Fit M c s' → Rests (allBut c ip) s s' → SameSlot ip s s' → wp R (g ()) Q s') :
    wp R (modifyDi ip f >>= fun _ => iupdate ip >>= g) Q s := by
  have hl := hMine.live
  rw [wp_bind]
  apply wp_modifyK hR
  rw [wp_bind]
  refine wp_iupdate hR hG (h.toSteady.setDi_fields hl hOk hType hAddrs) (liveSlot_setDi.mpr hl) fun s' hU => ?_
  have hSlot : s'.inode ip = { s.inode ip with di := f (s.inode ip).di } := by rw [hU.inode]; exact setDi_self ..
  refine hQ s' (h.updated hl hType hSize hAddrs hU) (.allBut hU.file hU.proc hU.devsw fun j hj => ?_) ⟨?_, ?_⟩
  · rw [hU.inode]
    exact setDi_of_ne hj _
  · rw [hSlot]
  · rw [hSlot]
    exact hType

theorem Fit.wp_addLink (hR : Allows R) (hG : Geom sb) (h : Fit M c s) (hMine : Mine c s ip) (n : Nat)
    {α : Type} {g : Unit → FsM α} {Q : α → Kern → Prop}
    (hQ : ∀ s', Fit M c s' → Rests (allBut c ip) s s' → SameSlot ip s s' → wp R (g ()) Q s') :
    wp R (addLink ip n >>= fun _ => iupdate ip >>= g) Q s := by
  have hOk := h.cache.ok ip hMine.live
  refine h.wp_updateDi hR hG hMine (f := fun di => { di with nlink := (di.nlink + n) % 2 ^ 16 }) ?_ rfl rfl rfl hQ
  exact { hOk with nlink := Nat.mod_lt _ (Nat.two_pow_pos 16) }

end Fields

def EntryWrite (sb : Superblock) (di : Dinode) (off : Nat) (src : List UInt8) : Prop :=
  ∃ i ≤ di.size / direntSz, off = direntSz * i ∧ src.length = direntSz ∧ (decodeDirent src).inum < sb.ninodes

section Write

variable {R : Rely Kern Stop Label} {sb : Superblock} {M : LowBits sb} {c : Multiset Nat} {s s' : Kern} {ip off : Nat}
  {src : List UInt8}

theorem fileOf_size_eq {d : Disk} {di : Dinode} (hType : di.type ≠ 0) : (fileOf d di).size = di.size := by
  rw [fileOf, if_neg hType]

theorem WroteTo.sameSlot (hW : WroteTo M ∅ ip off src s s') (hC : CacheInv sb s) (hl : LiveSlot s ip) : SameSlot ip s s' := by
  have hSlot := hW.slot
  have hi := hC.inum ip hl.lt hl.ref
  have hl' : LiveSlot s' ip := ⟨hl.lt, by rw [hSlot]; exact hl.ref, by rw [hSlot]; exact hl.valid⟩
  have hInum : (s'.inode ip).inum = (s.inode ip).inum := by rw [hSlot]
  have hFile := congrArg AFile.type (hW.files _ hi)
  rw [if_pos rfl, ← hInum, Fs.files, hW.sound.cache.eff_live hl', fileOf_type, hInum] at hFile
  refine ⟨hSlot, hFile.trans ?_⟩
  change (Fs.files s (s.inode ip).inum).type = _
  rw [Fs.files, hC.eff_live hl, fileOf_type]

/-- A write to a locked inode; into a directory only entries are written. -/
theorem Fit.wrote (h : Fit M c s) (hl : LiveSlot s ip) (hW : WroteTo M ∅ ip off src s s')
    (hDir : (s.inode ip).di.type = tDir → EntryWrite sb (s.inode ip).di off src) : Fit M c s' := by
  have hSame := hW.sameSlot h.cache hl
  have hSlot := hW.slot
  have hi := h.cache.inum ip hl.lt hl.ref
  have hTyped := h.typed ip hl
  have hTyped' : (s'.inode ip).di.type ≠ 0 := by rwa [hSame.type]
  have hEff := h.cache.eff_live hl
  have hl' : LiveSlot s' ip := ⟨hl.lt, by rw [hSlot]; exact hl.ref, by rw [hSlot]; exact hl.valid⟩
  have hEff' := hW.sound.cache.eff_live hl'
  rw [hSame.inum] at hEff'
  have hOld := h.sane _ hi (by rwa [hEff])
  rw [hEff] at hOld
  have hDisk : dinodeOf (home s') (s.inode ip).inum = (s'.inode ip).di := hW.sync hOld.full (h.synced ip hl).symm
  have hFile : fileOf (home s') (s'.inode ip).di = (fileOf (home s) (s.inode ip).di).write off src := by
    have := hW.files _ hi
    rwa [if_pos rfl, files, files, hEff, hEff'] at this
  have hSane : Sane sb (home s') (s'.inode ip).di := by
    refine ⟨hW.full hOld.full, fun hd => ?_, fun hd => ?_⟩
    all_goals
      rw [hSame.type] at hd
      obtain ⟨i, hi', rfl, hLen, hInum⟩ := hDir hd
      have hAlign := hOld.align hd
      rw [← fileOf_size_eq (d := home s) hTyped] at hAlign hi'
    · rw [← fileOf_size_eq (d := home s') hTyped', hFile, size_write hAlign hLen]
      exact dvd_mul_right ..
    · intro k name v hEntry
      rw [hFile, entries_write hAlign hi' hLen rfl] at hEntry
      by_cases hk : k = i
      · rw [hk, Function.update_self] at hEntry
        split at hEntry
        · obtain ⟨-, rfl⟩ := Prod.mk.inj (Option.some.inj hEntry)
          exact hInum
        · cases hEntry
      · rw [Function.update_of_ne hk] at hEntry
        exact hOld.entry hd k name v hEntry
  refine h.change ip (s.inode ip).inum hW.sound hW.others
    (fun j hj hl₁ hEq => hj (h.cache.uniq j hl₁.lt ip hl.lt hl₁.ref hl.ref hEq)) hW.disk hW.rest
    (fun k hk hne => by rw [hW.files k hk, if_neg hne]) (fun _ => ?_) (fun _ => ?_) (fun j hj => ?_) h.lt
  · rw [hSame.inum, hDisk]
    exact ⟨rfl, hTyped'⟩
  · rw [hDisk]
    exact hSane
  · by_cases hEq : j = ip
    · rw [hEq, hSlot]
      exact h.refs ip hl.lt
    · rw [hW.others j hEq]
      exact h.refs j hj

theorem Fit.wp_devCall (hR : Allows R) (hG : Geom sb) (hStop : R.stop (.panic .ilockNoType)) (h : Fit M c s)
    (hMine : Mine c s ip) {α : Type} {major : Nat} {f : Devsw → Option α} {Q : Option α → Kern → Prop}
    (hQ : ∀ r s', Fit M c s' → Looked s s' → Rests (allBut c ip) s s' → SameSlot ip s s' → Q r s') :
    wp R (devCall ip major f) Q s := by
  rw [devCall, wp_bind]
  apply wp_getK hR
  cases devOf s major with
  | none => exact hQ none s h (.refl s) (.refl _ s) (.refl ip s)
  | some d =>
    dsimp only
    rw [wp_bind]
    refine h.wp_iunlock hR hMine.mem fun s₁ h₁ hL₁ hs₁ hSlot₁ => ?_
    rw [wp_bind]
    refine h₁.wp_ilock hR hG hStop hMine.mem fun s₂ h₂ hL₂ hR₂ hLock => ?_
    have hDi : (s₂.inode ip).di = (s.inode ip).di := by
      rw [← h₂.cache.eff_live hLock.live, hL₂.eff, hL₁.eff, hLock.inum, hSlot₁, h.cache.eff_live hMine.live]
    refine hQ _ s₂ h₂ (hL₁.trans hL₂) ?_ ⟨?_, ?_⟩
    · exact (Rests.allBut hs₁.file hs₁.proc hs₁.devsw hs₁.others).trans
        (.allBut hR₂.file hR₂.proc hR₂.devsw hLock.others)
    · have hLt := hMine.live.lt
      have hRef : (s₂.inode ip).ref = (s.inode ip).ref := by rw [h₂.refs ip hLt, h.refs ip hLt]
      have hInum : (s₂.inode ip).inum = (s.inode ip).inum := by rw [hLock.inum, hSlot₁]
      cases hNew : s₂.inode ip with
      | mk inum ref busy valid di =>
        have hBusy := hLock.busy
        have hValid := hLock.live.valid
        rw [hNew] at hRef hInum hBusy hValid
        simp only at hRef hInum hBusy hValid
        simp only [hRef, hInum, hBusy, hValid, hMine.busy, hMine.live.valid]
    · rw [hDi]

theorem Fit.wp_readi (hR : Allows R) (hG : Geom sb) (hStop : R.stop (.panic .ilockNoType)) (h : Fit M c s)
    (hMine : Mine c s ip) {n : Nat} {Q : Option (List UInt8) → Kern → Prop}
    (hQ : ∀ r s', Fit M c s' → Looked s s' → Rests (allBut c ip) s s' → SameSlot ip s s' → Q r s') :
    wp R (readi ip off n) Q s := by
  have hl := hMine.live
  have hTyped := h.typed ip hl
  have hEff := h.cache.eff_live hl
  by_cases hDev : (s.inode ip).di.type = tDev
  · rw [readi, wp_bind]
    apply wp_getK hR
    rw [if_pos hDev]
    exact h.wp_devCall hR hG hStop hMine hQ
  · have hFull := (h.sane _ (h.cache.inum ip hl.lt hl.ref) (by rwa [hEff])).full
    rw [hEff] at hFull
    refine ((h.toSound.shows hl hTyped hFull).leads_readi ?_).wp hR fun s' hs => ?_
    · rwa [files, hEff, fileOf_type]
    · obtain ⟨hFit, hLooked⟩ := h.same hs
      exact hQ _ s' hFit hLooked (.of_same hs) ⟨by rw [hs.inode], by rw [hs.inode]⟩

theorem Fit.wp_writei (hR : Relies M R) (hG : Geom sb) (hStop : R.stop (.panic .ilockNoType)) (h : Fit M c s)
    (hMine : Mine c s ip) (hDir : (s.inode ip).di.type = tDir → EntryWrite sb (s.inode ip).di off src)
    {Q : Option Nat → Kern → Prop}
    (hQ : ∀ r s', Fit M c s' → Rests (allBut c ip) s s' → SameSlot ip s s' →
      (∀ k < sb.ninodes, k ≠ (s.inode ip).inum → files s' k = files s k) → Q r s') : wp R (writei ip src off) Q s := by
  have hl := hMine.live
  by_cases hDev : (s.inode ip).di.type = tDev
  · rw [writei, wp_bind]
    apply wp_getK hR.stop
    rw [if_pos hDev]
    exact h.wp_devCall hR.stop hG hStop hMine fun r s' h' hLooked hRests hSame =>
      hQ r s' h' hRests hSame fun k _ _ => hLooked.files k
  · refine Fs.wp_writei hR hG h.toSteady hl (h.typed ip hl) hDev (fun _ => ?_) fun _ s' hW => ?_
    · exact hQ none s h (.refl _ s) (.refl ip s) fun _ _ _ => rfl
    · refine hQ _ s' (h.wrote hl hW hDir) (.allBut hW.file hW.proc hW.devsw hW.others) (hW.sameSlot h.cache hl) fun k hk hNe => ?_
      rw [hW.files k hk, if_neg hNe]

end Write

section Directories

variable {R : Rely Kern Stop Label} {sb : Superblock} {M : LowBits sb} {c : Multiset Nat} {s s' : Kern} {dp inum : Nat}
  {name : List UInt8}

theorem Fit.showsDir (h : Fit M c s) (hl : LiveSlot s dp) (hDir : (s.inode dp).di.type = tDir) :
    ShowsDir s dp (files s (s.inode dp).inum) := by
  have hTyped := h.typed dp hl
  have hEff := h.cache.eff_live hl
  have hSane := h.sane _ (h.cache.inum dp hl.lt hl.ref) (by rwa [hEff])
  rw [hEff] at hSane
  refine ⟨h.toSound.shows hl hTyped hSane.full, ?_, ?_⟩
  · rw [files, hEff, fileOf_type, hDir]
  · rw [files, hEff, fileOf_size_eq hTyped]
    exact hSane.align hDir

/-- A lookup takes a reference to the inode of an entry of the directory, or finds none. -/
theorem Fit.wp_dirlookup (hR : Allows R) (h : Fit M c s) (hMine : Mine c s dp) {Q : Option (Nat × Nat) → Kern → Prop}
    (hNone : ∀ s', (s.inode dp).di.type = tDir → Same s s' → Q none s')
    (hSome : ∀ ip i s', (s.inode dp).di.type = tDir → i < (s.inode dp).di.size / direntSz → Fit M (ip ::ₘ c) s' →
      Looked s s' → Rests (inUse c) s s' → Q (some (ip, direntSz * i)) s') : wp R (dirlookup dp name) Q s := by
  have hl := hMine.live
  by_cases hDir : (s.inode dp).di.type = tDir
  · have hShows := h.showsDir hl hDir
    refine (hShows.leads_dirlookup name).wp hR fun s₁ h₁ => ?_
    cases hFind : (files s (s.inode dp).inum).find name with
    | none => exact hNone s₁ hDir h₁
    | some r =>
      obtain ⟨v, i⟩ := r
      obtain ⟨hEntry, -, hIn, -⟩ := slotFind_eq_some.mp hFind
      have hEff := h.cache.eff_live hl
      have hTyped := h.typed dp hl
      have hv : v < sb.ninodes := by
        refine (h.sane _ (h.cache.inum dp hl.lt hl.ref) (by rwa [hEff])).entry (by rwa [hEff]) i (cstr name) v ?_
        exact hEntry
      obtain ⟨hFit, hLooked⟩ := h.same h₁
      rw [dirFound, wp_bind]
      refine hFit.wp_iget hR hv fun ip s₂ h₂ hL₂ hR₂ _ => ?_
      refine hSome ip i s₂ hDir ?_ h₂ (hLooked.trans hL₂) ((Rests.of_same h₁).trans hR₂)
      rw [hShows.size]
      omega
  · rw [dirlookup, wp_bind]
    apply wp_getK hR
    rw [if_pos hDir]
    exact wp_panic hR (by simp) (by simp)

theorem Fit.wp_isdirempty (hR : Allows R) (h : Fit M c s) (hMine : Mine c s dp) (hDir : (s.inode dp).di.type = tDir)
    {Q : Bool → Kern → Prop} (hQ : ∀ b s', Same s s' → Q b s') : wp R (isdirempty dp) Q s :=
  (h.showsDir hMine.live hDir).leads_isdirempty.wp hR fun s' hs => hQ _ s' hs

theorem decodeDirent_inum_le : (decodeDirent (encodeDirent inum name)).inum ≤ inum := by
  have hLow : (UInt8.ofNat inum).toNat = inum % 256 := UInt8.toNat_ofNat'
  have hHigh : (UInt8.ofNat (inum / 256)).toNat = inum / 256 % 256 := UInt8.toNat_ofNat'
  change (UInt8.ofNat inum).toNat + 256 * (UInt8.ofNat (inum / 256)).toNat ≤ inum
  rw [hLow, hHigh]
  omega

theorem Mine.of_same (hMine : Mine c s dp) (hs : Same s s') : Mine c s' dp :=
  ⟨hMine.mem, hMine.live.congr hs.inode, by rw [hs.inode]; exact hMine.busy⟩

/-- A new entry is written, or the reference to the inode with the name is given back. -/
theorem Fit.wp_dirlink (hR : Relies M R) (hG : Geom sb) (hStop : R.stop (.panic .ilockNoType)) (h : Fit M c s)
    (hMine : Mine c s dp) (hi : inum < sb.ninodes) {Q : Bool → Kern → Prop}
    (hQ : ∀ b s', Fit M c s' → Rests (allBut c dp) s s' → SameSlot dp s s' → Q b s') : wp R (dirlink dp name inum) Q s := by
  rw [dirlink, wp_bind]
  refine h.wp_dirlookup hR.stop hMine (fun s₁ hDir h₁ => ?_) fun ip i s₁ _ _ h₁ hL₁ hR₁ => ?_
  · obtain ⟨hFit, hLooked⟩ := h.same h₁
    have hMine₁ := hMine.of_same h₁
    have hDir₁ : (s₁.inode dp).di.type = tDir := by rw [h₁.inode, hDir]
    have hShows := hFit.showsDir hMine₁.live hDir₁
    dsimp only
    rw [wp_bind]
    apply wp_getK hR.stop
    rw [wp_bind]
    have hFuel : (files s₁ (s₁.inode dp).inum).size / direntSz ≤ 0 + dirFuel (s₁.inode dp).di := by
      rw [dirFuel, hShows.size]
      omega
    refine (hShows.leads_emptyEntryFrom (Nat.zero_le _) hFuel).wp hR.stop fun s₂ h₂ => ?_
    obtain ⟨hFit₂, -⟩ := hFit.same h₂
    have hMine₂ := hMine₁.of_same h₂
    have hDir₂ : (s₂.inode dp).di.type = tDir := by rw [h₂.inode, hDir₁]
    have hFree := (slotFree_spec (t := entries (files s₁ (s₁.inode dp).inum)) (i := 0)
      (n := (files s₁ (s₁.inode dp).inum).size / direntSz) (entries_eq_none.mpr fun hIn => by omega)).2.2.1
    rw [wp_pure, wp_bind]
    refine hFit₂.wp_writei hR hG hStop hMine₂ (fun _ => ⟨_, ?_, rfl, length_encodeDirent .., ?_⟩)
      fun r s₃ h₃ hR₃ hSame₃ _ => ?_
    · rw [h₂.inode, hShows.size]
      simpa only [Nat.zero_add, Nat.sub_zero] using hFree
    · exact decodeDirent_inum_le.trans_lt hi
    · have hRests : Rests (allBut c dp) s s₃ := ((Rests.of_same h₁).trans (Rests.of_same h₂)).trans hR₃
      have hSame : SameSlot dp s s₃ := by
        have hInode : s₂.inode = s.inode := h₂.inode.trans h₁.inode
        exact ⟨by rw [hSame₃.slot, hInode], by rw [hSame₃.type, hInode]⟩
      by_cases hWrote : r = some direntSz
      · rw [if_neg (not_not.mpr hWrote)]
        exact hQ true s₃ h₃ hRests hSame
      · rw [if_pos hWrote]
        exact wp_panic hR.stop (by simp) (by simp)
  · dsimp only
    rw [wp_bind]
    refine h₁.wp_iput hR.stop hG fun s₂ h₂ _ hR₂ => ?_
    have hRests := hR₁.trans hR₂
    exact hQ false s₂ h₂ (hRests.mono fun j hj => hj.1) (hMine.sameSlot hRests hMine.mem h h₂)

end Directories

section Inodes

variable {R : Rely Kern Stop Label} {sb : Superblock} {M : LowBits sb} {c : Multiset Nat} {d : Disk} {di : Dinode}
  {s s' : Kern} {ip k inum type : Nat}

theorem Sane.of_empty (hSize : di.size = 0) : Sane sb d di where
  full := ⟨by rw [hSize]; exact Nat.zero_le _, fun bn hBn => absurd hBn (by rw [hSize]; exact Nat.not_lt_zero _)⟩
  align _ := by
    rw [hSize]
    exact dvd_zero _
  entry hDir i name v hEntry := by
    have hIn := (entries_eq_some.mp hEntry).1
    rw [fileOf_size_eq (by rw [hDir]; decide), hSize] at hIn
    exact absurd hIn (Nat.not_lt_zero _)

def newInode (type : Nat) : Dinode := { Dinode.zero with type := type }

theorem newInode_ok (hType : type < 2 ^ 16) : (newInode type).Ok := by
  have hOk : Dinode.zero.Ok := by
    constructor <;> simp [Dinode.zero]
  exact { hOk with type := hType }

theorem Fit.allocated (h : Fit M c s) (hk : k < sb.ninodes) (hFree : (dinodeOf (home s) k).type = 0)
    (hType : type < 2 ^ 16) (hs : Stores s s' (Function.update (home s) (iblock k)
      (encodeDinode (home s (iblock k)) (k % ipb) (newInode type)))) : Fit M c s' := by
  have hBlk := iblock_lt hk
  have hDisk : ∀ inum, dinodeOf (home s') inum = if inum = k then newInode type else dinodeOf (home s) inum := fun inum => by
    rw [hs.home, dinodeOf_encode (newInode_ok hType)]
  have hDead : ∀ j, LiveSlot s j → (s.inode j).inum ≠ k := fun j hl hEq => by
    have hTyped := h.typed j hl
    rw [h.synced j hl, hEq] at hTyped
    exact hTyped hFree
  have hC : CacheInv sb s' := h.cache.congr hs.inode
  have hLive : ∀ j, LiveSlot s' j → LiveSlot s j := fun j hl => hl.congr hs.inode.symm
  have hEff : ∀ inum, eff s' inum = if inum = k then newInode type else eff s inum := fun inum => by
    rcases hC.eff_cases inum with ⟨j, hl, rfl, hEff⟩ | ⟨-, hEff⟩
    · have hl' := hLive j hl
      rw [hEff, hs.inode, if_neg (hDead j hl'), h.cache.eff_live hl']
    · rw [hEff, hDisk, h.eff_eq]
  have hData : ∀ x, sb.ninodes / ipb + 3 ≤ x → home s' x = home s x := fun x hx => by
    rw [hs.home, Function.update_of_ne (by omega)]
  have hAgree : ∀ inum < sb.ninodes, (eff s inum).type ≠ 0 → Agree (home s) (home s') (eff s inum) :=
    fun inum hi hTyped => h.own.agree hi hTyped fun x hx _ _ => hData x hx.ge
  have hBits : ∀ b, bit sb (home s') b = bit sb (home s) b := fun b => by rw [bit, bit, hData _ (bblock_ge b sb)]
  have hPtr : ∀ inum < sb.ninodes, inum ≠ k → ∀ p, ptrOf (home s') (eff s') (inum, p) = ptrOf (home s) (eff s) (inum, p) := by
    intro inum hi hne p
    simp only [ptrOf]
    rw [hEff, if_neg hne]
    by_cases hz : (eff s inum).type = 0
    · rw [if_pos hz, if_pos hz]
    · rw [if_neg hz, if_neg hz, (hAgree inum hi hz).ptr]
  have hPtrK : ∀ p, ptrOf (home s') (eff s') (k, p) = ptrOf (home s) (eff s) (k, p) := fun p => by
    have hOld : ptrOf (home s) (eff s) (k, p) = 0 := by
      rw [ptrOf, h.eff_eq, if_pos hFree]
    have hNew : ptr (home s') (newInode type) p = 0 := by
      rw [ptr]
      split
      · rfl
      · rfl
    rw [hOld, ptrOf, hEff, if_pos rfl, hNew, ite_self]
  have hSound : Steady M s' ∅ := by
    refine ⟨⟨h.mounted.stores_update hs (by have := iblock_ge k; omega), hC, h.own.congr (fun r hr => ?_) fun b _ => hBits b⟩,
      M.stable _ _ (fun b _ => hBits b) h.low⟩
    obtain ⟨inum, p⟩ := r
    by_cases hEq : inum = k
    · rw [hEq]
      exact hPtrK p
    · exact hPtr inum hr.1 hEq p
  refine h.change ninode k hSound (fun j _ => by rw [hs.inode]) (fun j _ hl => hDead j hl)
    (fun inum _ hne => by rw [hDisk, if_neg hne]) hPtr (fun inum hi hne => ?_) (fun hl => absurd hl.lt (lt_irrefl _))
    (fun _ => ?_) (fun j hj => ?_) h.lt
  · rw [files, files, hEff, if_neg hne]
    by_cases hz : (eff s inum).type = 0
    · rw [fileOf, fileOf, if_pos hz, if_pos hz]
    · exact (hAgree inum hi hz).fileOf
  · rw [hDisk, if_pos rfl]
    exact .of_empty rfl
  · rw [hs.inode]
    exact h.refs j hj

theorem Fit.wp_iallocFrom (hR : Allows R) (hG : Geom sb) (hType : type < 2 ^ 16) {k : Nat} (h : Fit M c s)
    (hk : inum + k ≤ sb.ninodes) {Q : Nat → Kern → Prop}
    (hQ : ∀ ip s', Fit M (ip ::ₘ c) s' → Rests (inUse c) s s' → (dinodeOf (home s') (s'.inode ip).inum).type = type → Q ip s') :
    wp R (iallocFrom type k inum) Q s := by
  induction k generalizing s inum with
  | zero => exact wp_panic hR (by simp) (by simp)
  | succ k ih =>
    have hi : inum < sb.ninodes := by omega
    have hOut := hG.iblock_lt_log hi
    rw [iallocFrom, wp_bind]
    refine wp_bread hR h.mounted.log (h.mounted.not_holds hOut) fun s₁ h₁ => ?_
    obtain ⟨hFit₁, -⟩ := h.of_home h₁.inode h₁.home (h.mounted.stores_self h₁)
    have hRests₁ : Rests (inUse c) s s₁ := .of_inode h₁.file h₁.proc h₁.devsw h₁.inode
    by_cases hFree : (decodeDinode (home s (iblock inum)) (inum % ipb)).type = 0
    · rw [if_pos hFree, wp_bind]
      refine wp_logWriteBuf hR hFit₁.mounted.log (hFit₁.mounted.not_holds hOut) fun s₂ h₂ => ?_
      rw [wp_bind]
      refine wp_brelse hR h₂.log fun s₃ h₃ => ?_
      have hAll := (h₁.trans h₂).trans h₃
      rw [h₂.home, h₁.home] at hAll
      have hFit₃ := h.allocated hi hFree hType hAll
      refine hFit₃.wp_iget hR hi fun ip s₄ h₄ hLooked hR₄ hInum => hQ ip s₄ h₄ ?_ ?_
      · exact (Rests.of_inode hAll.file hAll.proc hAll.devsw hAll.inode).trans hR₄
      · have hNew : home s₃ = Function.update (home s) (iblock inum) (encodeDinode (home s (iblock inum)) (inum % ipb)
          (newInode type)) := hAll.home
        rw [hInum, hLooked.home, hNew, dinodeOf_encode (newInode_ok hType), if_pos rfl]
        rfl
    · rw [if_neg hFree, wp_bind]
      refine wp_brelse hR h₁.log fun s₂ h₂ => ?_
      obtain ⟨hFit₂, -⟩ := hFit₁.of_home h₂.inode h₂.home (hFit₁.mounted.stores_self h₂)
      exact ih hFit₂ (by omega) fun ip s' h' hR' =>
        hQ ip s' h' ((hRests₁.trans (.of_inode h₂.file h₂.proc h₂.devsw h₂.inode)).trans hR')

theorem Fit.wp_ialloc (hR : Allows R) (hG : Geom sb) (h : Fit M c s) (hRoot : rootino < sb.ninodes)
    (hType : type < 2 ^ 16) {Q : Nat → Kern → Prop}
    (hQ : ∀ ip s', Fit M (ip ::ₘ c) s' → Rests (inUse c) s s' → (dinodeOf (home s') (s'.inode ip).inum).type = type → Q ip s') :
    wp R (ialloc type) Q s := by
  rw [ialloc, wp_bind]
  refine wp_readsbAs hR hG h.mounted (fun _ => hR.must _ _ (by simp)) fun s₁ _ h₁ => ?_
  obtain ⟨hFit₁, -⟩ := h.of_home h₁.inode h₁.home (h.mounted.stores_self h₁)
  refine hFit₁.wp_iallocFrom hR hG hType ?_ fun ip s' h' hR' =>
    hQ ip s' h' ((Rests.of_inode h₁.file h₁.proc h₁.devsw h₁.inode).trans hR')
  have : rootino = 1 := rfl
  omega

theorem Fit.wp_itrunc (hR : Allows R) (hG : Geom sb) (h : Fit M c s) (hMine : Mine c s ip) {Q : Unit → Kern → Prop}
    (hQ : ∀ s', Fit M c s' → Rests (allBut c ip) s s' → SameSlot ip s s' → Q () s') : wp R (itrunc ip) Q s := by
  have hl := hMine.live
  have hTyped := h.typed ip hl
  refine Fs.wp_itrunc hR hG h.toSteady hl hTyped fun s' hT => ?_
  have hSlot := hT.slot
  have hi := h.cache.inum ip hl.lt hl.ref
  have hDi : (s'.inode ip).di = { (s.inode ip).di with size := 0, addrs := fun _ => 0 } := by rw [hSlot]
  have hInum : (s'.inode ip).inum = (s.inode ip).inum := by rw [hSlot]
  have hDisk : dinodeOf (home s') (s.inode ip).inum = (s'.inode ip).di := by rw [hT.disk _ hi, if_pos rfl]
  refine hQ s' ?_ (.allBut hT.file hT.proc hT.devsw hT.others) ⟨by rw [hDi]; exact hSlot, by rw [hDi]⟩
  refine h.change ip (s.inode ip).inum hT.sound hT.others
    (fun j hj hl₁ hEq => hj (h.cache.uniq j hl₁.lt ip hl.lt hl₁.ref hl.ref hEq)) (fun k hk hne => by rw [hT.disk k hk, if_neg hne])
    hT.rest hT.files (fun _ => ?_) (fun _ => ?_) (fun j hj => ?_) h.lt
  · rw [hInum, hDisk]
    refine ⟨rfl, ?_⟩
    rw [hDi]
    exact hTyped
  · rw [hDisk]
    exact .of_empty (by rw [hDi])
  · by_cases hEq : j = ip
    · rw [hEq, hSlot]
      exact h.refs ip hl.lt
    · rw [hT.others j hEq]
      exact h.refs j hj

end Inodes

end Xv6Rpi.Fs
