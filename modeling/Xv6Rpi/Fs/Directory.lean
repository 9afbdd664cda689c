import Xv6Rpi.Fs.Filewrite
import Xv6Rpi.Fs.Lookup

/-! # Directories are finite maps

`dirlookup` looks a name up in the map that a directory keeps, `dirlink` adds a name to it, and
clearing an entry as `sys_unlink` does removes one. A reference that was only taken to be given
back changes nothing but an unused entry of the inode cache.
-/

namespace Xv6Rpi.Fs

open Prog

section References

variable {s s' : Kern} {ip inum : Nat}

structure Got (s s' : Kern) (ip inum : Nat) : Prop where
  lt : ip < ninode
  new : (s.inode ip).ref = 0 → ∀ j < ninode, 0 < (s.inode j).ref → (s.inode j).inum ≠ inum
  inum : (s'.inode ip).inum = inum
  ref : (s'.inode ip).ref = (s.inode ip).ref + 1
  used : 0 ≤ (s.inode ip).ref
  state : s' = setInode s ip (s'.inode ip)
  keep : 0 < (s.inode ip).ref → s'.inode ip = { s.inode ip with ref := (s.inode ip).ref + 1 }
  fresh : (s.inode ip).ref = 0 → (s'.inode ip).valid = false ∧ (s'.inode ip).busy = false

structure Unused (s s' : Kern) : Prop where
  state : s' = { s with inode := s'.inode }
  refs : ∀ j, (s'.inode j).ref = (s.inode j).ref
  keep : ∀ j, 0 < (s.inode j).ref → s'.inode j = s.inode j

theorem run_iget_cached (h : cached s inum = some ip) : (iget inum).run s =
    .ok (ip, setInode s ip { s.inode ip with ref := (s.inode ip).ref + 1 }) := by
  simp only [iget, act, Prog.single, Prog.run, h]

theorem run_iget_empty (h : cached s inum = none) (hSlot : emptySlot s = some ip) : (iget inum).run s =
    .ok (ip, setInode s ip { s.inode ip with inum := inum, ref := 1, busy := false, valid := false }) := by
  simp only [iget, act, Prog.single, Prog.run, h, hSlot]

theorem run_iget_full (h : cached s inum = none) (hSlot : emptySlot s = none) :
    (iget inum).run s = .error (.panic .igetNoInodes) := by
  simp only [iget, act, Prog.single, Prog.run, h, hSlot]

theorem run_iget (s : Kern) (inum : Nat) :
    (∃ ip s', (iget inum).run s = .ok (ip, s') ∧ Got s s' ip inum) ∨
      (iget inum).run s = .error (.panic .igetNoInodes) ∧
        ∀ ip < ninode, (s.inode ip).ref ≠ 0 ∧ (0 < (s.inode ip).ref → (s.inode ip).inum ≠ inum) := by
  cases hCached : cached s inum with
  | some ip =>
    have hIn : ip < ninode := List.mem_range.mp (List.mem_of_find?_eq_some hCached)
    have hHit := List.find?_some hCached
    rw [Bool.and_eq_true, decide_eq_true_eq, beq_iff_eq] at hHit
    refine Or.inl ⟨ip, _, run_iget_cached hCached, hIn, fun hz => absurd hz hHit.1.ne', ?_, ?_, hHit.1.le, ?_, fun _ => setInode_self ..,
      fun hz => absurd hz hHit.1.ne'⟩
    · rw [setInode_self]
      exact hHit.2
    · rw [setInode_self]
    · rw [setInode_self]
  | none =>
    have hNew : ∀ j < ninode, 0 < (s.inode j).ref → (s.inode j).inum ≠ inum := fun j hj hPos hEq => by
      have := List.find?_eq_none.mp hCached j (List.mem_range.mpr hj)
      rw [Bool.and_eq_true, decide_eq_true_eq, beq_iff_eq] at this
      exact this ⟨hPos, hEq⟩
    cases hEmpty : emptySlot s with
    | some ip =>
      have hIn : ip < ninode := List.mem_range.mp (List.mem_of_find?_eq_some hEmpty)
      have hRef := List.find?_some hEmpty
      rw [beq_iff_eq] at hRef
      refine Or.inl ⟨ip, _, run_iget_empty hCached hEmpty, hIn, fun _ => hNew, ?_, ?_, hRef.ge, ?_, fun hPos => absurd hRef hPos.ne', fun _ => ?_⟩
      · rw [setInode_self]
      · rw [setInode_self, hRef]
        rfl
      · rw [setInode_self]
      · rw [setInode_self]
        exact ⟨rfl, rfl⟩
    | none =>
      refine Or.inr ⟨run_iget_full hCached hEmpty, fun ip hIn => ⟨fun hz => ?_, hNew ip hIn⟩⟩
      have := List.find?_eq_none.mp hEmpty ip (List.mem_range.mpr hIn)
      exact this (beq_iff_eq.mpr hz)

/-- Giving back a reference that has just been taken frees nothing. -/
theorem Got.run_iput (h : Got s s' ip inum) : ∃ s'', (iput ip).run s' = .ok ((), s'') ∧ Unused s s'' := by
  have hNot : ¬((s'.inode ip).ref = 1 ∧ (s'.inode ip).valid = true ∧ (s'.inode ip).di.nlink = 0) := by
    rintro ⟨hOne, hValid, -⟩
    have hRef := h.ref
    rw [(h.fresh (by omega)).1] at hValid
    cases hValid
  refine ⟨setInode s' ip { s'.inode ip with ref := (s'.inode ip).ref - 1 }, ?_, ?_, fun j => ?_, fun j hj => ?_⟩
  · exact Fs.run_iput hNot
  · rw [h.state, setInode_self, setInode_idem]
    rfl
  · by_cases hEq : j = ip
    · rw [hEq, setInode_self]
      dsimp only
      rw [h.ref]
      omega
    · rw [setInode_of_ne hEq, h.state, setInode_of_ne hEq]
  · by_cases hEq : j = ip
    · rw [hEq] at hj ⊢
      rw [setInode_self, h.keep hj]
      dsimp only
      rw [Int.add_sub_cancel]
    · rw [setInode_of_ne hEq, h.state, setInode_of_ne hEq]

end References

/-- No inode can be taken for `inum`: it has no entry and there is no unused one. -/
def CacheFull (s : Kern) (inum : Nat) : Prop :=
  ∀ ip < ninode, (s.inode ip).ref ≠ 0 ∧ (0 < (s.inode ip).ref → (s.inode ip).inum ≠ inum)

/-- The directory `f` is in cache entry `dp`, valid, with all of its blocks, and no name is
in it twice. -/
structure DirAt (sb : Superblock) (s : Kern) (dp : Nat) (f : AFile) : Prop where
  sound : Sound sb s ∅
  slot : LiveSlot s dp
  dir : (s.inode dp).di.type = tDir
  full : NoHoles (home s) (s.inode dp).di
  file : files s (s.inode dp).inum = f
  align : direntSz ∣ f.size
  distinct : Distinct f

section Shown

variable {sb : Superblock} {s : Kern} {H : Set Nat} {dp inum : Nat} {f : AFile}

theorem Sound.agree_disk (h : Sound sb s H) (hi : inum < sb.ninodes) (hType : (eff s inum).type ≠ 0) :
    Agree (home s) s.disk (eff s inum) :=
  h.own.agree hi hType fun _ hx _ _ => (home_of_not_holds (h.mounted.not_holds hx.2)).symm

theorem Sound.shows (h : Sound sb s H) (hl : LiveSlot s dp) (hType : (s.inode dp).di.type ≠ 0)
    (hFull : NoHoles (home s) (s.inode dp).di) : Shows s dp (files s (s.inode dp).inum) := by
  have hEff := h.cache.eff_live hl
  have hAgree : Agree (home s) s.disk (s.inode dp).di := by
    rw [← hEff]
    exact h.agree_disk (h.cache.inum dp hl.lt hl.ref) (by rwa [hEff])
  refine ⟨hType, ⟨hFull.size, fun bn hBn => ?_⟩, ?_⟩
  · rw [hAgree.ptr]
    exact hFull.ptr bn hBn
  · rw [files, hEff, hAgree.fileOf]

theorem DirAt.shows (h : DirAt sb s dp f) : ShowsDir s dp f := by
  have hType : (s.inode dp).di.type ≠ 0 := by
    rw [h.dir]
    decide
  have hShows := h.sound.shows h.slot hType h.full
  rw [h.file] at hShows
  exact ⟨hShows, hShows.type_eq.symm.trans h.dir, h.align⟩

abbrev DirAt.map (h : DirAt sb s dp f) : Slotted (List UInt8) Nat := dirMap f h.distinct

end Shown

section Lookup

variable {sb : Superblock} {s s' : Kern} {dp i inum : Nat} {f : AFile} {name : List UInt8}

theorem DirAt.find_eq (h : DirAt sb s dp f) (name : List UInt8) : f.find name = h.map.find (cstr name) := rfl

theorem DirAt.run_dirlookup_none (h : DirAt sb s dp f) (hHeld : ∀ n, s.held n = false)
    (hNone : h.map.get (cstr name) = none) : (dirlookup dp name).run s = .ok (none, s) := by
  rw [(h.shows.leads_dirlookup name).run hHeld, h.find_eq, Option.map_eq_none_iff.mp hNone]
  rfl

theorem DirAt.run_dirlookup_some (h : DirAt sb s dp f) (hHeld : ∀ n, s.held n = false)
    (hSlot : entries f i = some (cstr name, inum)) :
    (∃ ip s', (dirlookup dp name).run s = .ok (some (ip, direntSz * i), s') ∧ Got s s' ip inum) ∨
      (dirlookup dp name).run s = .error (.panic .igetNoInodes) ∧ CacheFull s inum := by
  have hFind : h.map.find (cstr name) = some (inum, i) := Slotted.find_eq_some.mpr hSlot
  rw [(h.shows.leads_dirlookup name).run hHeld, h.find_eq, hFind, dirFound, run_bind]
  rcases run_iget s inum with ⟨ip, s', hRun, hGot⟩ | ⟨hRun, hFull⟩
  · rw [hRun]
    exact Or.inl ⟨ip, s', rfl, hGot⟩
  · rw [hRun]
    exact Or.inr ⟨rfl, hFull⟩

theorem DirAt.run_dirlink_some (h : DirAt sb s dp f) (hHeld : ∀ n, s.held n = false) {inum' : Nat}
    (hSlot : entries f i = some (cstr name, inum')) :
    (∃ s', (dirlink dp name inum).run s = .ok (false, s') ∧ Unused s s') ∨
      (dirlink dp name inum).run s = .error (.panic .igetNoInodes) ∧ CacheFull s inum' := by
  rw [dirlink, run_bind]
  rcases h.run_dirlookup_some hHeld hSlot with ⟨ip, s', hRun, hGot⟩ | ⟨hRun, hFull⟩
  · obtain ⟨s'', hPut, hUnused⟩ := hGot.run_iput
    rw [hRun]
    dsimp only
    rw [run_bind, hPut]
    exact Or.inl ⟨s'', rfl, hUnused⟩
  · rw [hRun]
    exact Or.inr ⟨rfl, hFull⟩

theorem DirAt.run_dirlink_none (h : DirAt sb s dp f) (hHeld : ∀ n, s.held n = false)
    (hNone : h.map.get (cstr name) = none) : (dirlink dp name inum).run s =
      (writei dp (encodeDirent inum name) (direntSz * h.map.free) >>= fun r =>
        if r ≠ some direntSz then panic .dirlink else return true : FsM Bool).run s := by
  have hFuel : f.size / direntSz ≤ 0 + dirFuel (s.inode dp).di := by
    rw [dirFuel, h.shows.size]
    omega
  have hEmpty : (emptyEntryFrom dp (dirFuel (s.inode dp).di) 0).run s = .ok (direntSz * h.map.free, s) :=
    (h.shows.leads_emptyEntryFrom (Nat.zero_le _) hFuel).run hHeld
  have hInode : (getInode dp).run s = .ok (s.inode dp, s) := rfl
  rw [dirlink, run_bind, h.run_dirlookup_none hHeld hNone]
  dsimp only
  rw [run_bind, hInode]
  dsimp only
  rw [run_bind, hEmpty]

end Lookup

section Entry

variable {sb : Superblock} {s s' : Kern} {dp i n inum : Nat} {f : AFile} {src name : List UInt8} {data : Block}

structure LogRoom (s : Kern) : Prop where
  busy : s.log.busy = true
  count : s.log.n < logsize
  size : s.log.n + 1 < s.log.size

theorem run_logWriteBuf (hRoom : LogRoom s) (hHeld : ∀ x, s.log.Holds x → s.held x = false) :
    ∃ l d, (logWriteBuf n data).run s = .ok ((), { s with log := l, disk := d }) := by
  have hNotFull : ¬(logsize ≤ s.log.n ∨ s.log.size ≤ s.log.n + 1) := by
    have h1 := hRoom.count
    have h2 := hRoom.size
    omega
  have hIdx : logIndex s.log n ≤ s.log.n := by
    by_cases hOld : ∃ i < s.log.n, s.log.sector i = n
    · exact (logIndex_of_mem hOld).1.le
    · exact (logIndex_of_notMem hOld).le
  have hSlot : s.held (s.log.slot (logIndex s.log n)) = false := by
    apply hHeld
    apply slot_holds
    have := hRoom.size
    omega
  have hWrite : ∃ l, logWrite s.log n data = .ok (l, [(s.log.slot (logIndex s.log n), data)]) := by
    rw [logWrite, if_neg hNotFull, hRoom.busy]
    exact ⟨_, rfl⟩
  obtain ⟨l, hWrite⟩ := hWrite
  refine ⟨l, Writes.apply [(s.log.slot (logIndex s.log n), data)] (Function.update s.disk n data), ?_⟩
  simp only [logWriteBuf, Prog.single, Prog.run, hWrite, List.any_cons, List.any_nil, hSlot, Bool.or_false,
    Bool.false_eq_true, if_false]

theorem DirAt.block (h : DirAt sb s dp f) (hi : i < f.size / direntSz) :
    ptr s.disk (s.inode dp).di (posOf (direntSz * i / bsize)) ≠ 0 ∧ direntSz * i / bsize < maxfile ∧
      ¬s.log.Holds (ptr s.disk (s.inode dp).di (posOf (direntSz * i / bsize))) := by
  have hEff := h.sound.cache.eff_live h.slot
  have hInum := h.sound.cache.inum dp h.slot.lt h.slot.ref
  have hType : (s.inode dp).di.type ≠ 0 := h.shows.type
  have hAgree : Agree (home s) s.disk (s.inode dp).di := by
    rw [← hEff]
    exact h.sound.agree_disk hInum (by rwa [hEff])
  have hLt : direntSz * i < (s.inode dp).di.size := by
    rw [h.shows.size]
    simp only [direntSz] at hi ⊢
    omega
  have hNz := h.full.ptr_ne hLt
  have hMax := h.full.size
  have hBn : direntSz * i / bsize < maxfile := (Nat.div_lt_iff_lt_mul (by decide)).mpr (by omega)
  have hRef : ptrOf (home s) (eff s) ((s.inode dp).inum, posOf (direntSz * i / bsize)) =
      ptr (home s) (s.inode dp).di (posOf (direntSz * i / bsize)) := by
    rw [ptrOf_of_type (by rwa [hEff]), hEff]
  have hData := h.sound.own.data _ ⟨hInum, posOf_lt hBn⟩ (by rwa [hRef])
  rw [hRef] at hData
  rw [hAgree.ptr]
  exact ⟨hNz, hBn, h.sound.mounted.not_holds hData.2⟩

theorem DirAt.writei_inside (h : DirAt sb s dp f) (hi : i < f.size / direntSz) (hLen : src.length = direntSz) :
    CanWrite (s.inode dp).di (direntSz * i) src.length ∧ direntSz * i + src.length ≤ (s.inode dp).di.size := by
  have hMax := h.full.size
  have hSize := h.shows.size
  rw [canWrite_iff, Fits, hLen, hSize]
  rw [hSize] at hMax
  simp only [direntSz] at hi ⊢
  omega

theorem DirAt.leads_writei (h : DirAt sb s dp f) (hi : i < f.size / direntSz) (hLen : src.length = direntSz) :
    Leads s (writei dp src (direntSz * i)) (do
      let bp ← bread (ptr s.disk (s.inode dp).di (posOf (direntSz * i / bsize)))
      logWriteBuf (ptr s.disk (s.inode dp).di (posOf (direntSz * i / bsize))) (patch bp (direntSz * i % bsize) src)
      brelse (ptr s.disk (s.inode dp).di (posOf (direntSz * i / bsize)))
      return some direntSz) := by
  obtain ⟨hNz, hBn, -⟩ := h.block hi
  obtain ⟨⟨⟨hOff, hWrap⟩, hMax⟩, hIn⟩ := h.writei_inside hi hLen
  have hType : (s.inode dp).di.type ≠ tDev := by
    rw [h.dir]
    decide
  have hNe : src ≠ [] := by
    rintro rfl
    exact absurd hLen (by decide)
  have hChunk : min src.length (bsize - direntSz * i % bsize) = src.length := by
    rw [hLen]
    simp only [direntSz, bsize]
    omega
  have hNext : ∀ off, writeiFrom dp 15 off [] = Pure.pure () := fun _ => rfl
  have hLoop : Leads s (writeiFrom dp src.length (direntSz * i) src) (do
      let bp ← bread (ptr s.disk (s.inode dp).di (posOf (direntSz * i / bsize)))
      logWriteBuf (ptr s.disk (s.inode dp).di (posOf (direntSz * i / bsize))) (patch bp (direntSz * i % bsize) src)
      brelse (ptr s.disk (s.inode dp).di (posOf (direntSz * i / bsize)))) := by
    rw [show writeiFrom dp src.length = writeiFrom dp (15 + 1) by rw [hLen]; rfl, writeiFrom, if_neg hNe, hChunk]
    refine (leads_bmap hBn hNz).hand fun s₁ _ => ?_
    dsimp only
    rw [List.take_length, List.drop_length, hNext]
    exact .refl ..
  refine leads_getK ?_
  rw [if_neg hType, if_neg (by omega), if_neg (by omega)]
  refine (hLoop.bind _).trans fun s₁ _ => ?_
  rw [if_neg (by omega), hLen]
  exact .refl ..

theorem DirAt.run_writei (h : DirAt sb s dp f) (hHeld : ∀ n, s.held n = false) (hRoom : LogRoom s)
    (hi : i < f.size / direntSz) (hLen : src.length = direntSz) :
    ∃ s', (writei dp src (direntSz * i)).run s = .ok (some direntSz, s') := by
  obtain ⟨-, -, hOut⟩ := h.block hi
  rw [(h.leads_writei hi hLen).run hHeld]
  generalize ptr s.disk (s.inode dp).di (posOf (direntSz * i / bsize)) = a at hOut
  obtain ⟨l, d, hWrite⟩ : ∃ l d, (logWriteBuf a (patch (s.disk a) (direntSz * i % bsize) src)).run
      { s with held := Function.update s.held a true } =
        .ok ((), { s with held := Function.update s.held a true, log := l, disk := d }) :=
    run_logWriteBuf ⟨hRoom.busy, hRoom.count, hRoom.size⟩ fun x hx => by
      have hne : x ≠ a := by
        rintro rfl
        exact hOut hx
      dsimp only
      rw [Function.update_of_ne hne, hHeld]
  have hRelease := run_brelse (s := { s with log := l, disk := d }) (n := a) (hHeld a)
  rw [bread, run_bind, run_breadAs _ (hHeld a)]
  dsimp only
  rw [run_bind, hWrite]
  dsimp only at hRelease ⊢
  rw [run_bind, hRelease]
  exact ⟨_, rfl⟩

def noSearch : Rely Kern Stop Label := ⟨fun _ => True, fun _ _ => True, fun l _ => l ≠ .balloc⟩

theorem noSearch_allows : Allows noSearch := ⟨fun _ _ _ => trivial, fun _ _ hl => hl.1⟩

theorem along_of_noSearch {α : Type} {x : FsM α} {Q : α → Kern → Prop} (h : wp noSearch x Q s) :
    x.along (AllocsInData sb) s := by
  refine along_mono (fun l s hl => ?_) (wp_along h (along_of_forall fun _ _ => trivial))
  cases l with
  | balloc => exact absurd rfl hl
  | _ => trivial

theorem DirAt.along_writei (h : DirAt sb s dp f) (hi : i < f.size / direntSz) (hLen : src.length = direntSz) :
    (writei dp src (direntSz * i)).along (AllocsInData sb) s := by
  obtain ⟨-, -, hOut⟩ := h.block hi
  refine along_of_noSearch (Q := fun _ _ => True) ((h.leads_writei hi hLen).wp noSearch_allows fun s₁ h₁ => ?_)
  have hLog₁ : LogInv s₁.log s₁.disk := by
    rw [h₁.log, h₁.disk]
    exact h.sound.mounted.log
  rw [← h₁.log] at hOut
  rw [wp_bind]
  apply wp_bread noSearch_allows hLog₁ hOut
  intro s₂ h₂
  rw [wp_bind]
  apply wp_logWriteBuf noSearch_allows h₂.log (by rwa [h₂.holds])
  intro s₃ h₃
  rw [wp_bind]
  apply wp_brelse noSearch_allows h₃.log
  exact fun _ _ => trivial

def Becomes (sb : Superblock) (dp : Nat) (f' : AFile) (s s' : Kern) : Prop :=
  ∀ k < sb.ninodes, files s' k = if k = (s.inode dp).inum then f' else files s k

theorem DirAt.wrote (hG : Geom sb) (h : DirAt sb s dp f) (hLen : src.length = direntSz)
    (hMay : (writei dp src (direntSz * i)).along (AllocsInData sb) s) {r : Option Nat}
    (hRun : (writei dp src (direntSz * i)).run s = .ok (r, s')) :
    r = none ∧ ¬CanWrite (s.inode dp).di (direntSz * i) src.length ∨
      r = some direntSz ∧ Becomes sb dp (f.write (direntSz * i) src) s s' := by
  have hType : (s.inode dp).di.type ≠ tDev := by
    rw [h.dir]
    decide
  have hWrite : wp (inData sb) (writei dp src (direntSz * i)) (fun r s' =>
      r = none ∧ ¬CanWrite (s.inode dp).di (direntSz * i) src.length ∨
        r = some direntSz ∧ Becomes sb dp (f.write (direntSz * i) src) s s') s := by
    refine wp_writei (inData_relies _) hG h.sound.steady h.slot h.shows.type hType (fun hNot => Or.inl ⟨rfl, hNot⟩)
      fun _ s₁ h₁ => Or.inr ⟨by rw [hLen], fun k hk => ?_⟩
    rw [h₁.files k hk]
    by_cases hEq : k = (s.inode dp).inum
    · rw [if_pos hEq, if_pos hEq, hEq, h.file]
    · rw [if_neg hEq, if_neg hEq]
  exact wp_run hWrite hMay hRun

end Entry

structure KeepsMap {sb : Superblock} {s : Kern} {dp : Nat} {f : AFile} (h : DirAt sb s dp f) (name : List UInt8)
    (inum : Nat) : Prop where
  absent : h.map.get (cstr name) = none → (dirlookup dp name).run s = .ok (none, s)
  found : ∀ i v, entries f i = some (cstr name, v) →
    (∃ ip s', (dirlookup dp name).run s = .ok (some (ip, direntSz * i), s') ∧ Got s s' ip v) ∨
      (dirlookup dp name).run s = .error (.panic .igetNoInodes) ∧ CacheFull s v
  refused : ∀ i v, entries f i = some (cstr name, v) →
    (∃ s', (dirlink dp name inum).run s = .ok (false, s') ∧ Unused s s') ∨
      (dirlink dp name inum).run s = .error (.panic .igetNoInodes) ∧ CacheFull s v
  linked : ∀ hNew : h.map.get (cstr name) = none, (dirlink dp name inum).along (AllocsInData sb) s →
    ∀ b s', (dirlink dp name inum).run s = .ok (b, s') → b = true ∧
      Becomes sb dp (f.write (direntSz * h.map.free) (encodeDirent inum name)) s s' ∧
      ∃ h' : Distinct (f.write (direntSz * h.map.free) (encodeDirent inum name)),
        dirMap _ h' = h.map.insert (cstr name) inum hNew ∧
        (dirMap _ h').get = Function.update h.map.get (cstr name) (some inum)
  reused : h.map.get (cstr name) = none → h.map.free < f.size / direntSz → LogRoom s →
    ∃ s', (dirlink dp name inum).run s = .ok (true, s')
  cleared : ∀ i key v, entries f i = some (key, v) →
    ∀ r s', (writei dp (List.replicate direntSz 0) (direntSz * i)).run s = .ok (r, s') → r = some direntSz ∧
      Becomes sb dp (f.write (direntSz * i) (List.replicate direntSz 0)) s s' ∧
      ∃ h' : Distinct (f.write (direntSz * i) (List.replicate direntSz 0)),
        dirMap _ h' = h.map.erase i ∧ (dirMap _ h').get = Function.update h.map.get key none
  clears : ∀ i key v, entries f i = some (key, v) → LogRoom s →
    ∃ s', (writei dp (List.replicate direntSz 0) (direntSz * i)).run s = .ok (some direntSz, s')

section Map

variable {sb : Superblock} {s s' : Kern} {dp : Nat} {f : AFile}

theorem DirAt.along_dirlink (h : DirAt sb s dp f) (hHeld : ∀ n, s.held n = false) {name : List UInt8} {inum : Nat}
    (hNew : h.map.get (cstr name) = none) (hMay : (dirlink dp name inum).along (AllocsInData sb) s) :
    (writei dp (encodeDirent inum name) (direntSz * h.map.free)).along (AllocsInData sb) s := by
  have hFuel : f.size / direntSz ≤ 0 + dirFuel (s.inode dp).di := by
    rw [dirFuel, h.shows.size]
    omega
  have hEmpty : (emptyEntryFrom dp (dirFuel (s.inode dp).di) 0).run s = .ok (direntSz * h.map.free, s) :=
    (h.shows.leads_emptyEntryFrom (Nat.zero_le _) hFuel).run hHeld
  rw [dirlink, along_bind, h.run_dirlookup_none hHeld hNew] at hMay
  dsimp only at hMay
  have hInode : (getInode dp).run s = .ok (s.inode dp, s) := rfl
  rw [along_bind, hInode] at hMay
  dsimp only at hMay
  rw [along_bind, hEmpty] at hMay
  dsimp only at hMay
  rw [along_bind] at hMay
  exact hMay.2.2.2.1

theorem DirAt.linked (hG : Geom sb) (h : DirAt sb s dp f) (hHeld : ∀ n, s.held n = false) {name : List UInt8} {inum : Nat}
    (hNew : h.map.get (cstr name) = none) (hMay : (dirlink dp name inum).along (AllocsInData sb) s) {b : Bool}
    (hRun : (dirlink dp name inum).run s = .ok (b, s')) : b = true ∧
      Becomes sb dp (f.write (direntSz * h.map.free) (encodeDirent inum name)) s s' := by
  have hWrite := h.along_dirlink hHeld hNew hMay
  rw [h.run_dirlink_none hHeld hNew, run_bind] at hRun
  cases hEnd : (writei dp (encodeDirent inum name) (direntSz * h.map.free)).run s with
  | error e =>
    rw [hEnd] at hRun
    cases hRun
  | ok r =>
    rw [hEnd] at hRun
    dsimp only at hRun
    rcases h.wrote hG (length_encodeDirent ..) hWrite hEnd with ⟨hNone, -⟩ | ⟨hSome, hBecomes⟩
    · rw [hNone, if_pos (Option.some_ne_none _).symm] at hRun
      cases hRun
    · rw [hSome, if_neg (not_not.mpr rfl)] at hRun
      obtain ⟨rfl, rfl⟩ := Prod.mk.inj (Except.ok.inj hRun)
      exact ⟨rfl, hBecomes⟩

end Map

section Example

def gapSb : Superblock := ⟨17, 2, 8, 10⟩

/-- A directory of one block with room for one more entry between its entries and its end. -/
def gapDi : Dinode := ⟨tDir, 0, 0, 1, 48, fun i => if i = 0 then 5 else 0⟩

def gapImage : Disk
  | 1 => setWord (setWord (setWord (setWord zeroBlock 0 17) 4 2) 8 8) 12 10
  | 2 => encodeDinode zeroBlock 1 gapDi
  | 4 => Function.update zeroBlock 0 0x3F
  | 5 => fun j => ([(1, dot), (1, dotdot)].flatMap fun e => encodeDirent e.1 e.2).getD j 0
  | _ => zeroBlock

/-- The directory in use by an open transaction. -/
def gapDir : Kern :=
  { lone gapSb gapImage gapDi fun _ => ⟨.none, 0, false, false, 0, 0⟩ with log := beginTrans (logOf gapSb) }

theorem gapDir_geom : Geom gapSb := ⟨by decide, by decide, by decide⟩

theorem gapDi_ok : gapDi.Ok := by
  refine ⟨by decide, by decide, by decide, by decide, by decide, fun i => ?_, fun i hi => ?_⟩
  · simp only [gapDi]
    split <;> decide
  · exact if_neg (by omega)

theorem gapDi_ptr (p : Nat) : ptr gapImage gapDi p = if p = 0 then 5 else 0 := by
  by_cases hp : p ≤ ndirect
  · rw [ptr_le hp]
    rfl
  · rw [ptr_gt_zero (by omega) rfl, if_neg (by omega)]

theorem gapDir_sound : Sound gapSb gapDir ∅ := by
  have hLone : Sound gapSb (lone gapSb gapImage gapDi fun _ => ⟨.none, 0, false, false, 0, 0⟩) ∅ := by
    refine lone_sound gapDir_geom (by decide) (by decide) gapDi_ok (by decide) (by decide +kernel) ?_ ?_ ?_
    · intro p _ q _ hEq hNz
      rw [gapDi_ptr p] at hEq hNz
      rw [gapDi_ptr q] at hEq
      split at hNz
      · rename_i hp
        rw [if_pos hp] at hEq
        split at hEq <;> omega
      · exact absurd rfl hNz
    · intro p _ hNz
      rw [gapDi_ptr] at hNz ⊢
      split at hNz
      · rename_i hp
        rw [if_pos hp]
        decide
      · exact absurd rfl hNz
    · intro b hb
      have hLow : 5 ≤ b := hb.1
      have hHigh : b < 7 := hb.2
      have hBits : ∀ b < 7, bit gapSb gapImage b = decide (b < 6) := by decide +kernel
      rw [hBits b hHigh, decide_eq_true_eq]
      constructor
      · intro hb'
        exact ⟨0, by decide, by rw [gapDi_ptr, if_pos rfl]; omega⟩
      · rintro ⟨p, -, hp⟩
        rw [gapDi_ptr] at hp
        split at hp <;> omega
  exact hLone.of_home rfl rfl hLone.mounted.begins

theorem gapDir_at : DirAt gapSb gapDir 0 (files gapDir 1) where
  sound := gapDir_sound
  slot := ⟨by decide, show (0 : Int) < 1 by decide, rfl⟩
  dir := rfl
  full := by
    refine ⟨by decide, fun bn hBn => ?_⟩
    have hz : bn = 0 := by
      change bn * 512 < 48 at hBn
      omega
    subst hz
    change ptr _ gapDi 0 ≠ 0
    rw [ptr_le (Nat.zero_le _)]
    decide
  file := rfl
  align := by decide +kernel
  distinct := by decide +kernel

end Example

end Xv6Rpi.Fs
