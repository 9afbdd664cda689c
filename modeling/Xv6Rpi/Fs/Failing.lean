import Xv6Rpi.Fs.Opened

/-! # Calls that fail

A call that fails on the way gives back what it has taken, and `sys_link` takes back the link that it has counted. A file with a
name, and a file that somebody else has a reference to, is afterwards as it was. Only a file that has no name and loses its last
reference is freed on the way.
-/

namespace Xv6Rpi.Fs

open Prog

def Needed (c : Multiset Nat) (s : Kern) (k : Nat) : Prop := (files s k).nlink ≠ 0 ∨ ∃ j ∈ c, (s.inode j).inum = k

/-- Open files, descriptors and current directories are the same, and so are the files that are needed. -/
structure Spares (sb : Superblock) (c : Multiset Nat) (s s' : Kern) : Prop where
  file : s'.file = s.file
  proc : s'.proc = s.proc
  inum : ∀ j ∈ c, (s'.inode j).inum = (s.inode j).inum
  files : ∀ k < sb.ninodes, Needed c s k → files s' k = files s k

/-- Only the link count of the file of `ip` has changed, by `n`. -/
structure Relinked (sb : Superblock) (ip n : Nat) (s s' : Kern) : Prop where
  file : s'.file = s.file
  proc : s'.proc = s.proc
  inum : ∀ j, (s'.inode j).inum = (s.inode j).inum
  self : files s' (s.inode ip).inum =
    { files s (s.inode ip).inum with nlink := ((files s (s.inode ip).inum).nlink + n) % 2 ^ 16 }
  others : ∀ k < sb.ninodes, k ≠ (s.inode ip).inum → files s' k = files s k

section Spares

variable {sb : Superblock} {M : LowBits sb} {c c' : Multiset Nat} {s s₁ s₂ s' : Kern} {ip k : Nat}

theorem Needed.spared (hN : Needed c s k) (h : Spares sb c s s') (hk : k < sb.ninodes) : Needed c s' k := by
  rcases hN with hLink | ⟨j, hj, hInum⟩
  · exact .inl (by rwa [h.files k hk (.inl hLink)])
  · exact .inr ⟨j, hj, (h.inum j hj).trans hInum⟩

theorem Spares.refl (sb : Superblock) (c : Multiset Nat) (s : Kern) : Spares sb c s s :=
  ⟨rfl, rfl, fun _ _ => rfl, fun _ _ _ => rfl⟩

theorem Spares.trans (h : Spares sb c s s₁) (h' : Spares sb c s₁ s') : Spares sb c s s' where
  file := h'.file.trans h.file
  proc := h'.proc.trans h.proc
  inum j hj := (h'.inum j hj).trans (h.inum j hj)
  files k hk hN := (h'.files k hk (hN.spared h hk)).trans (h.files k hk hN)

theorem Spares.drop (h : Spares sb (ip ::ₘ c) s s') : Spares sb c s s' where
  file := h.file
  proc := h.proc
  inum j hj := h.inum j (Multiset.mem_cons_of_mem hj)
  files k hk hN := h.files k hk <| hN.imp id fun hRef => by
    obtain ⟨j, hj, hInum⟩ := hRef
    exact ⟨j, Multiset.mem_cons_of_mem hj, hInum⟩

theorem Looked.spares (h : Looked s s') (hRests : Rests (inUse c) s s') : Spares sb c s s' :=
  ⟨hRests.file, hRests.proc, hRests.inum, fun k _ _ => h.files k⟩

theorem Fit.spares_same (h : Fit M c s) (hs : Same s s') : Spares sb c s s' := (h.same hs).2.spares (.of_same hs)

/-- A link is counted, and taken back after steps that spare the file. -/
theorem Spares.undone (hUp : Relinked sb ip 1 s s₁) (hMid : Spares sb (ip ::ₘ c) s₁ s₂) (hDown : Relinked sb ip (2 ^ 16 - 1) s₂ s')
    (hLt : (Fs.files s (s.inode ip).inum).nlink < 2 ^ 16) :
    Spares sb (ip ::ₘ c) s s' := by
  have hMem : ip ∈ ip ::ₘ c := Multiset.mem_cons_self ip c
  have hI₂ : (s₂.inode ip).inum = (s.inode ip).inum := (hMid.inum ip hMem).trans (hUp.inum ip)
  refine ⟨hDown.file.trans (hMid.file.trans hUp.file), hDown.proc.trans (hMid.proc.trans hUp.proc),
    fun j hj => (hDown.inum j).trans ((hMid.inum j hj).trans (hUp.inum j)), fun k hk hN => ?_⟩
  by_cases hEq : k = (s.inode ip).inum
  · subst hEq
    have hRef : Needed (ip ::ₘ c) s₁ (s.inode ip).inum := .inr ⟨ip, hMem, hUp.inum ip⟩
    have hSelf := hDown.self
    rw [hI₂, hMid.files _ hk hRef, hUp.self] at hSelf
    have hCount : (((Fs.files s (s.inode ip).inum).nlink + 1) % 2 ^ 16 + (2 ^ 16 - 1)) % 2 ^ 16 =
        (Fs.files s (s.inode ip).inum).nlink := by omega
    rw [hSelf]
    exact congrArg (fun n => { Fs.files s (s.inode ip).inum with nlink := n }) hCount
  · have hN₁ : Needed (ip ::ₘ c) s₁ k := by
      rcases hN with hLink | ⟨j, hj, hInum⟩
      · exact .inl (by rwa [hUp.others k hk hEq])
      · exact .inr ⟨j, hj, (hUp.inum j).trans hInum⟩
    rw [hDown.others k hk (by rwa [hI₂]), hMid.files k hk hN₁, hUp.others k hk hEq]

end Spares

theorem loose_allows : Allows (.loose : Rely Kern Stop Label) := ⟨fun _ _ _ => trivial, fun _ _ _ => trivial⟩

instance (P : Kern → Prop) : CommitsIn (.loose : Rely Kern Stop Label) P := ⟨fun _ _ => trivial⟩

theorem yields_panic {α : Type} {P : α → Prop} (e : Panic) : Yields (panic e : FsM α) P :=
  fun _ => wp_calm Rely.loose_calm trivial

section References

variable {sb : Superblock} {M : LowBits sb} {c : Multiset Nat} {s s' : Kern} {ip : Nat}

theorem Fit.freed_spares (h : Fit M (ip ::ₘ c) s) (hl : LiveSlot s ip) (hOne : (s.inode ip).ref = 1)
    (hLinks : (s.inode ip).di.nlink = 0) {s₁ s₂ : Kern} (hT : Truncated M ∅ ip s s₁)
    (hU : Updated M ∅ ip (setDi s₁ ip { (s₁.inode ip).di with type := 0 }) s₂) :
    Spares sb c s (setInode s₂ ip { s₂.inode ip with busy := false, valid := false, ref := (s₂.inode ip).ref - 1 }) := by
  have hFreed := h.freed hl hOne hT hU
  have hNot : ip ∉ c := fun hIn => by
    have hRef := h.refs ip hl.lt
    have hPos := Multiset.count_pos.mpr hIn
    rw [hOne, Multiset.count_cons_self] at hRef
    omega
  have hInum : (s₁.inode ip).inum = (s.inode ip).inum := by rw [hT.slot]
  have hOthers : ∀ j, j ≠ ip → s₂.inode j = s.inode j := fun j hj => by
    rw [hU.inode, setDi_of_ne hj, hT.others j hj]
  refine ⟨hU.file.trans hT.file, hU.proc.trans hT.proc, fun j hj => ?_, fun k hk hN => ?_⟩
  · have hne : j ≠ ip := fun hEq => hNot (hEq ▸ hj)
    rw [setInode_of_ne hne, hOthers j hne]
  · have hne : k ≠ (s.inode ip).inum := by
      rintro rfl
      rcases hN with hLink | ⟨j, hj, hEq⟩
      · refine hLink ?_
        rw [files, h.cache.eff_live hl, fileOf, if_neg (h.typed ip hl)]
        exact hLinks
      · have hjPos := h.ref_pos (Multiset.mem_cons_of_mem hj)
        have hSame := h.cache.uniq j (h.lt j (Multiset.mem_cons_of_mem hj)) ip hl.lt hjPos hl.ref hEq
        exact hNot (hSame ▸ hj)
    have hDisk : dinodeOf (home s₂) k = dinodeOf (home s) k := by
      rw [hU.disk k hk, if_neg (by rwa [setDi_self, hInum]), home_setDi, hT.disk k hk, if_neg hne]
    have hEff : eff s₂ k = dinodeOf (home s₂) k := by
      rcases hU.sound.cache.eff_cases k with ⟨j, hl₂, hj, hE⟩ | ⟨-, hE⟩
      · have hjne : j ≠ ip := by
          rintro rfl
          rw [hU.inode, setDi_self] at hj
          exact hne (hj.symm.trans hInum)
        have hl' : LiveSlot s j := ⟨hl₂.lt, hOthers j hjne ▸ hl₂.ref, hOthers j hjne ▸ hl₂.valid⟩
        rw [hE, hOthers j hjne, h.synced j hl', hDisk, ← hj, hOthers j hjne]
      · exact hE
    obtain ⟨hLive₁, -⟩ := hT.untyped hl
    calc files (setInode s₂ ip { s₂.inode ip with busy := false, valid := false, ref := (s₂.inode ip).ref - 1 }) k
        = fileOf (home s₂) (dinodeOf (home s₂) k) := by
          rw [files, hFreed.eff_eq]
          rfl
      _ = files s₂ k := by rw [files, hEff]
      _ = files s₁ k := by rw [hU.files k hk, hT.sound.cache.files_setDi hLive₁, if_neg (by rwa [hInum])]
      _ = files s k := hT.files k hk hne

theorem Fit.unref (h : Fit M (ip ::ₘ c) s) : Fit M c (setInode s ip { s.inode ip with ref := (s.inode ip).ref - 1 }) ∧
    Looked s (setInode s ip { s.inode ip with ref := (s.inode ip).ref - 1 }) := by
  have hMem : ip ∈ ip ::ₘ c := Multiset.mem_cons_self ip c
  have hIn := h.lt ip hMem
  have hPos := h.ref_pos hMem
  refine h.reslot c (.of_set h.mounted.log ip _) ?_ ?_ (fun hl => ?_) (fun _ => ?_)
    (fun j hj => (count_cons_other hj c).symm) fun j hj => h.lt j (Multiset.mem_cons_of_mem hj)
  · rw [setInode_self]
    exact fun _ j hj hne hr hEq => hne (h.cache.uniq j hj ip hIn hr hPos hEq)
  · rw [setInode_self]
    exact fun _ => h.inum_lt hMem
  · have hv := hl.valid
    rw [setInode_self] at hv ⊢
    exact ⟨h.synced ip ⟨hIn, hPos, hv⟩, h.typed ip ⟨hIn, hPos, hv⟩⟩
  · rw [setInode_self]
    show (s.inode ip).ref - 1 = _
    rw [h.refs ip hIn, Multiset.count_cons_self]
    push_cast
    ring

theorem Fit.spares_iput (hG : Geom sb) (h : Fit M (ip ::ₘ c) s) {Q : Unit → Kern → Prop}
    (hQ : ∀ s', Fit M c s' → Spares sb c s s' → Q () s') : wp .loose (iput ip) Q s := by
  have hMem : ip ∈ ip ::ₘ c := Multiset.mem_cons_self ip c
  have hIn := h.lt ip hMem
  rw [iput, wp_bind, wp_single]
  refine fun _ => ⟨trivial, ?_⟩
  by_cases hLast : LastRef s ip
  · rw [LastRef] at hLast
    rw [if_pos hLast]
    by_cases hBusy : (s.inode ip).busy = true
    · rw [if_pos hBusy]
      trivial
    rw [if_neg hBusy]
    dsimp only
    rw [if_pos rfl, wp_bind]
    set b := setInode s ip { s.inode ip with busy := true } with hb
    have hFit : Fit M (ip ::ₘ c) b := h.setBusy hMem true
    have hSlot : b.inode ip = { s.inode ip with busy := true } := setInode_self ..
    have hInum (j : Nat) : (b.inode j).inum = (s.inode j).inum := by
      by_cases hj : j = ip
      · rw [hj, hSlot]
      · rw [hb, setInode_of_ne hj]
    have hFiles (k : Nat) : files b k = files s k := by
      rw [files, files, hFit.eff_eq, h.eff_eq]
      rfl
    have hLive : LiveSlot b ip :=
      ⟨hIn, by rw [hSlot]; exact h.ref_pos hMem, by rw [hSlot]; exact hLast.2.1⟩
    refine Fs.wp_itrunc loose_allows hG hFit.toSteady hLive (hFit.typed ip hLive) fun s₁ hT => ?_
    obtain ⟨hLive₁, hSteady⟩ := hT.untyped hLive
    rw [wp_bind]
    apply wp_modifyK loose_allows
    rw [wp_bind]
    refine wp_iupdate loose_allows hG hSteady (liveSlot_setDi.mpr hLive₁) fun s₂ hU => ?_
    apply wp_modifyK loose_allows
    have hOne : (b.inode ip).ref = 1 := by
      rw [hSlot]
      exact hLast.1
    have hLinks : (b.inode ip).di.nlink = 0 := by
      rw [hSlot]
      exact hLast.2.2
    have hSpares := hFit.freed_spares hLive hOne hLinks hT hU
    refine hQ _ (hFit.freed hLive hOne hT hU) ⟨hSpares.file, hSpares.proc, fun j hj => ?_, fun k hk hN => ?_⟩
    · rw [hSpares.inum j hj, hInum]
    · rw [hSpares.files k hk, hFiles]
      rw [Needed, hFiles]
      exact hN.imp id fun hRef => by
        obtain ⟨j, hj, hEq⟩ := hRef
        exact ⟨j, hj, (hInum j).trans hEq⟩
  · rw [LastRef] at hLast
    rw [if_neg hLast]
    dsimp only
    rw [if_neg Bool.false_ne_true]
    obtain ⟨hFit, hLooked⟩ := h.unref
    refine hQ _ hFit ⟨rfl, rfl, fun j _ => ?_, fun k _ _ => hLooked.files k⟩
    by_cases hj : j = ip
    · rw [hj, setInode_self]
    · rw [setInode_of_ne hj]

theorem Fit.spares_iunlock (h : Fit M c s) (hMem : ip ∈ c) {Q : Unit → Kern → Prop}
    (hQ : ∀ s', Fit M c s' → Spares sb c s s' → Q () s') : wp .loose (iunlock ip) Q s := by
  refine h.wp_iunlock loose_allows hMem fun s' h' hL hs hSlot => hQ s' h' ⟨hs.file, hs.proc, fun j _ => ?_, fun k _ _ => hL.files k⟩
  by_cases hj : j = ip
  · rw [hj, hSlot]
  · rw [hs.others j hj]

theorem Fit.spares_iunlockput (hG : Geom sb) (h : Fit M (ip ::ₘ c) s) {Q : Unit → Kern → Prop}
    (hQ : ∀ s', Fit M c s' → Spares sb c s s' → Q () s') : wp .loose (iunlockput ip) Q s := by
  rw [iunlockput, wp_bind]
  refine h.spares_iunlock (Multiset.mem_cons_self ip c) fun s₁ h₁ hS₁ => ?_
  exact h₁.spares_iput hG fun s' h' hS' => hQ s' h' (hS₁.drop.trans hS')

theorem Fit.spares_ilock (hG : Geom sb) (h : Fit M c s) (hMem : ip ∈ c) {Q : Unit → Kern → Prop}
    (hQ : ∀ s', Fit M c s' → Spares sb c s s' → Mine c s' ip → Q () s') : wp .loose (ilock ip) Q s :=
  h.wp_ilock loose_allows hG trivial hMem fun s' h' hL hR hLock => hQ s' h' (hL.spares hR) (.of_locked hMem hLock)

theorem Fit.spares_beginTransK (h : Fit M c s) {Q : Unit → Kern → Prop}
    (hQ : ∀ s', Fit M c s' → Spares sb c s s' → Q () s') : wp .loose beginTransK Q s :=
  h.wp_beginTransK loose_allows fun s' h' hL hR _ => hQ s' h' (hL.spares hR)

theorem Fit.spares_commitTransK (h : Fit M c s) {Q : Unit → Kern → Prop}
    (hQ : ∀ s', Fit M c s' → Spares sb c s s' → Q () s') : wp .loose commitTransK Q s :=
  h.wp_commitTransK loose_allows fun s' h' hL hR _ => hQ s' h' (hL.spares hR)

theorem Fit.relinks (hG : Geom sb) (h : Fit M c s) (hMine : Mine c s ip) (n : Nat) {α : Type} {g : Unit → FsM α}
    {Q : α → Kern → Prop} (hQ : ∀ s', Fit M c s' → Relinked sb ip n s s' → wp .loose (g ()) Q s') :
    wp .loose (addLink ip n >>= fun _ => iupdate ip >>= g) Q s := by
  have hl := hMine.live
  have hOk := h.cache.ok ip hl
  have hType := h.typed ip hl
  have hNew : ({ (s.inode ip).di with nlink := ((s.inode ip).di.nlink + n) % 2 ^ 16 } : Dinode).Ok :=
    { hOk with nlink := Nat.mod_lt _ (Nat.two_pow_pos 16) }
  rw [wp_bind]
  apply wp_modifyK loose_allows
  rw [wp_bind]
  refine Fs.wp_iupdate loose_allows hG (h.toSteady.setDi_fields hl hNew rfl rfl) (liveSlot_setDi.mpr hl) fun s' hU => ?_
  have hFit : Fit M c s' := by
    refine h.updated hl ?_ ?_ ?_ hU
    all_goals rfl
  refine hQ s' hFit ⟨hU.file, hU.proc, fun j => ?_, ?_, fun k hk hne => ?_⟩
  · rw [hU.inode]
    by_cases hj : j = ip
    · rw [hj, setDi_self]
    · rw [setDi_of_ne hj]
  · have hI := h.inum_lt hMine.mem
    rw [hU.files _ hI, h.cache.files_setDi hl, if_pos rfl, files, h.cache.eff_live hl, fileOf, if_neg hType, fileOf, if_neg hType]
    rfl
  · rw [hU.files k hk, h.cache.files_setDi hl, if_neg hne]

end References

section Paths

variable {sb : Superblock} {M : LowBits sb} {c : Multiset Nat} {s s' : Kern} {ip p : Nat} {path name : List UInt8}

theorem Fit.spares_namexFrom (hG : Geom sb) (parent : Bool) {fuel : Nat} (h : Fit M (ip ::ₘ c) s) (hFuel : path.length < fuel)
    {Q : Option (Nat × List UInt8) → Kern → Prop} (hNone : ∀ s', Fit M c s' → Spares sb c s s' → Q none s')
    (hSome : ∀ ip' name s', Fit M (ip' ::ₘ c) s' → Spares sb c s s' → Q (some (ip', name)) s') :
    wp .loose (namexFrom parent fuel ip path name) Q s := by
  induction fuel generalizing s ip path name with
  | zero => exact absurd hFuel (Nat.not_lt_zero _)
  | succ fuel ih =>
    rw [namexFrom]
    cases hElem : skipelem path with
    | none =>
      dsimp only
      cases parent with
      | true =>
        rw [if_pos rfl, wp_bind]
        exact h.spares_iput hG hNone
      | false =>
        rw [if_neg Bool.false_ne_true]
        exact hSome ip name s h (.refl sb c s)
    | some r =>
      obtain ⟨elem, rest⟩ := r
      have hShort : rest.length < path.length := (skipelem_some hElem).2.2
      dsimp only
      rw [wp_bind]
      refine h.spares_ilock hG (Multiset.mem_cons_self ip c) fun s₁ h₁ hS₁ hMine => ?_
      rw [wp_bind]
      apply wp_getK loose_allows
      by_cases hDir : (s₁.inode ip).di.type = tDir
      · rw [if_neg (not_not.mpr hDir)]
        by_cases hLast : parent = true ∧ rest = []
        · rw [if_pos hLast, wp_bind]
          exact h₁.spares_iunlock hMine.mem fun s₂ h₂ hS₂ => hSome ip elem s₂ h₂ (hS₁.trans hS₂).drop
        · rw [if_neg hLast, wp_bind]
          refine h₁.wp_dirlookup loose_allows hMine (fun s₂ _ hs => ?_) fun next i s₂ _ _ h₂ hL₂ hR₂ => ?_
          · have h₂ := (h₁.same hs).1
            have hS₂ := h₁.spares_same hs
            dsimp only
            rw [wp_bind]
            exact h₂.spares_iunlockput hG fun s₃ h₃ hS₃ => hNone s₃ h₃ ((hS₁.trans hS₂).drop.trans hS₃)
          · have hS₂ : Spares sb (ip ::ₘ c) s₁ s₂ := hL₂.spares hR₂
            rw [Multiset.cons_swap] at h₂
            dsimp only
            rw [wp_bind]
            refine h₂.spares_iunlockput hG fun s₃ h₃ hS₃ => ?_
            have hS := (hS₁.trans hS₂).drop.trans hS₃.drop
            refine ih h₃ (by omega) (fun s' h' hS' => ?_) fun ip' name s' h' hS' => ?_
            · exact hNone s' h' (hS.trans hS')
            · exact hSome ip' name s' h' (hS.trans hS')
      · rw [if_pos hDir, wp_bind]
        exact h₁.spares_iunlockput hG fun s₂ h₂ hS₂ => hNone s₂ h₂ (hS₁.drop.trans hS₂)

theorem Fit.spares_namex (hG : Geom sb) (h : Fit M c s) (hRoot : rootino < sb.ninodes)
    (hCwd : ∀ j, (s.proc p).cwd = some j → j ∈ c) (parent : Bool) {Q : Option (Nat × List UInt8) → Kern → Prop}
    (hNone : ∀ s', Fit M c s' → Spares sb c s s' → Q none s')
    (hSome : ∀ ip name s', Fit M (ip ::ₘ c) s' → Spares sb c s s' → Q (some (ip, name)) s') :
    wp .loose (namex p path parent) Q s := by
  have hWalk : ∀ ip s₁, Fit M (ip ::ₘ c) s₁ → Looked s s₁ → Rests (inUse c) s s₁ →
      wp .loose (namexFrom parent (path.length + 1) ip path []) Q s₁ := fun ip s₁ h₁ hL₁ hR₁ =>
    h₁.spares_namexFrom hG parent (Nat.lt_succ_self _) (fun s' h' hS' => hNone s' h' ((hL₁.spares hR₁).trans hS'))
      fun ip' name s' h' hS' => hSome ip' name s' h' ((hL₁.spares hR₁).trans hS')
  rw [namex]
  by_cases hSlash : path.head? = some slash
  · rw [if_pos hSlash, wp_bind]
    exact h.wp_iget loose_allows hRoot fun ip s₁ h₁ hL₁ hR₁ _ => hWalk ip s₁ h₁ hL₁ hR₁
  · rw [if_neg hSlash, wp_bind]
    exact h.wp_idupCwd loose_allows hCwd hWalk

theorem Fit.spares_namei (hG : Geom sb) (h : Fit M c s) (hRoot : rootino < sb.ninodes)
    (hCwd : ∀ j, (s.proc p).cwd = some j → j ∈ c) {Q : Option Nat → Kern → Prop}
    (hNone : ∀ s', Fit M c s' → Spares sb c s s' → Q none s')
    (hSome : ∀ ip s', Fit M (ip ::ₘ c) s' → Spares sb c s s' → Q (some ip) s') : wp .loose (namei p path) Q s := by
  rw [namei, wp_bind]
  exact h.spares_namex hG hRoot hCwd false hNone fun ip _ s' h' hS' => hSome ip s' h' hS'

theorem Fit.spares_dirlink (hG : Geom sb) (h : Fit M c s) {dp inum : Nat} (hMine : Mine c s dp) {Q : Bool → Kern → Prop}
    (hTrue : ∀ s', Q true s') (hFalse : ∀ s', Fit M c s' → Spares sb c s s' → Q false s') :
    wp .loose (dirlink dp name inum) Q s := by
  rw [dirlink, wp_bind]
  refine h.wp_dirlookup loose_allows hMine (fun s₁ _ _ => ?_) fun ip i s₁ _ _ h₁ hL₁ hR₁ => ?_
  · have hYields : Yields (do
        let d ← getInode dp
        let off ← emptyEntryFrom dp (dirFuel d.di) 0
        let r ← writei dp (encodeDirent inum name) off
        if r ≠ some direntSz then panic .dirlink else return true) (· = true) := by
      refine .bind fun d => .bind fun off => .bind fun r => ?_
      split
      · exact yields_panic _
      · exact .pure rfl
    exact hYields.wp fun b s' hb => hb ▸ hTrue s'
  · dsimp only
    rw [wp_bind]
    exact h₁.spares_iput hG fun s₂ h₂ hS₂ => hFalse s₂ h₂ ((hL₁.spares hR₁).trans hS₂)

end Paths

section Calls

variable {sb : Superblock} {M : LowBits sb} {c : Multiset Nat} {s s' : Kern} {ip dp p : Nat}

abbrev Failed (sb : Superblock) (c : Multiset Nat) (s : Kern) (r : Int) (s' : Kern) : Prop := r = -1 → Spares sb c s s'

theorem yields_unlinkEntry (off : Nat) : Yields (unlinkEntry dp ip off) (· = 0) := by
  rw [unlinkEntry]
  refine .bind fun r => ?_
  split
  · exact yields_panic _
  · refine .bind fun i => ?_
    have hEnd : Yields (do
        iunlockput dp
        nlinkDec ip
        iupdate ip
        iunlockput ip
        commitTransK
        return 0) (· = (0 : Int)) :=
      .bind fun _ => .bind fun _ => .bind fun _ => .bind fun _ => .bind fun _ => .pure rfl
    split
    · exact .bind fun _ => .bind fun _ => hEnd
    · exact hEnd

theorem Fit.spares_linkBad (hG : Geom sb) {s₀ : Kern} (h : Fit M (ip ::ₘ c) s) (hUp : Relinked sb ip 1 s₀ s')
    (hMid : Spares sb (ip ::ₘ c) s' s) (hLt : (files s₀ (s₀.inode ip).inum).nlink < 2 ^ 16) :
    wp .loose (linkBad ip) (fun _ s' => Spares sb c s₀ s') s := by
  rw [linkBad, wp_bind]
  refine h.spares_ilock hG (Multiset.mem_cons_self ip c) fun s₁ h₁ hS₁ hMine => ?_
  refine h₁.relinks hG hMine (2 ^ 16 - 1) fun s₂ h₂ hDown => ?_
  have hS₂ := Spares.undone hUp (hMid.trans hS₁) hDown hLt
  rw [wp_bind]
  refine h₂.spares_iunlockput hG fun s₃ h₃ hS₃ => ?_
  rw [wp_bind]
  exact h₃.spares_commitTransK fun s₄ _ hS₄ => (hS₂.drop.trans hS₃).trans hS₄

theorem Fit.failed_sysLink (hG : Geom sb) (h : Fit M c s) (hRoot : rootino < sb.ninodes)
    (hCwd : ∀ j, (s.proc p).cwd = some j → j ∈ c) (old new : Option (List UInt8)) :
    wp .loose (sysLink p old new) (Failed sb c s) s := by
  cases old with
  | none => exact fun _ => .refl sb c s
  | some old =>
    cases new with
    | none => exact fun _ => .refl sb c s
    | some new =>
      rw [sysLink, wp_bind]
      refine h.spares_namei hG hRoot hCwd (fun s₁ _ hS₁ _ => hS₁) fun ip s₁ h₁ hS₁ => ?_
      have hMem : ip ∈ ip ::ₘ c := Multiset.mem_cons_self ip c
      dsimp only
      rw [wp_bind]
      refine h₁.spares_beginTransK fun s₂ h₂ hS₂ => ?_
      rw [wp_bind]
      refine h₂.spares_ilock hG hMem fun s₃ h₃ hS₃ hMine => ?_
      have hStart : Spares sb c s s₃ := hS₁.trans (hS₂.trans hS₃).drop
      rw [wp_bind]
      apply wp_getK loose_allows
      by_cases hDir : (s₃.inode ip).di.type = tDir
      · rw [if_pos hDir, wp_bind]
        refine h₃.spares_iunlockput hG fun s₄ h₄ hS₄ => ?_
        rw [wp_bind]
        exact h₄.spares_commitTransK fun s₅ _ hS₅ _ => (hStart.trans hS₄).trans hS₅
      · rw [if_neg hDir]
        have hLt : (files s₃ (s₃.inode ip).inum).nlink < 2 ^ 16 := by
          rw [files, h₃.cache.eff_live hMine.live, fileOf, if_neg (h₃.typed ip hMine.live)]
          exact (h₃.cache.ok ip hMine.live).nlink
        have hBad : ∀ s₄ s₅, Relinked sb ip 1 s₃ s₄ → Fit M (ip ::ₘ c) s₅ → Spares sb (ip ::ₘ c) s₄ s₅ →
            wp .loose (linkBad ip) (Failed sb c s) s₅ := fun s₄ s₅ hUp h₅ hMid =>
          wp_mono (h₅.spares_linkBad hG hUp hMid hLt) fun _ _ hS _ => hStart.trans hS
        refine h₃.relinks hG hMine 1 fun s₄ h₄ hUp => ?_
        rw [wp_bind]
        refine h₄.spares_iunlock hMem fun s₅ h₅ hS₅ => ?_
        have hCwd₅ : ∀ j, (s₅.proc p).cwd = some j → j ∈ ip ::ₘ c := fun j hj =>
          Multiset.mem_cons_of_mem (hCwd j (by rwa [hS₅.proc, hUp.proc, hStart.proc] at hj))
        rw [wp_bind]
        refine h₅.spares_namex hG hRoot hCwd₅ true (fun s₆ h₆ hS₆ => hBad s₄ s₆ hUp h₆ (hS₅.trans hS₆))
          fun dp name s₆ h₆ hS₆ => ?_
        dsimp only
        rw [wp_bind]
        refine h₆.spares_ilock hG (Multiset.mem_cons_self dp _) fun s₇ h₇ hS₇ hMineD => ?_
        rw [wp_bind]
        apply wp_getK loose_allows
        rw [wp_bind]
        refine h₇.spares_dirlink hG hMineD (fun s₈ => ?_) fun s₈ h₈ hS₈ => ?_
        · rw [if_pos rfl]
          have hZero : Yields (do
              iunlockput dp
              iput ip
              commitTransK
              return 0) (· = (0 : Int)) := .bind fun _ => .bind fun _ => .bind fun _ => .pure rfl
          exact hZero.wp fun r s' hr hFail => absurd (hr.symm.trans hFail) (by decide)
        · rw [if_neg Bool.false_ne_true, wp_bind]
          refine h₈.spares_iunlockput hG fun s₉ h₉ hS₉ => ?_
          exact hBad s₄ s₉ hUp h₉ ((hS₅.trans hS₆).trans ((hS₇.trans hS₈).drop.trans hS₉))

theorem Fit.failed_unlinkBad (hG : Geom sb) {s₀ : Kern} (h : Fit M (dp ::ₘ c) s) (hS : Spares sb c s₀ s) :
    wp .loose (unlinkBad dp) (Failed sb c s₀) s := by
  rw [unlinkBad, wp_bind]
  refine h.spares_iunlockput hG fun s₁ h₁ hS₁ => ?_
  rw [wp_bind]
  exact h₁.spares_commitTransK fun s₂ _ hS₂ _ => (hS.trans hS₁).trans hS₂

theorem Fit.failed_sysUnlink (hG : Geom sb) (h : Fit M c s) (hRoot : rootino < sb.ninodes)
    (hCwd : ∀ j, (s.proc p).cwd = some j → j ∈ c) (path : Option (List UInt8)) :
    wp .loose (sysUnlink p path) (Failed sb c s) s := by
  cases path with
  | none => exact fun _ => .refl sb c s
  | some path =>
    rw [sysUnlink, wp_bind]
    refine h.spares_namex hG hRoot hCwd true (fun s₁ _ hS₁ _ => hS₁) fun dp name s₁ h₁ hS₁ => ?_
    dsimp only
    rw [wp_bind]
    refine h₁.spares_beginTransK fun s₂ h₂ hS₂ => ?_
    rw [wp_bind]
    refine h₂.spares_ilock hG (Multiset.mem_cons_self dp c) fun s₃ h₃ hS₃ hMine => ?_
    have hStart : Spares sb c s s₃ := hS₁.trans (hS₂.trans hS₃).drop
    have hEntry (ip off : Nat) (s₄ : Kern) : wp .loose (unlinkEntry dp ip off) (Failed sb c s) s₄ :=
      (yields_unlinkEntry off).wp fun r s' hr hFail => absurd (hr.symm.trans hFail) (by decide)
    by_cases hDots : namecmp name dot = true ∨ namecmp name dotdot = true
    · rw [if_pos hDots]
      exact h₃.failed_unlinkBad hG hStart
    · rw [if_neg hDots, wp_bind]
      refine h₃.wp_dirlookup loose_allows hMine (fun s₄ _ hs => ?_) fun ip i s₄ _ _ h₄ hL₄ hR₄ => ?_
      · exact (h₃.same hs).1.failed_unlinkBad hG (hStart.trans (h₃.spares_same hs).drop)
      · have hS₄ : Spares sb (dp ::ₘ c) s₃ s₄ := hL₄.spares hR₄
        dsimp only
        rw [wp_bind]
        refine h₄.spares_ilock hG (Multiset.mem_cons_self ip _) fun s₅ h₅ hS₅ hMine₅ => ?_
        rw [wp_bind]
        apply wp_getK loose_allows
        by_cases hLinks : (s₅.inode ip).di.nlink = 0 ∨ 2 ^ 15 ≤ (s₅.inode ip).di.nlink
        · rw [if_pos hLinks]
          exact wp_panic loose_allows (by simp) (by simp)
        rw [if_neg hLinks]
        by_cases hDir : (s₅.inode ip).di.type = tDir
        · rw [if_pos hDir, wp_bind]
          refine h₅.wp_isdirempty loose_allows hMine₅ hDir fun b s₆ hs => ?_
          cases b with
          | true =>
            rw [if_pos rfl]
            exact hEntry ip _ s₆
          | false =>
            rw [if_neg Bool.false_ne_true, wp_bind]
            refine (h₅.same hs).1.spares_iunlockput hG fun s₇ h₇ hS₇ => ?_
            have hS : Spares sb (dp ::ₘ c) s₃ s₇ := (hS₄.trans (hS₅.trans (h₅.spares_same hs)).drop).trans hS₇
            exact h₇.failed_unlinkBad hG (hStart.trans hS.drop)
        · rw [if_neg hDir]
          exact hEntry ip _ s₅

theorem Fit.spares_create (hG : Geom sb) (h : Fit M c s) (hRoot : rootino < sb.ninodes)
    (hCwd : ∀ j, (s.proc p).cwd = some j → j ∈ c) {path : List UInt8} {type major minor : Nat} {Q : Option Nat → Kern → Prop}
    (hNone : ∀ s', Fit M c s' → Spares sb c s s' → Q none s') (hSome : ∀ ip s', Q (some ip) s') :
    wp .loose (create p path type major minor) Q s := by
  rw [create, wp_bind]
  refine h.spares_namex hG hRoot hCwd true hNone fun dp name s₁ h₁ hS₁ => ?_
  dsimp only
  rw [wp_bind]
  refine h₁.spares_ilock hG (Multiset.mem_cons_self dp c) fun s₂ h₂ hS₂ hMine => ?_
  rw [wp_bind]
  refine h₂.wp_dirlookup loose_allows hMine (fun s₃ _ _ => ?_) fun ip i s₃ _ _ h₃ hL₃ hR₃ => ?_
  · have hYields : Yields (do
        let ip ← ialloc type
        ilock ip
        createIn dp ip name type major minor
        return some ip) (fun r => ∃ ip, r = some ip) :=
      .bind fun ip => .bind fun _ => .bind fun _ => .pure ⟨ip, rfl⟩
    refine hYields.wp fun r s' hr => ?_
    obtain ⟨ip, rfl⟩ := hr
    exact hSome ip s'
  · have hS₃ : Spares sb (dp ::ₘ c) s₂ s₃ := hL₃.spares hR₃
    rw [Multiset.cons_swap] at h₃
    dsimp only
    rw [wp_bind]
    refine h₃.spares_iunlockput hG fun s₄ h₄ hS₄ => ?_
    rw [wp_bind]
    refine h₄.spares_ilock hG (Multiset.mem_cons_self ip c) fun s₅ h₅ hS₅ _ => ?_
    rw [wp_bind]
    apply wp_getK loose_allows
    split
    · exact hSome ip s₅
    · rw [wp_bind]
      refine h₅.spares_iunlockput hG fun s₆ h₆ hS₆ => hNone s₆ h₆ ?_
      exact (hS₁.trans (hS₂.trans hS₃).drop).trans ((hS₄.trans hS₅).drop.trans hS₆)

theorem Fit.failed_makeNode (hG : Geom sb) (h : Fit M c s) (hRoot : rootino < sb.ninodes)
    (hCwd : ∀ j, (s.proc p).cwd = some j → j ∈ c) (path : Option (List UInt8)) (type major minor : Nat) :
    wp .loose (makeNode p path type major minor) (Failed sb c s) s := by
  cases path with
  | none =>
    rw [makeNode, wp_bind]
    refine h.spares_beginTransK fun s₁ h₁ hS₁ => ?_
    rw [wp_bind]
    exact h₁.spares_commitTransK fun s₂ _ hS₂ _ => hS₁.trans hS₂
  | some path =>
    rw [makeNode, wp_bind]
    refine h.spares_beginTransK fun s₁ h₁ hS₁ => ?_
    rw [wp_bind]
    refine h₁.spares_create hG hRoot (fun j hj => hCwd j (by rwa [hS₁.proc] at hj)) (fun s₂ h₂ hS₂ => ?_) fun ip s₂ => ?_
    · dsimp only
      rw [wp_bind]
      exact h₂.spares_commitTransK fun s₃ _ hS₃ _ => (hS₁.trans hS₂).trans hS₃
    · have hZero : Yields (do
          iunlockput ip
          commitTransK
          return 0) (· = (0 : Int)) := .bind fun _ => .bind fun _ => .pure rfl
      exact hZero.wp fun r s' hr hFail => absurd (hr.symm.trans hFail) (by decide)

theorem Fit.failed_sysChdir (hG : Geom sb) (h : Fit M c s) (hRoot : rootino < sb.ninodes)
    (hCwd : ∀ j, (s.proc p).cwd = some j → j ∈ c) (path : Option (List UInt8)) :
    wp .loose (sysChdir p path) (Failed sb c s) s := by
  cases path with
  | none => exact fun _ => .refl sb c s
  | some path =>
    rw [sysChdir, wp_bind]
    refine h.spares_namei hG hRoot hCwd (fun s₁ _ hS₁ _ => hS₁) fun ip s₁ h₁ hS₁ => ?_
    dsimp only
    rw [wp_bind]
    refine h₁.spares_ilock hG (Multiset.mem_cons_self ip c) fun s₂ h₂ hS₂ _ => ?_
    rw [wp_bind]
    apply wp_getK loose_allows
    split
    · rw [wp_bind]
      exact h₂.spares_iunlockput hG fun s₃ _ hS₃ _ => (hS₁.trans hS₂.drop).trans hS₃
    · have hZero : Yields (do
          iunlock ip
          iputCwd p
          modifyK fun s => Fs.setCwd s p (some ip)
          return 0) (· = (0 : Int)) := .bind fun _ => .bind fun _ => .bind fun _ => .pure rfl
      exact hZero.wp fun r s' hr hFail => absurd (hr.symm.trans hFail) (by decide)

theorem Fit.spares_readi (hG : Geom sb) (h : Fit M c s) (hMine : Mine c s ip) {off n : Nat} {Q : Option (List UInt8) → Kern → Prop}
    (hQ : ∀ r s', Fit M c s' → Mine c s' ip → Spares sb c s s' → Q r s') : wp .loose (readi ip off n) Q s :=
  h.wp_readi loose_allows hG trivial hMine fun r s' h' hL hR hSame =>
    hQ r s' h' (hMine.same hSame) ⟨hR.file, hR.proc, fun j hj => by
      by_cases hEq : j = ip
      · rw [hEq, hSame.inum]
      · exact hR.inum j ⟨hj, hEq⟩, fun k _ _ => hL.files k⟩

theorem Fit.spares_loadFrom (hG : Geom sb) (h : Fit M c s) (hMine : Mine c s ip) {mapped : Nat → Bool} {offset sz fuel i : Nat}
    {Q : Bool → Kern → Prop} (hQ : ∀ b s', Fit M c s' → Mine c s' ip → Spares sb c s s' → Q b s') :
    wp .loose (loadFrom ip mapped offset sz fuel i) Q s := by
  induction fuel generalizing s i with
  | zero => exact hQ true s h hMine (.refl sb c s)
  | succ fuel ih =>
    rw [loadFrom]
    split
    · exact hQ true s h hMine (.refl sb c s)
    split
    · exact wp_panic loose_allows (by simp) (by simp)
    rw [wp_bind]
    refine h.spares_readi hG hMine fun r s₁ h₁ hMine₁ hS₁ => ?_
    cases r with
    | none => exact hQ false s₁ h₁ hMine₁ hS₁
    | some b =>
      dsimp only
      split
      · exact hQ false s₁ h₁ hMine₁ hS₁
      · exact ih h₁ hMine₁ fun b s' h' hMine' hS' => hQ b s' h' hMine' (hS₁.trans hS')

theorem Fit.spares_loadSegments (hG : Geom sb) (h : Fit M c s) (hMine : Mine c s ip) {mem : ExecMem} {k off : Nat}
    {Q : Bool → Kern → Prop} (hQ : ∀ b s', Fit M c s' → Mine c s' ip → Spares sb c s s' → Q b s') :
    wp .loose (loadSegments ip mem k off) Q s := by
  induction k generalizing s off with
  | zero => exact hQ true s h hMine (.refl sb c s)
  | succ k ih =>
    rw [loadSegments, wp_bind]
    refine h.spares_readi hG hMine fun r s₁ h₁ hMine₁ hS₁ => ?_
    have hRest : ∀ s₂, Fit M c s₂ → Mine c s₂ ip → Spares sb c s s₂ → wp .loose (loadSegments ip mem k ((off + 32) % 2 ^ 32)) Q s₂ :=
      fun s₂ h₂ hMine₂ hS₂ => ih h₂ hMine₂ fun b s' h' hMine' hS' => hQ b s' h' hMine' (hS₂.trans hS')
    cases r with
    | none => exact hQ false s₁ h₁ hMine₁ hS₁
    | some ph =>
      dsimp only
      split
      · exact hQ false s₁ h₁ hMine₁ hS₁
      split
      · exact hRest s₁ h₁ hMine₁ hS₁
      split
      · exact hQ false s₁ h₁ hMine₁ hS₁
      split
      · exact wp_panic loose_allows (by simp) (by simp)
      rw [wp_bind]
      refine h₁.spares_loadFrom hG hMine₁ fun b s₂ h₂ hMine₂ hS₂ => ?_
      split
      · exact hRest s₂ h₂ hMine₂ (hS₁.trans hS₂)
      · exact hQ false s₂ h₂ hMine₂ (hS₁.trans hS₂)

theorem Fit.spares_exec (hG : Geom sb) (h : Fit M c s) (hRoot : rootino < sb.ninodes)
    (hCwd : ∀ j, (s.proc p).cwd = some j → j ∈ c) (path : Option (List UInt8)) (mem : ExecMem) :
    wp .loose (exec p path mem) (fun _ s' => Spares sb c s s') s := by
  cases path with
  | none => exact .refl sb c s
  | some path =>
    rw [exec, wp_bind]
    refine h.spares_namei hG hRoot hCwd (fun s₁ _ hS₁ => hS₁) fun ip s₁ h₁ hS₁ => ?_
    dsimp only
    rw [wp_bind]
    refine h₁.spares_ilock hG (Multiset.mem_cons_self ip c) fun s₂ h₂ hS₂ hMine => ?_
    have hEnd : ∀ (ok : Bool) s₃, Fit M (ip ::ₘ c) s₃ → Spares sb (ip ::ₘ c) s₂ s₃ → wp .loose (do
        iunlockput ip
        return if ok && mem.stack then 0 else -1 : FsM Int) (fun _ s' => Spares sb c s s') s₃ := fun ok s₃ h₃ hS₃ => by
      rw [wp_bind]
      exact h₃.spares_iunlockput hG fun s' _ hS' => (hS₁.trans (hS₂.trans hS₃).drop).trans hS'
    rw [wp_bind, execLoad, wp_bind]
    refine h₂.spares_readi hG hMine fun r s₃ h₃ hMine₃ hS₃ => ?_
    dsimp only
    split
    · exact hEnd false s₃ h₃ hS₃
    · exact h₃.spares_loadSegments hG hMine₃ fun ok s₄ h₄ _ hS₄ => hEnd ok s₄ h₄ (hS₃.trans hS₄)

theorem Fit.failed_fileread (hG : Geom sb) (h : Fit M c s) {f n : Nat}
    (hIp : (s.file f).type = .inode → (s.file f).ip ∈ c) :
    wp .loose (fileread f n) (fun r s' => r = none → Spares sb c s s') s := by
  rw [fileread, wp_bind]
  apply wp_getK loose_allows
  split
  · exact fun _ => .refl sb c s
  cases hType : (s.file f).type with
  | none => exact wp_panic loose_allows (by simp) (by simp)
  | inode =>
    have hMem := hIp hType
    dsimp only
    rw [wp_bind]
    refine h.spares_ilock hG hMem fun s₁ h₁ hS₁ hMine => ?_
    rw [wp_bind]
    apply wp_getK loose_allows
    rw [wp_bind]
    refine h₁.spares_readi hG hMine fun r s₂ h₂ _ hS₂ => ?_
    cases r with
    | none =>
      rw [if_neg (by decide), wp_bind]
      exact h₂.spares_iunlock hMem fun s₃ _ hS₃ _ => (hS₁.trans hS₂).trans hS₃
    | some bytes =>
      have hSome : Yields (do
          if 0 < ((some bytes).getD []).length then addOff f ((some bytes).getD []).length
          iunlock (s.file f).ip
          return some bytes : FsM (Option (List UInt8))) (· = some bytes) := by
        split
        · exact .bind fun _ => .bind fun _ => .pure rfl
        · exact .bind fun _ => .pure rfl
      exact hSome.wp fun r s' hr hFail => absurd (hr.symm.trans hFail) (Option.some_ne_none bytes)

theorem failed_sysDup (sb : Superblock) (c : Multiset Nat) (s : Kern) (p fd : Nat) : wp .loose (sysDup p fd) (Failed sb c s) s := by
  rw [sysDup, wp_bind]
  apply wp_getK loose_allows
  split
  · exact fun _ => .refl sb c s
  · rename_i f _
    rw [wp_bind]
    refine wp_act loose_allows ?_
    cases hFd : (List.range nofile).find? fun fd => (s.proc p).ofile fd == none with
    | none => exact fun _ => .refl sb c s
    | some fd =>
      have hFd : Yields (do
          let _ ← filedup f
          return (fd : Int)) (0 ≤ ·) := .bind fun _ => .pure (Int.natCast_nonneg fd)
      exact hFd.wp fun r s' hr hFail => by omega

end Calls

end Xv6Rpi.Fs
