import Xv6Rpi.Fs.Kept
import Xv6Rpi.Fs.Naming

/-! # Open files and programs that are started

Reading and writing an open file moves its offset and keeps every cache entry; a write changes no other
inode than that of the file. Between two calls every inode is as it should be again.
-/

namespace Xv6Rpi.Fs

open Prog

structure Moves (s s' : Kern) : Prop where
  file : ∀ f, s'.file f = { s.file f with off := (s'.file f).off }
  proc : s'.proc = s.proc
  entry : ∀ j, SameEntry (s.inode j) (s'.inode j)

section Moves

variable {α : Type}

instance : IsPreorder Kern Moves where
  refl _ := ⟨fun _ => rfl, rfl, fun _ => .refl _⟩
  trans s s₁ s' h h' := by
    refine ⟨fun f => ?_, h'.proc.trans h.proc, fun j => (h.entry j).trans (h'.entry j)⟩
    rw [h'.file f, h.file f]

theorem Still.moves {s s' : Kern} (h : Still s s') : Moves s s' := ⟨fun f => by rw [h.file], h.proc, h.entry⟩

theorem Quiet.moves {x : FsM α} (h : Quiet x) : Prog.Leads Moves x := fun _ => h.leads.wp fun _ _ hs => hs.moves

theorem moves_addOff (f r : Nat) : Prog.Leads Moves (addOff f r) := by
  refine Prog.leads_single fun s _ s' hEq => ?_
  cases hEq
  refine ⟨fun f' => ?_, rfl, fun _ => .refl _⟩
  simp only [setFile, Function.update_apply]
  split
  · rename_i hf
    rw [hf]
  · rfl

theorem moves_fileread (f n : Nat) : Prog.Leads Moves (fileread f n) := by
  refine leads_bind (quiet_getK _).moves fun ff => ?_
  split
  · exact leads_pure none
  · cases ff.type with
    | none => exact (quiet_panic _).moves
    | inode =>
      refine leads_bind (quiet_ilock _).moves fun _ => leads_bind (quiet_getK _).moves fun off =>
        leads_bind (quiet_readi _ _ _).moves fun r => ?_
      have hEnd : Prog.Leads Moves (do iunlock ff.ip; return r : FsM (Option (List UInt8))) :=
        leads_bind (quiet_iunlock _).moves fun _ => leads_pure r
      split
      · exact leads_bind (moves_addOff f _) fun _ => hEnd
      · exact hEnd

theorem moves_filewriteChunk (f ip : Nat) (src : List UInt8) : Prog.Leads Moves (filewriteChunk f ip src) := by
  refine leads_bind quiet_beginTransK.moves fun _ => leads_bind (quiet_ilock ip).moves fun _ =>
    leads_bind (quiet_getK _).moves fun off => leads_bind (quiet_writei ip src off).moves fun r => ?_
  have hEnd : Prog.Leads Moves (do iunlock ip; commitTransK; return r : FsM (Option Nat)) :=
    leads_bind (quiet_iunlock ip).moves fun _ => leads_bind quiet_commitTransK.moves fun _ => leads_pure r
  split
  · exact leads_bind (moves_addOff f _) fun _ => hEnd
  · exact hEnd

theorem moves_filewriteFrom (f ip fuel : Nat) (src : List UInt8) : Prog.Leads Moves (filewriteFrom f ip fuel src) := by
  induction fuel generalizing src with
  | zero => exact leads_pure _
  | succ fuel ih =>
    rw [filewriteFrom]
    split
    · exact leads_pure true
    · refine leads_bind (moves_filewriteChunk f ip _) fun r => ?_
      cases r with
      | none => exact leads_pure false
      | some r =>
        dsimp only
        split
        · exact (quiet_panic _).moves
        · exact ih _

theorem moves_filewrite (f : Nat) (src : List UInt8) : Prog.Leads Moves (filewrite f src) := by
  refine leads_bind (quiet_getK _).moves fun ff => ?_
  split
  · exact leads_pure (-1)
  · cases ff.type with
    | none => exact (quiet_panic _).moves
    | inode =>
      refine leads_bind (moves_filewriteFrom f ff.ip _ src) fun done => ?_
      split
      · exact leads_pure _
      · exact leads_pure _

end Moves

section Files

variable {R : Rely Kern Stop Label} {sb : Superblock} {M : LowBits sb} {c : Multiset Nat} {s s' : Kern} {ip f n : Nat}

theorem Fit.setFile (h : Fit M c s) (f : Nat) (x : File) : Fit M c (setFile s f x) ∧ Looked s (Fs.setFile s f x) :=
  h.of_home rfl rfl ⟨h.mounted.start, h.mounted.size, h.mounted.super, h.mounted.log⟩

theorem Fit.setCwd (h : Fit M c s) (p : Nat) (o : Option Nat) : Fit M c (setCwd s p o) ∧ Looked s (Fs.setCwd s p o) :=
  h.of_home rfl rfl ⟨h.mounted.start, h.mounted.size, h.mounted.super, h.mounted.log⟩

theorem Fit.wp_addOff (hR : Allows R) (h : Fit M c s) {r : Nat} {Q : Unit → Kern → Prop}
    (hQ : ∀ s', Fit M c s' → Looked s s' → s'.inode = s.inode → Q () s') : wp R (addOff f r) Q s := by
  obtain ⟨h', hLooked⟩ := h.setFile f { s.file f with off := ((s.file f).off + r) % 2 ^ 32 }
  exact wp_modifyK hR (hQ _ h' hLooked rfl)

theorem Fit.wp_fileread (hR : Allows R) (hG : Geom sb) (hStop : R.stop (.panic .ilockNoType)) (h : Fit M c s)
    (hIp : (s.file f).type = .inode → (s.file f).ip ∈ c) {Q : Option (List UInt8) → Kern → Prop}
    (hQ : ∀ r s', Fit M c s' → Q r s') : wp R (fileread f n) Q s := by
  rw [fileread, wp_bind]
  apply wp_getK hR
  by_cases hRead : (!(s.file f).readable) = true
  · rw [if_pos hRead]
    exact hQ none s h
  rw [if_neg hRead]
  cases hType : (s.file f).type with
  | none => exact wp_panic hR (by simp) (by simp)
  | inode =>
    have hMem := hIp hType
    dsimp only
    rw [wp_bind]
    refine h.wp_ilock hR hG hStop hMem fun s₁ h₁ _ _ hLock => ?_
    have hMine : Mine c s₁ (s.file f).ip := .of_locked hMem hLock
    rw [wp_bind]
    apply wp_getK hR
    rw [wp_bind]
    refine h₁.wp_readi hR hG hStop hMine fun r s₂ h₂ _ _ _ => ?_
    have hEnd : ∀ s₃, Fit M c s₃ → wp R (do iunlock (s.file f).ip; return r : FsM (Option (List UInt8))) Q s₃ := fun s₃ h₃ => by
      rw [wp_bind]
      exact h₃.wp_iunlock hR hMem fun s' h' _ _ _ => hQ r s' h'
    by_cases hMore : 0 < (r.getD []).length
    · rw [if_pos hMore, wp_bind]
      exact h₂.wp_addOff hR fun s₃ h₃ _ _ => hEnd s₃ h₃
    · rw [if_neg hMore]
      exact hEnd s₂ h₂

structure Filelike (s : Kern) (ip : Nat) : Prop where
  valid : (s.inode ip).valid = true
  type : (s.inode ip).di.type ≠ tDir

theorem Filelike.congr (h : Filelike s ip) (hInode : s'.inode = s.inode) : Filelike s' ip := by
  refine ⟨?_, ?_⟩
  · rw [hInode]
    exact h.valid
  · rw [hInode]
    exact h.type

theorem SameEntry.filelike (h : SameEntry (s.inode ip) (s'.inode ip)) (hs : Filelike s ip) : Filelike s' ip := by
  obtain ⟨hValid, hType⟩ := h.valid hs.valid
  exact ⟨hValid, hType ▸ hs.type⟩

theorem Quiet.filelike {α : Type} {x : FsM α} (hx : Quiet x) (h : Filelike s ip) : wp .loose x (fun _ s' => Filelike s' ip) s :=
  hx.leads.wp fun _ _ hs => (hs.entry ip).filelike h

structure Elsewhere (sb : Superblock) (ip : Nat) (s s' : Kern) : Prop where
  inum : (s'.inode ip).inum = (s.inode ip).inum
  files : ∀ k < sb.ninodes, k ≠ (s.inode ip).inum → files s' k = files s k

theorem Elsewhere.refl (sb : Superblock) (ip : Nat) (s : Kern) : Elsewhere sb ip s s := ⟨rfl, fun _ _ _ => rfl⟩

theorem Elsewhere.trans {s₁ : Kern} (h : Elsewhere sb ip s s₁) (h' : Elsewhere sb ip s₁ s') : Elsewhere sb ip s s' :=
  ⟨h'.inum.trans h.inum, fun k hk hNe => (h'.files k hk (h.inum.symm ▸ hNe)).trans (h.files k hk hNe)⟩

theorem Looked.elsewhere (h : Looked s s') (hInum : (s'.inode ip).inum = (s.inode ip).inum) : Elsewhere sb ip s s' :=
  ⟨hInum, fun k _ _ => h.files k⟩

theorem Fit.wp_filewriteChunk [CommitsIn R (InOrder M)] (hR : Relies M R) (hG : Geom sb)
    (hStop : R.stop (.panic .ilockNoType)) (h : Fit M c s)
    (hMem : ip ∈ c) (hPlain : Filelike s ip) {src : List UInt8} {Q : Option Nat → Kern → Prop}
    (hQ : ∀ r s', Fit M c s' → Elsewhere sb ip s s' → Q r s') : wp R (filewriteChunk f ip src) Q s := by
  rw [filewriteChunk, wp_bind]
  refine wp_mono (wp_and (h.wp_beginTransK hR.stop (Q := fun _ s₁ => Fit M c s₁ ∧ Looked s s₁ ∧ s₁.inode = s.inode)
    fun s₁ h₁ hL₁ _ hInode => ⟨h₁, hL₁, hInode⟩) (quiet_beginTransK.filelike hPlain)) fun _ s₁ hs₁ => ?_
  obtain ⟨⟨h₁, hL₁, hInode₁⟩, hPlain₁⟩ := hs₁
  have hElse₁ : Elsewhere sb ip s s₁ := hL₁.elsewhere (by rw [hInode₁])
  rw [wp_bind]
  refine wp_mono (wp_and (h₁.wp_ilock hR.stop hG hStop hMem (Q := fun _ s₂ => Fit M c s₂ ∧ Looked s₁ s₂ ∧ LockedAt s₁ s₂ ip)
    fun s₂ h₂ hL₂ _ hLock => ⟨h₂, hL₂, hLock⟩) ((quiet_ilock ip).filelike hPlain₁)) fun _ s₂ hs₂ => ?_
  obtain ⟨⟨h₂, hL₂, hLock⟩, hPlain₂⟩ := hs₂
  have hMine : Mine c s₂ ip := .of_locked hMem hLock
  rw [wp_bind]
  apply wp_getK hR.stop
  rw [wp_bind]
  refine h₂.wp_writei hR hG hStop hMine (fun hDir => absurd hDir hPlain₂.type) fun r s₃ h₃ _ hSame₃ hFiles₃ => ?_
  have hElse₃ : Elsewhere sb ip s s₃ := (hElse₁.trans (hL₂.elsewhere hLock.inum)).trans ⟨hSame₃.inum, hFiles₃⟩
  have hEnd : ∀ s₄, Fit M c s₄ → Elsewhere sb ip s s₄ → wp R (do iunlock ip; commitTransK; return r : FsM (Option Nat)) Q s₄ :=
    fun s₄ h₄ hElse₄ => by
      rw [wp_bind]
      refine h₄.wp_iunlock hR.stop hMem fun s₅ h₅ hL₅ _ hSlot₅ => ?_
      rw [wp_bind]
      refine h₅.wp_commitTransK hR.stop fun s' h' hL' _ hInode' => hQ r s' h' ?_
      exact (hElse₄.trans (hL₅.elsewhere (by rw [hSlot₅]))).trans (hL'.elsewhere (by rw [hInode']))
  by_cases hMore : 0 < r.getD 0
  · rw [if_pos hMore, wp_bind]
    exact h₃.wp_addOff hR.stop fun s₄ h₄ hL₄ hInode₄ => hEnd s₄ h₄ (hElse₃.trans (hL₄.elsewhere (by rw [hInode₄])))
  · rw [if_neg hMore]
    exact hEnd s₃ h₃ hElse₃

theorem Fit.wp_filewriteFrom [CommitsIn R (InOrder M)] (hR : Relies M R) (hG : Geom sb)
    (hStop : R.stop (.panic .ilockNoType)) (h : Fit M c s)
    (hMem : ip ∈ c) (hPlain : Filelike s ip) {fuel : Nat} {src : List UInt8} {Q : Bool → Kern → Prop}
    (hQ : ∀ b s', Fit M c s' → Elsewhere sb ip s s' → Q b s') : wp R (filewriteFrom f ip fuel src) Q s := by
  induction fuel generalizing s src with
  | zero => exact hQ _ s h (.refl sb ip s)
  | succ fuel ih =>
    rw [filewriteFrom]
    by_cases hNil : src = []
    · rw [if_pos hNil]
      exact hQ true s h (.refl sb ip s)
    rw [if_neg hNil, wp_bind]
    refine wp_mono (wp_and (h.wp_filewriteChunk hR hG hStop hMem hPlain (Q := fun _ s₁ => Fit M c s₁ ∧ Elsewhere sb ip s s₁)
      fun _ s₁ h₁ hElse₁ => ⟨h₁, hElse₁⟩) (moves_filewriteChunk f ip (src.take maxWrite) s)) fun r s₁ hs₁ => ?_
    obtain ⟨⟨h₁, hElse₁⟩, hMoves⟩ := hs₁
    cases r with
    | none => exact hQ false s₁ h₁ hElse₁
    | some r =>
      dsimp only
      by_cases hShort : r ≠ (src.take maxWrite).length
      · rw [if_pos hShort]
        exact wp_panic hR.stop (by simp) (by simp)
      · rw [if_neg hShort]
        exact ih h₁ ((hMoves.entry ip).filelike hPlain) fun b s' h' hElse' => hQ b s' h' (hElse₁.trans hElse')

/-- A write to an open file that is no directory leaves all other inodes alone. -/
theorem Fit.wp_filewrite [CommitsIn R (InOrder M)] (hR : Relies M R) (hG : Geom sb)
    (hStop : R.stop (.panic .ilockNoType)) (h : Fit M c s)
    (hIp : (s.file f).type = .inode → (s.file f).writable = true → (s.file f).ip ∈ c ∧ Filelike s (s.file f).ip)
    {src : List UInt8} {Q : Int → Kern → Prop}
    (hQ : ∀ r s', Fit M c s' → ((s.file f).writable = false ∧ s' = s ∨
      (s.file f).ip ∈ c ∧ Filelike s (s.file f).ip ∧ Elsewhere sb (s.file f).ip s s') → Q r s') :
    wp R (filewrite f src) Q s := by
  rw [filewrite, wp_bind]
  apply wp_getK hR.stop
  cases hWrite : (s.file f).writable with
  | false =>
    rw [if_pos (by rfl)]
    exact hQ (-1) s h (Or.inl ⟨hWrite, rfl⟩)
  | true =>
    rw [if_neg (by decide)]
    cases hType : (s.file f).type with
    | none => exact wp_panic hR.stop (by simp) (by simp)
    | inode =>
      obtain ⟨hMem, hPlain⟩ := hIp hType hWrite
      dsimp only
      rw [wp_bind]
      refine h.wp_filewriteFrom hR hG hStop hMem hPlain fun done s' h' hElse => ?_
      by_cases hDone : done = true
      · rw [if_pos hDone]
        exact hQ _ s' h' (Or.inr ⟨hMem, hPlain, hElse⟩)
      · rw [if_neg hDone]
        exact hQ _ s' h' (Or.inr ⟨hMem, hPlain, hElse⟩)

end Files

section Programs

variable {R : Rely Kern Stop Label} {sb : Superblock} {M : LowBits sb} {c : Multiset Nat} {s s' : Kern} {ip p : Nat}

theorem Fit.wp_loadFrom (hR : Allows R) (hG : Geom sb) (hStop : R.stop (.panic .ilockNoType)) (h : Fit M c s) (hMine : Mine c s ip)
    {mapped : Nat → Bool} {offset sz fuel i : Nat} {Q : Bool → Kern → Prop} (hQ : ∀ b s', Fit M c s' → Mine c s' ip → Q b s') :
    wp R (loadFrom ip mapped offset sz fuel i) Q s := by
  induction fuel generalizing s i with
  | zero => exact hQ true s h hMine
  | succ fuel ih =>
    rw [loadFrom]
    by_cases hEnd : sz ≤ i
    · rw [if_pos hEnd]
      exact hQ true s h hMine
    rw [if_neg hEnd]
    by_cases hMap : (!mapped i) = true
    · rw [if_pos hMap]
      exact wp_panic hR (by simp) (by simp)
    rw [if_neg hMap, wp_bind]
    refine h.wp_readi hR hG hStop hMine fun r s₁ h₁ _ _ hSame => ?_
    have hMine₁ := hMine.same hSame
    cases r with
    | none => exact hQ false s₁ h₁ hMine₁
    | some b =>
      dsimp only
      by_cases hLen : b.length ≠ min (sz - i) pteSz
      · rw [if_pos hLen]
        exact hQ false s₁ h₁ hMine₁
      · rw [if_neg hLen]
        exact ih h₁ hMine₁

theorem Fit.wp_loadSegments (hR : Allows R) (hG : Geom sb) (hStop : R.stop (.panic .ilockNoType)) (h : Fit M c s) (hMine : Mine c s ip)
    {mem : ExecMem} {k off : Nat} {Q : Bool → Kern → Prop} (hQ : ∀ b s', Fit M c s' → Mine c s' ip → Q b s') :
    wp R (loadSegments ip mem k off) Q s := by
  induction k generalizing s off with
  | zero => exact hQ true s h hMine
  | succ k ih =>
    rw [loadSegments, wp_bind]
    refine h.wp_readi hR hG hStop hMine fun r s₁ h₁ _ _ hSame => ?_
    have hMine₁ := hMine.same hSame
    cases r with
    | none => exact hQ false s₁ h₁ hMine₁
    | some ph =>
      dsimp only
      split
      · exact hQ false s₁ h₁ hMine₁
      split
      · exact ih h₁ hMine₁
      split
      · exact hQ false s₁ h₁ hMine₁
      split
      · exact wp_panic hR (by simp) (by simp)
      rw [wp_bind]
      refine h₁.wp_loadFrom hR hG hStop hMine₁ fun b s₂ h₂ hMine₂ => ?_
      split
      · exact ih h₂ hMine₂
      · exact hQ false s₂ h₂ hMine₂

theorem Fit.wp_execLoad (hR : Allows R) (hG : Geom sb) (hStop : R.stop (.panic .ilockNoType)) (h : Fit M c s) (hMine : Mine c s ip)
    {mem : ExecMem} {Q : Bool → Kern → Prop} (hQ : ∀ b s', Fit M c s' → Q b s') : wp R (execLoad ip mem) Q s := by
  rw [execLoad, wp_bind]
  refine h.wp_readi hR hG hStop hMine fun r s₁ h₁ _ _ hSame => ?_
  dsimp only
  split
  · exact hQ false s₁ h₁
  · exact h₁.wp_loadSegments hR hG hStop (hMine.same hSame) fun b s' h' _ => hQ b s' h'

theorem Fit.wp_exec (hR : Allows R) (hG : Geom sb) (hStop : R.stop (.panic .ilockNoType)) (h : Fit M c s)
    (hRoot : rootino < sb.ninodes) (hCwd : ∀ j, (s.proc p).cwd = some j → j ∈ c) {path : Option (List UInt8)} {mem : ExecMem}
    {Q : Int → Kern → Prop} (hQ : ∀ r s', Fit M c s' → Q r s') : wp R (exec p path mem) Q s := by
  cases path with
  | none => exact hQ (-1) s h
  | some path =>
    rw [exec, wp_bind]
    refine h.wp_namei hR hG hStop hRoot hCwd (fun s₁ h₁ _ _ => hQ (-1) s₁ h₁) fun ip s₁ h₁ _ _ => ?_
    dsimp only
    rw [wp_bind]
    refine h₁.wp_ilock hR hG hStop (Multiset.mem_cons_self ip c) fun s₂ h₂ _ _ hLock => ?_
    rw [wp_bind]
    refine h₂.wp_execLoad hR hG hStop (.of_locked (Multiset.mem_cons_self ip c) hLock) fun ok s₃ h₃ => ?_
    rw [wp_bind]
    exact h₃.wp_iunlockput hR hG fun s' h' _ _ _ => hQ _ s' h'

theorem Fit.wp_makeNode [CommitsIn R (InOrder M)] (hR : Relies M R) (hG : Geom sb)
    (hStop : R.stop (.panic .ilockNoType)) (h : Fit M c s)
    (hRoot : rootino < sb.ninodes) (hCwd : ∀ j, (s.proc p).cwd = some j → j ∈ c) {path : Option (List UInt8)}
    {type major minor : Nat} (hType : type < 2 ^ 16) {Q : Int → Kern → Prop} (hQ : ∀ r s', Fit M c s' → Q r s') :
    wp R (makeNode p path type major minor) Q s := by
  have hEnd : ∀ {r : Int} {s₁ : Kern}, Fit M c s₁ → wp R (do commitTransK; return r : FsM Int) Q s₁ := fun {r s₁} h₁ => by
    rw [wp_bind]
    exact h₁.wp_commitTransK hR.stop fun s' h' _ _ _ => hQ r s' h'
  cases path with
  | none =>
    rw [makeNode, wp_bind]
    exact h.wp_beginTransK hR.stop fun s₁ h₁ _ _ _ => hEnd h₁
  | some path =>
    rw [makeNode, wp_bind]
    refine h.wp_beginTransK hR.stop fun s₁ h₁ _ hR₁ _ => ?_
    rw [wp_bind]
    refine h₁.wp_create hR hG hStop hRoot (fun j hj => hCwd j (by rwa [← hR₁.proc])) hType (fun s₂ h₂ _ => hEnd h₂)
      fun ip s₂ h₂ _ _ _ => ?_
    dsimp only
    rw [wp_bind]
    exact h₂.wp_iunlockput hR.stop hG fun s₃ h₃ _ _ _ => hEnd h₃

end Programs

end Xv6Rpi.Fs
