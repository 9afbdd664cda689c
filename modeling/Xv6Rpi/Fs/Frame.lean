import Xv6Rpi.Fs.Dir
import Xv6Rpi.Lib.Moves

/-! # Open files and current directories stay

Looking up a path, reading an inode and dropping it change neither the file table nor what a
process has open. While an inode that has been read is locked, `readi` finds it of the same kind and
size each time.
-/

namespace Xv6Rpi.Fs

open Prog

abbrev KeepsTables {α : Type} (x : FsM α) : Prop := x.Keeps fun s => (s.file, s.proc, s.devsw, s.inode)

/-- No action of the program changes the file table, the open files of a process or the devices. -/
abbrev KeepsFiles {α : Type} (x : FsM α) : Prop := x.Keeps fun s => (s.file, s.proc, s.devsw)

variable {α : Type}

section Blocks

theorem tables_single {l : Label} {f : Kern → Except Stop (α × Kern)} (h : ∀ s, match f s with
    | .error _ => True
    | .ok (_, s') => (s'.file, s'.proc, s'.devsw, s'.inode) = (s.file, s.proc, s.devsw, s.inode)) :
    KeepsTables (Prog.single l f) := by
  refine keeps_single fun s b s' hf => ?_
  have hs := h s
  rw [hf] at hs
  exact hs

theorem tables_panic (p : Panic) : KeepsTables (panic p : FsM α) := tables_single fun _ => trivial

theorem tables_breadAs (l : Label) (n : Nat) : KeepsTables (breadAs l n) := by
  refine tables_single fun s => ?_
  cases s.held n with
  | false => rfl
  | true => trivial

theorem tables_brelse (n : Nat) : KeepsTables (brelse n) := by
  refine tables_single fun s => ?_
  cases s.held n with
  | false => trivial
  | true => rfl

theorem tables_logWriteBuf (n : Nat) (data : Block) : KeepsTables (logWriteBuf n data) := by
  refine tables_single fun s => ?_
  cases logWrite s.log n data with
  | error p => trivial
  | ok r =>
    dsimp only
    cases r.2.any fun w => s.held w.1 with
    | false => rfl
    | true => trivial

theorem tables_readsbAs (l : Label) : KeepsTables (readsbAs l) :=
  keeps_bind (tables_breadAs l 1) fun _ => keeps_bind (tables_brelse 1) fun _ => keeps_pure _

theorem tables_bzero (bno : Nat) : KeepsTables (bzero bno) :=
  keeps_bind (tables_breadAs _ bno) fun _ => keeps_bind (tables_logWriteBuf bno _) fun _ => tables_brelse bno

theorem tables_ballocFrom (sb : Superblock) (k b : Nat) : KeepsTables (ballocFrom sb k b) := by
  induction k generalizing b with
  | zero => exact tables_panic _
  | succ k ih =>
    refine keeps_bind (tables_breadAs _ _) fun bp => ?_
    split
    · exact keeps_bind (tables_logWriteBuf _ _) fun _ => keeps_bind (tables_brelse _) fun _ =>
        keeps_bind (tables_bzero _) fun _ => keeps_pure _
    · exact keeps_bind (tables_brelse _) fun _ => ih _

theorem tables_balloc : KeepsTables balloc := keeps_bind (tables_readsbAs _) fun sb => tables_ballocFrom sb _ 0

theorem tables_bfree (b : Nat) : KeepsTables (bfree b) := by
  refine keeps_bind (tables_readsbAs _) fun sb => keeps_bind (tables_breadAs _ _) fun bp => ?_
  have hRest : KeepsTables (do
      logWriteBuf (bblock b sb.ninodes) (clearBit bp (b % bpb))
      brelse (bblock b sb.ninodes)) := keeps_bind (tables_logWriteBuf _ _) fun _ => tables_brelse _
  split
  · exact keeps_bind (tables_panic _) fun _ => hRest
  · exact hRest

theorem tables_bmapIndirect (ind bn : Nat) : KeepsTables (bmapIndirect ind bn) := by
  refine keeps_bind (tables_breadAs _ ind) fun bp => ?_
  split
  · exact keeps_bind tables_balloc fun _ => keeps_bind (tables_logWriteBuf ind _) fun _ =>
      keeps_bind (tables_brelse ind) fun _ => keeps_pure _
  · exact keeps_bind (tables_brelse ind) fun _ => keeps_pure _

end Blocks

theorem files_of_tables {x : FsM α} (h : KeepsTables x) : KeepsFiles x := by
  refine h.of_keeps fun s s' hEq => ?_
  simp only [Prod.mk.injEq] at hEq ⊢
  exact ⟨hEq.1, hEq.2.1, hEq.2.2.1⟩

theorem files_single {l : Label} {f : Kern → Except Stop (α × Kern)} (h : ∀ s, match f s with
    | .error _ => True
    | .ok (_, s') => (s'.file, s'.proc, s'.devsw) = (s.file, s.proc, s.devsw)) : KeepsFiles (Prog.single l f) := by
  refine keeps_single fun s b s' hf => ?_
  have hs := h s
  rw [hf] at hs
  exact hs

theorem files_getK (f : Kern → α) : KeepsFiles (getK f) := files_single fun _ => rfl

theorem files_modifyK {f : Kern → Kern} (h : ∀ s, ((f s).file, (f s).proc, (f s).devsw) = (s.file, s.proc, s.devsw)) :
    KeepsFiles (modifyK f) := files_single h

theorem files_panic (p : Panic) : KeepsFiles (panic p : FsM α) := files_of_tables (tables_panic p)

theorem files_breadAs (l : Label) (n : Nat) : KeepsFiles (breadAs l n) := files_of_tables (tables_breadAs l n)

theorem files_brelse (n : Nat) : KeepsFiles (brelse n) := files_of_tables (tables_brelse n)

theorem files_modifyInode (ip : Nat) (f : Inode → Inode) : KeepsFiles (modifyInode ip f) := files_modifyK fun _ => rfl

theorem files_modifyDi (ip : Nat) (f : Dinode → Dinode) : KeepsFiles (modifyDi ip f) := files_modifyInode ip _

theorem files_getInode (ip : Nat) : KeepsFiles (getInode ip) := files_getK _

theorem files_logWriteBuf (n : Nat) (data : Block) : KeepsFiles (logWriteBuf n data) :=
  files_of_tables (tables_logWriteBuf n data)

theorem files_balloc : KeepsFiles balloc := files_of_tables tables_balloc

theorem files_bfree (b : Nat) : KeepsFiles (bfree b) := files_of_tables (tables_bfree b)

section Inodes

theorem files_iget (inum : Nat) : KeepsFiles (iget inum) := by
  refine files_single fun s => ?_
  cases cached s inum with
  | some ip => rfl
  | none =>
    cases emptySlot s with
    | none => trivial
    | some ip => rfl

theorem files_iupdate (ip : Nat) : KeepsFiles (iupdate ip) :=
  keeps_bind (files_getInode ip) fun _ => keeps_bind (files_breadAs _ _) fun _ =>
    keeps_bind (files_logWriteBuf _ _) fun _ => files_brelse _

theorem files_ilock (ip : Nat) : KeepsFiles (ilock ip) := by
  refine keeps_bind (files_single fun s => ?_) fun _ => keeps_bind (files_getInode ip) fun i => ?_
  · by_cases hRef : (s.inode ip).ref < 1
    · rw [if_pos hRef]
      trivial
    · rw [if_neg hRef]
      cases (s.inode ip).busy with
      | false => rfl
      | true => trivial
  · split
    · refine keeps_bind (files_breadAs _ _) fun bp => keeps_bind (files_modifyDi ip _) fun _ =>
        keeps_bind (files_brelse _) fun _ => keeps_bind (files_modifyInode ip _) fun _ =>
          keeps_bind (files_getInode ip) fun i => ?_
      split
      · exact files_panic _
      · exact keeps_pure _
    · exact keeps_pure _

theorem files_iunlock (ip : Nat) : KeepsFiles (iunlock ip) := by
  refine files_single fun s => ?_
  by_cases hBusy : !(s.inode ip).busy ∨ (s.inode ip).ref < 1
  · rw [if_pos hBusy]
    trivial
  · rw [if_neg hBusy]
    rfl

theorem files_truncDirect (ip k : Nat) : KeepsFiles (truncDirect ip k) := by
  induction k with
  | zero => exact keeps_pure ()
  | succ k ih =>
    refine keeps_bind (files_getInode ip) fun i => ?_
    split
    · exact keeps_bind (files_bfree _) fun _ => keeps_bind (files_modifyDi ip _) fun _ => ih
    · exact ih

theorem files_truncIndirect (bp : Block) (k : Nat) : KeepsFiles (truncIndirect bp k) := by
  induction k with
  | zero => exact keeps_pure ()
  | succ k ih =>
    rw [truncIndirect]
    split
    · exact keeps_bind (files_bfree _) fun _ => ih
    · exact ih

theorem files_itrunc (ip : Nat) : KeepsFiles (itrunc ip) := by
  have hEnd : KeepsFiles (do
      modifyDi ip fun di => { di with size := 0 }
      iupdate ip) := keeps_bind (files_modifyDi ip _) fun _ => files_iupdate ip
  refine keeps_bind (files_truncDirect ip _) fun _ => keeps_bind (files_getInode ip) fun i => ?_
  split
  · exact keeps_bind (files_breadAs _ _) fun bp => keeps_bind (files_truncIndirect bp _) fun _ =>
      keeps_bind (files_brelse _) fun _ => keeps_bind (files_bfree _) fun _ => keeps_bind (files_modifyDi ip _) fun _ =>
        hEnd
  · exact hEnd

theorem files_iput (ip : Nat) : KeepsFiles (iput ip) := by
  refine keeps_bind (files_single fun s => ?_) fun free => ?_
  · by_cases h : (s.inode ip).ref = 1 ∧ (s.inode ip).valid ∧ (s.inode ip).di.nlink = 0
    · rw [if_pos h]
      cases (s.inode ip).busy with
      | false => rfl
      | true => trivial
    · rw [if_neg h]
      rfl
  · split
    · exact keeps_bind (files_itrunc ip) fun _ => keeps_bind (files_modifyDi ip _) fun _ =>
        keeps_bind (files_iupdate ip) fun _ => files_modifyInode ip _
    · exact keeps_pure ()

theorem files_iunlockput (ip : Nat) : KeepsFiles (iunlockput ip) :=
  keeps_bind (files_iunlock ip) fun _ => files_iput ip

end Inodes

section Reading

theorem files_bmapAddr (ip k : Nat) : KeepsFiles (bmapAddr ip k) := by
  refine keeps_bind (files_single fun s => rfl) fun addr => ?_
  split
  · exact keeps_bind files_balloc fun _ => keeps_bind (files_modifyDi ip _) fun _ => keeps_pure _
  · exact keeps_pure _

theorem files_bmapIndirect (ind bn : Nat) : KeepsFiles (bmapIndirect ind bn) := files_of_tables (tables_bmapIndirect ind bn)

theorem files_bmap (ip bn : Nat) : KeepsFiles (bmap ip bn) := by
  rw [bmap]
  split
  · exact files_bmapAddr ip bn
  · split
    · exact keeps_bind (files_bmapAddr ip ndirect) fun ind => files_bmapIndirect ind _
    · exact files_panic _

theorem files_readiFrom (ip fuel off n : Nat) : KeepsFiles (readiFrom ip fuel off n) := by
  induction fuel generalizing off n with
  | zero => exact keeps_pure _
  | succ fuel ih =>
    rw [readiFrom]
    split
    · exact keeps_pure _
    · exact keeps_bind (files_bmap ip _) fun _ => keeps_bind (files_breadAs _ _) fun _ =>
        keeps_bind (files_brelse _) fun _ => keeps_bind (ih _ _) fun _ => keeps_pure _

theorem files_devCall (ip major : Nat) (f : Devsw → Option α) : KeepsFiles (devCall ip major f) := by
  refine keeps_bind (files_getK _) fun d => ?_
  cases d with
  | none => exact keeps_pure _
  | some d => exact keeps_bind (files_iunlock ip) fun _ => keeps_bind (files_ilock ip) fun _ => keeps_pure _

theorem files_readi (ip off n : Nat) : KeepsFiles (readi ip off n) := by
  refine keeps_bind (files_getInode ip) fun i => ?_
  split
  · exact files_devCall ip _ _
  · split
    · exact keeps_pure _
    · exact keeps_bind (files_readiFrom ip _ off _) fun _ => keeps_pure _

end Reading

section Length

variable {s s₁ s' : Kern} {ip off n : Nat}

structure SameFile (ip : Nat) (s s' : Kern) : Prop where
  files : (s'.file, s'.proc, s'.devsw) = (s.file, s.proc, s.devsw)
  inode : (s.inode ip).valid = true → (s'.inode ip).valid = true ∧
    ((s'.inode ip).di.type, (s'.inode ip).di.major, (s'.inode ip).di.size) =
      ((s.inode ip).di.type, (s.inode ip).di.major, (s.inode ip).di.size)

def readLength (s : Kern) (ip off n : Nat) : Nat :=
  if (s.inode ip).di.type = tDev then min n (((devOf s (s.inode ip).di.major).bind fun d => d.read n).getD []).length
  else if (s.inode ip).di.size < off ∨ (off + n) % 2 ^ 32 < off then 0
  else min n ((s.inode ip).di.size - off)

theorem SameFile.refl (ip : Nat) (s : Kern) : SameFile ip s s := ⟨rfl, fun h => ⟨h, rfl⟩⟩

theorem SameFile.trans (h : SameFile ip s s₁) (h' : SameFile ip s₁ s') : SameFile ip s s' := by
  refine ⟨h'.files.trans h.files, fun hv => ?_⟩
  obtain ⟨hv₁, hEq₁⟩ := h.inode hv
  obtain ⟨hv', hEq'⟩ := h'.inode hv₁
  exact ⟨hv', hEq'.trans hEq₁⟩

instance (ip : Nat) : IsPreorder Kern (SameFile ip) where
  refl := .refl ip
  trans _ _ _ h h' := h.trans h'

theorem readLength_le (s : Kern) (ip off n : Nat) : readLength s ip off n ≤ n := by
  rw [readLength]
  split_ifs
  · exact min_le_left ..
  · exact Nat.zero_le n
  · exact min_le_left ..

theorem SameFile.readLength (h : SameFile ip s s') (hValid : (s.inode ip).valid = true) (off n : Nat) :
    readLength s' ip off n = readLength s ip off n := by
  obtain ⟨-, hInode⟩ := h.inode hValid
  have hFiles := h.files
  simp only [Prod.mk.injEq] at hInode hFiles
  simp only [Fs.readLength, devOf, hInode, hFiles]

theorem same_of_tables {x : FsM α} (h : KeepsTables x) (ip : Nat) : Leads (SameFile ip) x := by
  refine h.leads fun s s' hEq => ?_
  simp only [Prod.mk.injEq] at hEq
  obtain ⟨hFile, hProc, hDevsw, hInode⟩ := hEq
  exact ⟨by rw [hFile, hProc, hDevsw], fun hv => by rw [hInode]; exact ⟨hv, rfl⟩⟩

theorem same_getK (f : Kern → α) (ip : Nat) : Leads (SameFile ip) (getK f) := same_of_tables (tables_single fun _ => rfl) ip

theorem loose_getK {f : Kern → α} {Q : α → Kern → Prop} (h : Q (f s) s) : wp .loose (getK f) Q s :=
  wp_calm Rely.loose_calm h

theorem loose_skip {β : Type} {x : FsM β} {k : β → FsM α} {Q : α → Kern → Prop} (h : ∀ b s', wp .loose (k b) Q s') :
    wp .loose (x >>= k) Q s := by
  rw [wp_bind]
  exact wp_trivial Rely.loose_calm (fun _ => trivial) h

theorem same_setInode {x : Inode} (hValid : x.valid = (s.inode ip).valid) (hDi : (x.di.type, x.di.major, x.di.size) =
    ((s.inode ip).di.type, (s.inode ip).di.major, (s.inode ip).di.size)) : SameFile ip s (setInode s ip x) := by
  refine ⟨rfl, fun hv => ?_⟩
  rw [setInode_self]
  exact ⟨hValid.trans hv, hDi⟩

theorem same_bmapAddr (ip k : Nat) : Leads (SameFile ip) (bmapAddr ip k) := by
  refine leads_bind (same_of_tables (tables_single fun _ => rfl) ip) fun addr => ?_
  split
  · refine leads_bind (same_of_tables tables_balloc ip) fun b => leads_bind ?_ fun _ => leads_pure _
    refine leads_single fun s a s' hf => ?_
    cases hf
    exact same_setInode rfl rfl
  · exact leads_pure _

theorem same_bmap (ip bn : Nat) : Leads (SameFile ip) (bmap ip bn) := by
  rw [bmap]
  split
  · exact same_bmapAddr ip bn
  · split
    · exact leads_bind (same_bmapAddr ip ndirect) fun ind => same_of_tables (tables_bmapIndirect ind _) ip
    · exact same_of_tables (tables_panic _) ip

theorem same_readiFrom (ip fuel off n : Nat) : Leads (SameFile ip) (readiFrom ip fuel off n) := by
  induction fuel generalizing off n with
  | zero => exact leads_pure _
  | succ fuel ih =>
    rw [readiFrom]
    split
    · exact leads_pure _
    · exact leads_bind (same_bmap ip _) fun _ => leads_bind (same_of_tables (tables_breadAs _ _) ip) fun _ =>
        leads_bind (same_of_tables (tables_brelse _) ip) fun _ => leads_bind (ih _ _) fun _ => leads_pure _

theorem same_iunlock (ip : Nat) : Leads (SameFile ip) (iunlock ip) := by
  refine leads_single fun s a s' hf => ?_
  split_ifs at hf
  cases hf
  exact same_setInode rfl rfl

theorem same_lock (ip : Nat) : Leads (SameFile ip) (act fun s =>
    if (s.inode ip).ref < 1 then .error (.panic .ilock)
    else if (s.inode ip).busy then .error .sleep
    else .ok ((), setInode s ip { s.inode ip with busy := true })) := by
  refine leads_single fun s a s' hf => ?_
  split_ifs at hf
  cases hf
  exact same_setInode rfl rfl

theorem same_ilock (ip : Nat) : Leads (SameFile ip) (ilock ip) := by
  intro s
  by_cases hValid : (s.inode ip).valid = true
  · rw [ilock, wp_bind]
    refine (same_lock ip).wp fun _ s₁ h₁ => ?_
    rw [wp_bind]
    apply loose_getK
    rw [(h₁.inode hValid).1]
    exact h₁
  · exact (files_ilock ip).leads (fun s s' hEq => hEq) s |> (wp_mono · fun _ s' hEq => ⟨hEq, fun hv => absurd hv hValid⟩)

theorem valid_ilock (ip : Nat) (s : Kern) : wp .loose (ilock ip) (fun _ s' => (s'.inode ip).valid = true) s := by
  rw [ilock, wp_bind]
  refine wp_loose_single fun _ s₁ _ => ?_
  rw [wp_bind]
  apply loose_getK
  cases hValid : (s₁.inode ip).valid with
  | true => exact hValid
  | false =>
    rw [Bool.not_false, if_pos rfl]
    refine loose_skip fun bp _ => loose_skip fun _ _ => loose_skip fun _ s₂ => ?_
    rw [wp_bind]
    refine wp_loose_single fun _ s₃ hf => ?_
    cases hf
    rw [wp_bind]
    apply loose_getK
    split
    · exact wp_loose_single fun _ _ hf => by cases hf
    · rw [wp_pure, setInode_self]

theorem same_devCall (ip major : Nat) (f : Devsw → Option α) : Leads (SameFile ip) (devCall ip major f) := by
  refine leads_bind (same_getK _ ip) fun d => ?_
  cases d with
  | none => exact leads_pure _
  | some d => exact leads_bind (same_iunlock ip) fun _ => leads_bind (same_ilock ip) fun _ => leads_pure _

theorem same_readi (ip off n : Nat) : Leads (SameFile ip) (readi ip off n) := by
  refine leads_bind (same_getK _ ip) fun i => ?_
  split
  · exact same_devCall ip _ _
  · split
    · exact leads_pure _
    · exact leads_bind (same_readiFrom ip _ off _) fun _ => leads_pure _

theorem length_readiFrom (fuel : Nat) (hn : n ≤ fuel) (s : Kern) :
    wp .loose (readiFrom ip fuel off n) (fun l _ => l.length = n) s := by
  induction fuel generalizing off n s with
  | zero => exact (Nat.le_zero.mp hn).symm
  | succ fuel ih =>
    rw [readiFrom]
    split
    · next hZero => exact hZero.symm
    · have hPos : 0 < bsize - off % bsize := Nat.sub_pos_of_lt (Nat.mod_lt _ (by decide))
      refine loose_skip fun addr _ => loose_skip fun bp _ => loose_skip fun _ s₁ => ?_
      rw [wp_bind]
      refine wp_mono (ih (by omega) s₁) fun rest _ hRest => ?_
      rw [wp_pure, List.length_append, hRest, slice, List.length_map, List.length_range]
      omega

theorem length_readi (s : Kern) (ip off n : Nat) :
    wp .loose (readi ip off n) (fun r _ => ((r.getD []).take n).length = readLength s ip off n) s := by
  rw [readi, wp_bind]
  apply loose_getK
  by_cases hDev : (s.inode ip).di.type = tDev
  · rw [if_pos hDev, readLength, if_pos hDev, devCall, wp_bind]
    apply loose_getK
    cases devOf s (s.inode ip).di.major with
    | none => rw [wp_pure, Option.getD_none, List.take_nil]; exact (Nat.min_zero n).symm
    | some d =>
      refine loose_skip fun _ _ => loose_skip fun _ _ => ?_
      rw [wp_pure, List.length_take, Option.bind_some]
  · rw [if_neg hDev, readLength, if_neg hDev]
    by_cases hOut : (s.inode ip).di.size < off ∨ (off + n) % 2 ^ 32 < off
    · rw [if_pos hOut, if_pos hOut, wp_pure, Option.getD_none, List.take_nil]
      rfl
    · rw [if_neg hOut, if_neg hOut, wp_bind]
      refine wp_mono (length_readiFrom _ le_rfl s) fun l _ hl => ?_
      rw [wp_pure, Option.getD_some, List.length_take, hl]
      split <;> omega

theorem wp_readi_same {R : Rely Kern Stop Label} (hR : R.Calm) (hStop : ∀ e, R.stop e)
    {Q : Option (List UInt8) → Kern → Prop}
    (hQ : ∀ r s', SameFile ip s s' → ((r.getD []).take n).length = readLength s ip off n → Q r s') :
    wp R (readi ip off n) Q s := by
  have hAny : wp R (readi ip off n) (fun _ _ => True) s := wp_trivial hR hStop fun _ _ => trivial
  refine wp_mono (wp_and (wp_and hAny (same_readi ip off n s)) (length_readi s ip off n)) fun r s' h => ?_
  exact hQ r s' h.1.2 h.2

end Length

section Paths

theorem files_dirlookupFrom (dp : Nat) (name : List UInt8) (fuel off : Nat) :
    KeepsFiles (dirlookupFrom dp name fuel off) := by
  induction fuel generalizing off with
  | zero => exact keeps_pure _
  | succ fuel ih =>
    refine keeps_bind (files_getInode dp) fun d => ?_
    split
    · exact keeps_pure _
    · refine keeps_bind (files_readi dp off _) fun b => ?_
      cases b with
      | none => exact files_panic _
      | some b =>
        dsimp only
        split
        · exact files_panic _
        · split
          · exact ih _
          · exact keeps_bind (files_iget _) fun _ => keeps_pure _

theorem files_dirlookup (dp : Nat) (name : List UInt8) : KeepsFiles (dirlookup dp name) := by
  refine keeps_bind (files_getInode dp) fun d => ?_
  split
  · exact files_panic _
  · exact files_dirlookupFrom dp name _ 0

theorem files_namexFrom (parent : Bool) (fuel ip : Nat) (path name : List UInt8) :
    KeepsFiles (namexFrom parent fuel ip path name) := by
  induction fuel generalizing ip path name with
  | zero => exact keeps_pure _
  | succ fuel ih =>
    rw [namexFrom]
    cases skipelem path with
    | none =>
      dsimp only
      split
      · exact keeps_bind (files_iput ip) fun _ => keeps_pure _
      · exact keeps_pure _
    | some q =>
      refine keeps_bind (files_ilock ip) fun _ => keeps_bind (files_getInode ip) fun i => ?_
      split
      · exact keeps_bind (files_iunlockput ip) fun _ => keeps_pure _
      · split
        · exact keeps_bind (files_iunlock ip) fun _ => keeps_pure _
        · refine keeps_bind (files_dirlookup ip _) fun r => ?_
          cases r with
          | none => exact keeps_bind (files_iunlockput ip) fun _ => keeps_pure _
          | some r => exact keeps_bind (files_iunlockput ip) fun _ => ih _ _ _

theorem files_idupCwd (p : Nat) : KeepsFiles (idupCwd p) := by
  refine files_single fun s => ?_
  cases (s.proc p).cwd with
  | none => trivial
  | some ip => rfl

theorem files_namei (p : Nat) (path : List UInt8) : KeepsFiles (namei p path) := by
  refine keeps_bind ?_ fun _ => keeps_pure _
  rw [namex]
  dsimp only
  split
  · exact keeps_bind (files_iget rootino) fun ip => files_namexFrom _ _ ip path []
  · exact keeps_bind (files_idupCwd p) fun ip => files_namexFrom _ _ ip path []

end Paths

end Xv6Rpi.Fs
