import Xv6Rpi.Fs.Frame
import Xv6Rpi.Fs.Sysfile
import Xv6Rpi.Lib.Moves

/-! # What keeps references

Reading and writing inodes and blocks, locking and unlocking leave the number of references to each cache
entry as it is, the inode in it, and the type of an inode that has been read. Open files and current
directories stay as well.
-/

namespace Xv6Rpi.Fs

open Prog

structure SameEntry (i i' : Inode) : Prop where
  ref : i'.ref = i.ref
  inum : i'.inum = i.inum
  valid : i.valid = true → i'.valid = true ∧ i'.di.type = i.di.type

structure Still (s s' : Kern) : Prop where
  file : s'.file = s.file
  proc : s'.proc = s.proc
  devsw : s'.devsw = s.devsw
  entry : ∀ j, SameEntry (s.inode j) (s'.inode j)

theorem SameEntry.refl (i : Inode) : SameEntry i i := ⟨rfl, rfl, fun h => ⟨h, rfl⟩⟩

theorem SameEntry.trans {i i₁ i' : Inode} (h : SameEntry i i₁) (h' : SameEntry i₁ i') : SameEntry i i' :=
  ⟨h'.ref.trans h.ref, h'.inum.trans h.inum, fun hv =>
    ⟨(h'.valid (h.valid hv).1).1, (h'.valid (h.valid hv).1).2.trans (h.valid hv).2⟩⟩

theorem Still.refl (s : Kern) : Still s s := ⟨rfl, rfl, rfl, fun j => .refl (s.inode j)⟩

theorem Still.trans {s s₁ s' : Kern} (h : Still s s₁) (h' : Still s₁ s') : Still s s' :=
  ⟨h'.file.trans h.file, h'.proc.trans h.proc, h'.devsw.trans h.devsw, fun j => (h.entry j).trans (h'.entry j)⟩

instance : IsPreorder Kern Still where
  refl := .refl
  trans _ _ _ h h' := h.trans h'

theorem Still.of_set {s : Kern} {ip : Nat} {x : Inode} (h : SameEntry (s.inode ip) x) : Still s (setInode s ip x) := by
  refine ⟨rfl, rfl, rfl, fun j => ?_⟩
  by_cases hj : j = ip
  · rw [hj, setInode_self]
    exact h
  · rw [setInode_of_ne hj]
    exact .refl (s.inode j)

def accounts (s : Kern) : (Nat → File) × (Nat → ProcFiles) × (Nat → Int) := (s.file, s.proc, fun j => (s.inode j).ref)

theorem Still.accounts {s s' : Kern} (h : Still s s') : accounts s' = accounts s := by
  rw [Fs.accounts, Fs.accounts, h.file, h.proc, funext fun j => (h.entry j).ref]

/-- The program leaves references, open files and current directories alone: each of its actions does,
and where it leads a cache entry holds what it did. -/
structure Quiet {α : Type} (x : FsM α) : Prop where
  keeps : x.Keeps accounts
  leads : Leads Still x

variable {α β : Type}

theorem quiet_pure (a : α) : Quiet (Pure.pure a : FsM α) := ⟨keeps_pure a, leads_pure a⟩

theorem quiet_bind {x : FsM β} {k : β → FsM α} (h : Quiet x) (hk : ∀ b, Quiet (k b)) : Quiet (x >>= k) :=
  ⟨keeps_bind h.keeps fun b => (hk b).keeps, leads_bind h.leads fun b => (hk b).leads⟩

theorem quiet_single {l : Label} {f : Kern → Except Stop (α × Kern)} (h : ∀ s, match f s with
    | .error _ => True
    | .ok (_, s') => Still s s') : Quiet (Prog.single l f) := by
  have hStill : ∀ s a s', f s = .ok (a, s') → Still s s' := fun s a s' hf => by
    have hs := h s
    rw [hf] at hs
    exact hs
  exact ⟨keeps_single fun s a s' hf => (hStill s a s' hf).accounts, leads_single hStill⟩

theorem quiet_getK (f : Kern → α) : Quiet (getK f) := quiet_single .refl

theorem quiet_modifyK {f : Kern → Kern} (h : ∀ s, Still s (f s)) : Quiet (modifyK f) := quiet_single h

theorem quiet_panic (p : Panic) : Quiet (panic p : FsM α) := quiet_single fun _ => trivial

theorem quiet_of_tables {x : FsM α} (h : KeepsTables x) : Quiet x := by
  have hStill : ∀ s s', (s'.file, s'.proc, s'.devsw, s'.inode) = (s.file, s.proc, s.devsw, s.inode) → Still s s' := by
    intro s s' hEq
    simp only [Prod.mk.injEq] at hEq
    exact ⟨hEq.1, hEq.2.1, hEq.2.2.1, fun j => hEq.2.2.2 ▸ .refl (s.inode j)⟩
  exact ⟨h.of_keeps fun s s' hEq => (hStill s s' hEq).accounts, h.leads hStill⟩

theorem quiet_breadAs (l : Label) (n : Nat) : Quiet (breadAs l n) := quiet_of_tables (tables_breadAs l n)

theorem quiet_brelse (n : Nat) : Quiet (brelse n) := quiet_of_tables (tables_brelse n)

theorem quiet_logWriteBuf (n : Nat) (data : Block) : Quiet (logWriteBuf n data) := quiet_of_tables (tables_logWriteBuf n data)

theorem quiet_readsbAs (l : Label) : Quiet (readsbAs l) := quiet_of_tables (tables_readsbAs l)

theorem quiet_balloc : Quiet balloc := quiet_of_tables tables_balloc

theorem quiet_bfree (b : Nat) : Quiet (bfree b) := quiet_of_tables (tables_bfree b)

theorem quiet_modifyInode {ip : Nat} {f : Inode → Inode} (h : ∀ i, SameEntry i (f i)) : Quiet (modifyInode ip f) :=
  quiet_modifyK fun _ => .of_set (h _)

theorem quiet_modifyDi {ip : Nat} {f : Dinode → Dinode} (h : ∀ di, (f di).type = di.type) : Quiet (modifyDi ip f) :=
  quiet_modifyInode fun i => ⟨rfl, rfl, fun hv => ⟨hv, h i.di⟩⟩

theorem quiet_getInode (ip : Nat) : Quiet (getInode ip) := quiet_getK _

section Inodes

theorem quiet_iupdate (ip : Nat) : Quiet (iupdate ip) :=
  quiet_bind (quiet_getInode ip) fun _ => quiet_bind (quiet_breadAs _ _) fun _ =>
    quiet_bind (quiet_logWriteBuf _ _) fun _ => quiet_brelse _

structure Filling (ip : Nat) (s s' : Kern) : Prop where
  file : s'.file = s.file
  proc : s'.proc = s.proc
  devsw : s'.devsw = s.devsw
  ref : ∀ j, (s'.inode j).ref = (s.inode j).ref
  inum : ∀ j, (s'.inode j).inum = (s.inode j).inum
  others : ∀ j, j ≠ ip → SameEntry (s.inode j) (s'.inode j)

instance (ip : Nat) : IsPreorder Kern (Filling ip) where
  refl _ := ⟨rfl, rfl, rfl, fun _ => rfl, fun _ => rfl, fun _ _ => .refl _⟩
  trans _ _ _ h h' := ⟨h'.file.trans h.file, h'.proc.trans h.proc, h'.devsw.trans h.devsw,
    fun j => (h'.ref j).trans (h.ref j), fun j => (h'.inum j).trans (h.inum j),
    fun j hj => (h.others j hj).trans (h'.others j hj)⟩

theorem Still.filling {s s' : Kern} (h : Still s s') (ip : Nat) : Filling ip s s' :=
  ⟨h.file, h.proc, h.devsw, fun j => (h.entry j).ref, fun j => (h.entry j).inum, fun j _ => h.entry j⟩

theorem Filling.still {ip : Nat} {s s' : Kern} (h : Filling ip s s') (hNot : (s.inode ip).valid = false) : Still s s' := by
  refine ⟨h.file, h.proc, h.devsw, fun j => ?_⟩
  by_cases hj : j = ip
  · rw [hj]
    refine ⟨h.ref ip, h.inum ip, fun hv => ?_⟩
    rw [hNot] at hv
    cases hv
  · exact h.others j hj

theorem Quiet.filling {x : FsM α} (h : Quiet x) (ip : Nat) : Leads (Filling ip) x :=
  fun _ => h.leads.wp fun _ _ hs => hs.filling ip

theorem filling_modifyInode {ip : Nat} {f : Inode → Inode} (hRef : ∀ i, (f i).ref = i.ref) (hInum : ∀ i, (f i).inum = i.inum) :
    Leads (Filling ip) (modifyInode ip f) := by
  refine leads_single fun s a s' hEq => ?_
  cases hEq
  refine ⟨rfl, rfl, rfl, fun j => ?_, fun j => ?_, fun j hj => ?_⟩
  · by_cases hj : j = ip
    · rw [hj, setInode_self, hRef]
    · rw [setInode_of_ne hj]
  · by_cases hj : j = ip
    · rw [hj, setInode_self, hInum]
    · rw [setInode_of_ne hj]
  · rw [setInode_of_ne hj]
    exact .refl (s.inode j)

theorem accounts_setInode {s : Kern} {ip : Nat} {x : Inode} (hRef : x.ref = (s.inode ip).ref) :
    accounts (setInode s ip x) = accounts s := by
  refine congrArg (fun r => (s.file, s.proc, r)) (funext fun j => ?_)
  by_cases hj : j = ip
  · rw [hj, setInode_self, hRef]
  · rw [setInode_of_ne hj]

theorem keeps_modifyInode {ip : Nat} {f : Inode → Inode} (hRef : ∀ i, (f i).ref = i.ref) :
    (modifyInode ip f).Keeps accounts := by
  refine keeps_single fun s a s' hEq => ?_
  cases hEq
  exact accounts_setInode (hRef _)

theorem keeps_modifyDi (ip : Nat) (f : Dinode → Dinode) : (modifyDi ip f).Keeps accounts := keeps_modifyInode fun _ => rfl

theorem quiet_lock (ip : Nat) : Quiet (act fun s =>
    if (s.inode ip).ref < 1 then .error (.panic .ilock)
    else if (s.inode ip).busy then .error .sleep
    else .ok ((), setInode s ip { s.inode ip with busy := true })) := by
  refine quiet_single fun s => ?_
  by_cases hRef : (s.inode ip).ref < 1
  · rw [if_pos hRef]
    trivial
  · rw [if_neg hRef]
    cases (s.inode ip).busy with
    | false => exact .of_set ⟨rfl, rfl, fun h => ⟨h, rfl⟩⟩
    | true => trivial

theorem quiet_ilock (ip : Nat) : Quiet (ilock ip) := by
  have hEnd : Quiet (do
      let i ← getInode ip
      if i.di.type = 0 then panic .ilockNoType) := by
    refine quiet_bind (quiet_getInode ip) fun i => ?_
    split
    · exact quiet_panic _
    · exact quiet_pure _
  constructor
  · refine keeps_bind (quiet_lock ip).keeps fun _ => keeps_bind (quiet_getInode ip).keeps fun i => ?_
    split
    · exact keeps_bind (quiet_breadAs _ _).keeps fun bp => keeps_bind (keeps_modifyDi ip _) fun _ =>
        keeps_bind (quiet_brelse _).keeps fun _ => keeps_bind (keeps_modifyInode fun _ => rfl) fun _ => hEnd.keeps
    · exact keeps_pure _
  · intro s
    rw [ilock, wp_bind]
    refine (quiet_lock ip).leads.wp fun _ s₁ h₁ => ?_
    rw [wp_bind, getInode, getK, act, wp_single]
    refine fun _ => ⟨trivial, ?_⟩
    dsimp only
    cases hValid : (s₁.inode ip).valid with
    | true => exact h₁
    | false =>
      have hFill : Leads (Filling ip) (do
          let bp ← bread (iblock (s₁.inode ip).inum)
          modifyDi ip fun _ => decodeDinode bp ((s₁.inode ip).inum % ipb)
          brelse (iblock (s₁.inode ip).inum)
          modifyInode ip fun i => { i with valid := true }
          let i ← getInode ip
          if i.di.type = 0 then panic .ilockNoType) :=
        leads_bind ((quiet_breadAs _ _).filling ip) fun bp => leads_bind (filling_modifyInode (fun _ => rfl) fun _ => rfl) fun _ =>
          leads_bind ((quiet_brelse _).filling ip) fun _ => leads_bind (filling_modifyInode (fun _ => rfl) fun _ => rfl) fun _ =>
            hEnd.filling ip
      exact hFill.wp fun _ s' hs => h₁.trans (hs.still hValid)

theorem quiet_iunlock (ip : Nat) : Quiet (iunlock ip) := by
  refine quiet_single fun s => ?_
  by_cases hBusy : !(s.inode ip).busy ∨ (s.inode ip).ref < 1
  · rw [if_pos hBusy]
    trivial
  · rw [if_neg hBusy]
    exact .of_set ⟨rfl, rfl, fun h => ⟨h, rfl⟩⟩

theorem quiet_truncDirect (ip k : Nat) : Quiet (truncDirect ip k) := by
  induction k with
  | zero => exact quiet_pure ()
  | succ k ih =>
    refine quiet_bind (quiet_getInode ip) fun i => ?_
    split
    · exact quiet_bind (quiet_bfree _) fun _ => quiet_bind (quiet_modifyDi fun _ => rfl) fun _ => ih
    · exact ih

theorem quiet_truncIndirect (bp : Block) (k : Nat) : Quiet (truncIndirect bp k) := by
  induction k with
  | zero => exact quiet_pure ()
  | succ k ih =>
    rw [truncIndirect]
    split
    · exact quiet_bind (quiet_bfree _) fun _ => ih
    · exact ih

theorem quiet_itrunc (ip : Nat) : Quiet (itrunc ip) := by
  have hEnd : Quiet (do
      modifyDi ip fun di => { di with size := 0 }
      iupdate ip) := quiet_bind (quiet_modifyDi fun _ => rfl) fun _ => quiet_iupdate ip
  refine quiet_bind (quiet_truncDirect ip _) fun _ => quiet_bind (quiet_getInode ip) fun i => ?_
  split
  · exact quiet_bind (quiet_breadAs _ _) fun bp => quiet_bind (quiet_truncIndirect bp _) fun _ =>
      quiet_bind (quiet_brelse _) fun _ => quiet_bind (quiet_bfree _) fun _ => quiet_bind (quiet_modifyDi fun _ => rfl) fun _ =>
        hEnd
  · exact hEnd

end Inodes

section Reading

theorem quiet_bmapAddr (ip k : Nat) : Quiet (bmapAddr ip k) := by
  refine quiet_bind (quiet_single .refl) fun addr => ?_
  split
  · exact quiet_bind quiet_balloc fun _ => quiet_bind (quiet_modifyDi fun _ => rfl) fun _ => quiet_pure _
  · exact quiet_pure _

theorem quiet_bmapIndirect (ind bn : Nat) : Quiet (bmapIndirect ind bn) := quiet_of_tables (tables_bmapIndirect ind bn)

theorem quiet_bmap (ip bn : Nat) : Quiet (bmap ip bn) := by
  rw [bmap]
  split
  · exact quiet_bmapAddr ip bn
  · split
    · exact quiet_bind (quiet_bmapAddr ip ndirect) fun ind => quiet_bmapIndirect ind _
    · exact quiet_panic _

theorem quiet_readiFrom (ip fuel off n : Nat) : Quiet (readiFrom ip fuel off n) := by
  induction fuel generalizing off n with
  | zero => exact quiet_pure _
  | succ fuel ih =>
    rw [readiFrom]
    split
    · exact quiet_pure _
    · exact quiet_bind (quiet_bmap ip _) fun _ => quiet_bind (quiet_breadAs _ _) fun _ =>
        quiet_bind (quiet_brelse _) fun _ => quiet_bind (ih _ _) fun _ => quiet_pure _

theorem quiet_devCall (ip major : Nat) (f : Devsw → Option α) : Quiet (devCall ip major f) := by
  refine quiet_bind (quiet_getK _) fun d => ?_
  cases d with
  | none => exact quiet_pure _
  | some d => exact quiet_bind (quiet_iunlock ip) fun _ => quiet_bind (quiet_ilock ip) fun _ => quiet_pure _

theorem quiet_readi (ip off n : Nat) : Quiet (readi ip off n) := by
  refine quiet_bind (quiet_getInode ip) fun i => ?_
  split
  · exact quiet_devCall ip _ _
  · split
    · exact quiet_pure _
    · exact quiet_bind (quiet_readiFrom ip _ off _) fun _ => quiet_pure _

theorem quiet_writeiFrom (ip fuel off : Nat) (src : List UInt8) : Quiet (writeiFrom ip fuel off src) := by
  induction fuel generalizing off src with
  | zero => exact quiet_pure _
  | succ fuel ih =>
    rw [writeiFrom]
    split
    · exact quiet_pure _
    · exact quiet_bind (quiet_bmap ip _) fun _ => quiet_bind (quiet_breadAs _ _) fun _ =>
        quiet_bind (quiet_logWriteBuf _ _) fun _ => quiet_bind (quiet_brelse _) fun _ => ih _ _

theorem quiet_writei (ip : Nat) (src : List UInt8) (off : Nat) : Quiet (writei ip src off) := by
  refine quiet_bind (quiet_getInode ip) fun i => ?_
  split
  · exact quiet_devCall ip _ _
  · split
    · exact quiet_pure _
    · split
      · exact quiet_pure _
      · refine quiet_bind (quiet_writeiFrom ip _ off src) fun _ => ?_
        split
        · exact quiet_bind (quiet_modifyDi fun _ => rfl) fun _ => quiet_bind (quiet_iupdate ip) fun _ => quiet_pure _
        · exact quiet_pure _

theorem quiet_isdiremptyFrom (dp fuel off : Nat) : Quiet (isdiremptyFrom dp fuel off) := by
  induction fuel generalizing off with
  | zero => exact quiet_pure _
  | succ fuel ih =>
    refine quiet_bind (quiet_getInode dp) fun d => ?_
    split
    · exact quiet_pure _
    · refine quiet_bind (quiet_readi dp off _) fun b => ?_
      cases b with
      | none => exact quiet_panic _
      | some b =>
        dsimp only
        split
        · exact quiet_panic _
        · split
          · exact quiet_pure _
          · exact ih _

theorem quiet_isdirempty (dp : Nat) : Quiet (isdirempty dp) :=
  quiet_bind (quiet_getInode dp) fun _ => quiet_isdiremptyFrom dp _ _

theorem quiet_emptyEntryFrom (dp fuel off : Nat) : Quiet (emptyEntryFrom dp fuel off) := by
  induction fuel generalizing off with
  | zero => exact quiet_pure _
  | succ fuel ih =>
    refine quiet_bind (quiet_getInode dp) fun d => ?_
    split
    · exact quiet_pure _
    · refine quiet_bind (quiet_readi dp off _) fun b => ?_
      cases b with
      | none => exact quiet_panic _
      | some b =>
        dsimp only
        split
        · exact quiet_panic _
        · split
          · exact quiet_pure _
          · exact ih _

theorem quiet_loadFrom (ip : Nat) (mapped : Nat → Bool) (offset sz fuel i : Nat) :
    Quiet (loadFrom ip mapped offset sz fuel i) := by
  induction fuel generalizing i with
  | zero => exact quiet_pure _
  | succ fuel ih =>
    rw [loadFrom]
    split
    · exact quiet_pure _
    · split
      · exact quiet_panic _
      · refine quiet_bind (quiet_readi ip _ _) fun b => ?_
        cases b with
        | none => exact quiet_pure _
        | some b =>
          dsimp only
          split
          · exact quiet_pure _
          · exact ih _

theorem quiet_loadSegments (ip : Nat) (mem : ExecMem) (k off : Nat) : Quiet (loadSegments ip mem k off) := by
  induction k generalizing off with
  | zero => exact quiet_pure _
  | succ k ih =>
    refine quiet_bind (quiet_readi ip off 32) fun ph => ?_
    cases ph with
    | none => exact quiet_pure _
    | some ph =>
      dsimp only
      split
      · exact quiet_pure _
      · split
        · exact ih _
        · split
          · exact quiet_pure _
          · split
            · exact quiet_panic _
            · refine quiet_bind (quiet_loadFrom ip _ _ _ _ 0) fun ok => ?_
              split
              · exact ih _
              · exact quiet_pure _

theorem quiet_execLoad (ip : Nat) (mem : ExecMem) : Quiet (execLoad ip mem) := by
  refine quiet_bind (quiet_readi ip 0 52) fun r => ?_
  dsimp only
  split
  · exact quiet_pure _
  · exact quiet_loadSegments ip mem _ _

end Reading

section Transactions

theorem quiet_beginTransK : Quiet beginTransK := by
  refine quiet_of_tables (tables_single fun s => ?_)
  cases s.log.busy with
  | false => rfl
  | true => trivial

theorem quiet_writeHeadK : Quiet writeHeadK := by
  refine quiet_of_tables (tables_single fun s => ?_)
  cases s.held s.log.start with
  | false => rfl
  | true => trivial

theorem quiet_installTransK (tail k : Nat) : Quiet (installTransK tail k) := by
  induction k generalizing tail with
  | zero => exact quiet_pure _
  | succ k ih =>
    refine quiet_bind (quiet_of_tables (tables_single fun s => ?_)) fun _ => ih _
    cases s.held (s.log.slot tail) || s.held (s.log.sector tail) with
    | false => rfl
    | true => trivial

theorem quiet_commitTransK : Quiet commitTransK := by
  have hEnd : Quiet (Prog.single .commitTrans fun s => .ok ((), { s with log := { s.log with busy := false } }) : FsM Unit) :=
    quiet_of_tables (tables_single fun _ => rfl)
  refine quiet_bind (quiet_getK _) fun n => ?_
  split
  · exact quiet_bind quiet_writeHeadK fun _ => quiet_bind (quiet_installTransK 0 n) fun _ =>
      quiet_bind (quiet_of_tables (tables_single fun _ => rfl)) fun _ => quiet_bind quiet_writeHeadK fun _ => hEnd
  · exact hEnd

theorem quiet_addLink (ip n : Nat) : Quiet (addLink ip n) := quiet_modifyDi fun _ => rfl

end Transactions

end Xv6Rpi.Fs
