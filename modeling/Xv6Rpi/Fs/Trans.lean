import Xv6Rpi.Fs.Sysfile
import Xv6Rpi.Lib.Session

/-! # Transactions of system calls

A transaction is a session: `begin_trans` opens it, `commit_trans` closes it, and
`log_write` needs one. Every function keeps to this if it is called inside a transaction.
Outside one, `iput` and `bmap` do as well, except where `iput` frees an inode and `bmap`
allocates a block.
-/

namespace Xv6Rpi.Fs

def kindOf : Label → Kind
  | .logWrite => .inside
  | .beginTrans => .opens
  | .commitTrans => .closes
  | _ => .plain

/-- `iput` finds nothing to free, `bmap` finds nothing to allocate. -/
def WritesNothing : Label → Kern → Prop
  | .iput ip, s => ¬((s.inode ip).ref = 1 ∧ (s.inode ip).valid ∧ (s.inode ip).di.nlink = 0)
  | .bmap ip k, s => (s.inode ip).di.addrs k ≠ 0
  | .indirect n bn, s => getWord (s.disk n) (4 * bn) ≠ 0
  | _, _ => True

instance : (l : Label) → (s : Kern) → Decidable (WritesNothing l s)
  | .iput ip, s =>
    inferInstanceAs (Decidable ¬((s.inode ip).ref = 1 ∧ (s.inode ip).valid ∧ (s.inode ip).di.nlink = 0))
  | .bmap ip k, s => inferInstanceAs (Decidable ((s.inode ip).di.addrs k ≠ 0))
  | .indirect n bn, s => inferInstanceAs (Decidable (getWord (s.disk n) (4 * bn) ≠ 0))
  | .step, _ | .logWrite, _ | .beginTrans, _ | .commitTrans, _ | .balloc, _ => .isTrue trivial

def transactions : Discipline Kern Stop Label where
  kind := kindOf
  flag s := s.log.busy
  may := WritesNothing
  bad e := e = .panic .outsideTrans

abbrev Stays {α : Type} (t : Bool) (x : FsM α) : Prop := transactions.Stays t x

open Discipline

section Actions

variable {α : Type} {t : Bool}

theorem stays_single {l : Label} {f : Kern → Except Stop (α × Kern)} (hl : kindOf l = .plain)
    (hf : ∀ s, match f s with
      | .error e => e ≠ .panic .outsideTrans
      | .ok (_, s') => s'.log.busy = s.log.busy) : transactions.Sound l f := by
  refine ⟨fun s a s' h => ?_, fun s a s' _ hKind => ?_, fun s e h hBad => ?_⟩
  · have := hf s
    rw [h] at this
    change s'.log.busy = (kindOf l).next s.log.busy
    rw [hl]
    exact this
  · change kindOf l = .opens at hKind
    rw [hl] at hKind
    cases hKind
  · have := hf s
    rw [h] at this
    exact absurd hBad this

theorem stays_act {f : Kern → Except Stop (α × Kern)}
    (hf : ∀ s, match f s with
      | .error e => e ≠ .panic .outsideTrans
      | .ok (_, s') => s'.log.busy = s.log.busy) : Stays t (act f) :=
  keeps_single (fun h => by rcases h with h | h <;> cases h) (fun h => by cases h) (stays_single rfl hf)
    fun _ _ _ _ _ => rfl

theorem stays_getK (f : Kern → α) : Stays t (getK f) := stays_act fun _ => rfl

theorem stays_modifyK {f : Kern → Kern} (h : ∀ s, (f s).log.busy = s.log.busy) : Stays t (modifyK f) :=
  stays_act h

theorem keeps_panic {p : Panic} {P : α → Bool → Prop} (h : p ≠ .outsideTrans) :
    transactions.Keeps (panic p : FsM α) t P :=
  keeps_single (fun h => by rcases h with h | h <;> cases h) (fun h => by cases h)
    (stays_single rfl fun _ hEq => h (Stop.panic.inj hEq)) fun _ _ _ hf => by cases hf

theorem stays_panic {p : Panic} (h : p ≠ .outsideTrans) : Stays t (panic p : FsM α) := keeps_panic h

theorem sound_breadAs {l : Label} (n : Nat) (hl : kindOf l = .plain) :
    transactions.Sound l fun s => if s.held n then .error .sleep
      else .ok (s.disk n, { s with held := Function.update s.held n true }) := by
  apply stays_single hl
  intro s
  by_cases h : s.held n
  · rw [if_pos h]
    simp
  · rw [if_neg h]

theorem stays_bread (n : Nat) : Stays t (bread n) :=
  keeps_single (fun h => by rcases h with h | h <;> cases h) (fun h => by cases h) (sound_breadAs n rfl)
    fun _ _ _ _ _ => rfl

theorem stays_brelse (n : Nat) : Stays t (brelse n) := by
  apply stays_act
  intro s
  by_cases h : s.held n
  · rw [if_pos h]
  · rw [if_neg h]
    simp

theorem stays_modifyInode (ip : Nat) (f : Inode → Inode) : Stays t (modifyInode ip f) := stays_modifyK fun _ => rfl

theorem stays_modifyDi (ip : Nat) (f : Dinode → Dinode) : Stays t (modifyDi ip f) := stays_modifyInode ip _

theorem logWrite_busy {l l' : Log} {n : Nat} {data : Block} {ws : List Write}
    (h : logWrite l n data = .ok (l', ws)) : l'.busy = l.busy := by
  rw [logWrite] at h
  split at h
  · cases h
  split at h
  · cases h
  obtain ⟨rfl, -⟩ := Prod.mk.inj (Except.ok.inj h)
  rfl

theorem logWrite_outside {l : Log} {n : Nat} {data : Block} (h : logWrite l n data = .error .outsideTrans) :
    l.busy = false := by
  rw [logWrite] at h
  split at h
  · cases h
  split at h
  · rename_i hBusy
    simpa using hBusy
  · cases h

theorem stays_logWriteBuf (n : Nat) (data : Block) : Stays true (logWriteBuf n data) := by
  refine keeps_single (fun _ => rfl) (fun h => by cases h) ⟨?_, fun _ _ _ _ h => (by cases h), ?_⟩
    fun _ _ _ _ _ => rfl
  · intro s a s' h
    cases hWrite : logWrite s.log n data with
    | error p =>
      rw [hWrite] at h
      cases h
    | ok r =>
      rw [hWrite] at h
      dsimp only at h
      split at h
      · cases h
      · obtain ⟨-, rfl⟩ := Prod.mk.inj (Except.ok.inj h)
        exact logWrite_busy hWrite
  · intro s e h hBad
    refine ⟨rfl, ?_⟩
    subst hBad
    cases hWrite : logWrite s.log n data with
    | error p =>
      rw [hWrite] at h
      have hp : p = .outsideTrans := Stop.panic.inj (Except.error.inj h)
      rw [hp] at hWrite
      exact logWrite_outside hWrite
    | ok r =>
      rw [hWrite] at h
      dsimp only at h
      split at h
      · cases h
      · cases h

theorem keeps_beginTransK {P : Unit → Bool → Prop} (h : P () true) : transactions.Keeps beginTransK false P := by
  refine keeps_single (fun h => by rcases h with h | h <;> cases h) (fun _ => rfl) ⟨?_, ?_, ?_⟩
    fun _ _ _ _ _ => h
  · intro s a s' hf
    split at hf
    · cases hf
    · obtain ⟨-, rfl⟩ := Prod.mk.inj (Except.ok.inj hf)
      rfl
  · intro s a s' hf _
    split at hf
    · cases hf
    · rename_i hBusy
      exact eq_false_of_ne_true hBusy
  · intro s e hf hBad
    split at hf
    · rw [← Except.error.inj hf] at hBad
      cases hBad
    · cases hf

theorem stays_writeHeadK : Stays t writeHeadK := by
  apply stays_act
  intro s
  by_cases h : s.held s.log.start
  · rw [if_pos h]
    simp
  · rw [if_neg h]

theorem stays_installTransK (tail k : Nat) : Stays t (installTransK tail k) := by
  induction k generalizing tail with
  | zero => exact .pure t ()
  | succ k ih =>
    refine .bind (stays_act fun s => ?_) fun _ => ih (tail + 1)
    by_cases h : (s.held (s.log.slot tail) || s.held (s.log.sector tail)) = true
    · rw [if_pos h]
      simp
    · rw [if_neg h]

theorem keeps_commitTransK {P : Unit → Bool → Prop} (h : P () false) : transactions.Keeps commitTransK true P := by
  have hEnd : transactions.Keeps (Prog.single .commitTrans fun s : Kern =>
      (.ok ((), { s with log := { s.log with busy := false } }) : Except Stop (Unit × Kern))) true P := by
    refine keeps_single (fun _ => rfl) (fun h => by cases h) ⟨?_, fun _ _ _ _ h => (by cases h), ?_⟩
      fun _ _ _ _ _ => h
    · intro s a s' hf
      obtain ⟨-, rfl⟩ := Prod.mk.inj (Except.ok.inj hf)
      rfl
    · intro s e hf
      cases hf
  refine keeps_bind (Keeps.mono (stays_getK _) ?_)
  rintro n _ rfl
  split
  · refine keeps_bind (Keeps.mono stays_writeHeadK ?_)
    rintro _ _ rfl
    refine keeps_bind (Keeps.mono (stays_installTransK 0 n) ?_)
    rintro _ _ rfl
    refine keeps_bind (Keeps.mono (stays_modifyK fun _ => rfl) ?_)
    rintro _ _ rfl
    refine keeps_bind (Keeps.mono stays_writeHeadK ?_)
    rintro _ _ rfl
    exact hEnd
  · exact hEnd

end Actions

section Inodes

variable {t : Bool}

theorem stays_readsbAs {l : Label} (hl : kindOf l = .plain) : Stays t (readsbAs l) := by
  refine .bind (keeps_single ?_ ?_ (sound_breadAs 1 hl) fun _ _ _ _ _ => ?_) fun b =>
    .bind (stays_brelse 1) fun _ => .pure t _
  · rintro (h | h)
    · exact absurd (hl.symm.trans h) (by decide)
    · exact absurd (hl.symm.trans h) (by decide)
  · intro h
    exact absurd (hl.symm.trans h) (by decide)
  · change (kindOf l).next t = t
    rw [hl]
    rfl

theorem stays_bzero (bno : Nat) : Stays true (bzero bno) :=
  .bind (stays_bread bno) fun _ => .bind (stays_logWriteBuf bno _) fun _ => stays_brelse bno

theorem stays_ballocFrom (sb : Superblock) (k b : Nat) : Stays true (ballocFrom sb k b) := by
  induction k generalizing b with
  | zero => exact stays_panic (by decide)
  | succ k ih =>
    refine .bind (stays_bread _) fun bp => ?_
    split
    · exact .bind (stays_logWriteBuf _ _) fun _ => .bind (stays_brelse _) fun _ =>
        .bind (stays_bzero _) fun _ => .pure true _
    · exact .bind (stays_brelse _) fun _ => ih _

theorem stays_balloc : Stays true balloc := .bind (stays_readsbAs rfl) fun sb => stays_ballocFrom sb _ 0

theorem stays_bfree (b : Nat) : Stays true (bfree b) := by
  refine .bind (stays_readsbAs rfl) fun sb => .bind (stays_bread _) fun bp => ?_
  have hRest := Stays.bind (t := true) (stays_logWriteBuf (bblock b sb.ninodes) (clearBit bp (b % bpb)))
    fun _ => stays_brelse (bblock b sb.ninodes)
  split
  · exact .bind (stays_panic (by decide)) fun _ => hRest
  · exact hRest

theorem stays_iget (inum : Nat) : Stays t (iget inum) := by
  apply stays_act
  intro s
  cases cached s inum with
  | some ip => rfl
  | none =>
    cases emptySlot s with
    | none => simp
    | some ip => rfl

theorem stays_iallocFrom (type k inum : Nat) : Stays true (iallocFrom type k inum) := by
  induction k generalizing inum with
  | zero => exact stays_panic (by decide)
  | succ k ih =>
    refine .bind (stays_bread _) fun bp => ?_
    split
    · exact .bind (stays_logWriteBuf _ _) fun _ => .bind (stays_brelse _) fun _ => stays_iget inum
    · exact .bind (stays_brelse _) fun _ => ih _

theorem stays_ialloc (type : Nat) : Stays true (ialloc type) :=
  .bind (stays_readsbAs rfl) fun _ => stays_iallocFrom type _ 1

theorem stays_getInode (ip : Nat) : Stays t (getInode ip) := stays_getK _

theorem stays_iupdate (ip : Nat) : Stays true (iupdate ip) :=
  .bind (stays_getInode ip) fun _ => .bind (stays_bread _) fun _ => .bind (stays_logWriteBuf _ _) fun _ =>
    stays_brelse _

theorem stays_ilock (ip : Nat) : Stays t (ilock ip) := by
  refine .bind (stays_act fun s => ?_) fun _ => .bind (stays_getInode ip) fun i => ?_
  · split
    · rename_i h
      split at h
      · cases h
        simp
      · split at h
        · cases h
          simp
        · cases h
    · rename_i h
      split at h
      · cases h
      · split at h
        · cases h
        · obtain ⟨-, rfl⟩ := Prod.mk.inj (Except.ok.inj h)
          rfl
  · split
    · refine .bind (stays_bread _) fun _ => .bind (stays_modifyDi ip _) fun _ => .bind (stays_brelse _) fun _ =>
        .bind (stays_modifyInode ip _) fun _ => .bind (stays_getInode ip) fun i => ?_
      split
      · exact stays_panic (by decide)
      · exact .pure t ()
    · exact .pure t ()

theorem stays_iunlock (ip : Nat) : Stays t (iunlock ip) := by
  apply stays_act
  intro s
  by_cases h : (!(s.inode ip).busy) = true ∨ (s.inode ip).ref < 1
  · rw [if_pos h]
    simp
  · rw [if_neg h]
    rfl

end Inodes

section Content

variable {t : Bool}

theorem stays_bmapAddr (ip k : Nat) : Stays t (bmapAddr ip k) := by
  refine keeps_bind (keeps_single (fun h => by rcases h with h | h <;> cases h) (fun h => by cases h)
    (stays_single rfl fun _ => rfl) fun s addr s' hf hMay => ?_)
  obtain ⟨rfl, -⟩ := Prod.mk.inj (Except.ok.inj hf)
  change Stays t _
  cases t with
  | false =>
    have hNz : (s.inode ip).di.addrs k ≠ 0 := hMay rfl
    rw [if_neg hNz]
    exact .pure false _
  | true =>
    split
    · exact .bind stays_balloc fun _ => .bind (stays_modifyDi ip _) fun _ => .pure true _
    · exact .pure true _

theorem stays_bmapIndirect (ind bn : Nat) : Stays t (bmapIndirect ind bn) := by
  refine keeps_bind (keeps_single (fun h => by rcases h with h | h <;> cases h) (fun h => by cases h)
    (sound_breadAs ind rfl) fun s bp s' hf hMay => ?_)
  change Stays t _
  cases t with
  | false =>
    have hNz : getWord bp (4 * bn) ≠ 0 := by
      split at hf
      · cases hf
      · obtain ⟨rfl, -⟩ := Prod.mk.inj (Except.ok.inj hf)
        exact hMay rfl
    rw [if_neg hNz]
    exact .bind (stays_brelse ind) fun _ => .pure false _
  | true =>
    split
    · exact .bind stays_balloc fun _ => .bind (stays_logWriteBuf ind _) fun _ => .bind (stays_brelse ind) fun _ =>
        .pure true _
    · exact .bind (stays_brelse ind) fun _ => .pure true _

theorem stays_bmap (ip bn : Nat) : Stays t (bmap ip bn) := by
  rw [bmap]
  split
  · exact stays_bmapAddr ip bn
  · split
    · exact .bind (stays_bmapAddr ip ndirect) fun ind => stays_bmapIndirect ind _
    · exact stays_panic (by decide)

theorem stays_truncDirect (ip k : Nat) : Stays true (truncDirect ip k) := by
  induction k with
  | zero => exact .pure true ()
  | succ k ih =>
    refine .bind (stays_getInode ip) fun i => ?_
    split
    · exact .bind (stays_bfree _) fun _ => .bind (stays_modifyDi ip _) fun _ => ih
    · exact ih

theorem stays_truncIndirect (bp : Block) (k : Nat) : Stays true (truncIndirect bp k) := by
  induction k with
  | zero => exact .pure true ()
  | succ k ih =>
    rw [truncIndirect]
    split
    · exact .bind (stays_bfree _) fun _ => ih
    · exact ih

theorem stays_itrunc (ip : Nat) : Stays true (itrunc ip) := by
  have hEnd := Stays.bind (t := true) (stays_modifyDi ip fun di => { di with size := 0 }) fun _ => stays_iupdate ip
  refine .bind (stays_truncDirect ip _) fun _ => .bind (stays_getInode ip) fun i => ?_
  split
  · exact .bind (stays_bread _) fun bp => .bind (stays_truncIndirect bp _) fun _ => .bind (stays_brelse _) fun _ =>
      .bind (stays_bfree _) fun _ => .bind (stays_modifyDi ip _) fun _ => hEnd
  · exact hEnd

theorem stays_iput (ip : Nat) : Stays t (iput ip) := by
  refine keeps_bind (keeps_single (fun h => by rcases h with h | h <;> cases h) (fun h => by cases h)
    (stays_single rfl fun s => ?_) fun s free s' hf hMay => ?_)
  · by_cases h : (s.inode ip).ref = 1 ∧ (s.inode ip).valid ∧ (s.inode ip).di.nlink = 0
    · rw [if_pos h]
      cases (s.inode ip).busy with
      | false => rfl
      | true => simp
    · rw [if_neg h]
      rfl
  · change Stays t _
    cases t with
    | false =>
      have hNot : ¬((s.inode ip).ref = 1 ∧ (s.inode ip).valid ∧ (s.inode ip).di.nlink = 0) := hMay rfl
      rw [if_neg hNot] at hf
      obtain ⟨rfl, -⟩ := Prod.mk.inj (Except.ok.inj hf)
      exact .pure false ()
    | true =>
      split
      · exact .bind (stays_itrunc ip) fun _ => .bind (stays_modifyDi ip _) fun _ => .bind (stays_iupdate ip) fun _ =>
          stays_modifyInode ip _
      · exact .pure true ()

theorem stays_iunlockput (ip : Nat) : Stays t (iunlockput ip) := .bind (stays_iunlock ip) fun _ => stays_iput ip

theorem stays_readiFrom (ip fuel off n : Nat) : Stays t (readiFrom ip fuel off n) := by
  induction fuel generalizing off n with
  | zero => exact .pure t _
  | succ fuel ih =>
    rw [readiFrom]
    split
    · exact .pure t _
    · exact .bind (stays_bmap ip _) fun _ => .bind (stays_bread _) fun _ => .bind (stays_brelse _) fun _ =>
        .bind (ih _ _) fun _ => .pure t _

theorem stays_devCall {α : Type} (ip major : Nat) (f : Devsw → Option α) : Stays t (devCall ip major f) := by
  refine .bind (stays_getK _) fun d => ?_
  cases d with
  | none => exact .pure t _
  | some d => exact .bind (stays_iunlock ip) fun _ => .bind (stays_ilock ip) fun _ => .pure t _

theorem stays_readi (ip off n : Nat) : Stays t (readi ip off n) := by
  refine .bind (stays_getInode ip) fun i => ?_
  split
  · exact stays_devCall ip _ _
  · split
    · exact .pure t _
    · exact .bind (stays_readiFrom ip _ _ _) fun _ => .pure t _

theorem stays_writeiFrom (ip fuel off : Nat) (src : List UInt8) : Stays true (writeiFrom ip fuel off src) := by
  induction fuel generalizing off src with
  | zero => exact .pure true ()
  | succ fuel ih =>
    rw [writeiFrom]
    split
    · exact .pure true ()
    · exact .bind (stays_bmap ip _) fun _ => .bind (stays_bread _) fun _ => .bind (stays_logWriteBuf _ _) fun _ =>
        .bind (stays_brelse _) fun _ => ih _ _

theorem stays_writei (ip : Nat) (src : List UInt8) (off : Nat) : Stays true (writei ip src off) := by
  refine .bind (stays_getInode ip) fun i => ?_
  split
  · exact stays_devCall ip _ _
  split
  · exact .pure true _
  split
  · exact .pure true _
  refine .bind (stays_writeiFrom ip _ _ _) fun _ => ?_
  split
  · exact .bind (stays_modifyDi ip _) fun _ => .bind (stays_iupdate ip) fun _ => .pure true _
  · exact .pure true _

end Content

section Directories

variable {t : Bool}

theorem stays_dirlookupFrom (dp : Nat) (name : List UInt8) (fuel off : Nat) :
    Stays t (dirlookupFrom dp name fuel off) := by
  induction fuel generalizing off with
  | zero => exact .pure t _
  | succ fuel ih =>
    refine .bind (stays_getInode dp) fun d => ?_
    split
    · exact .pure t _
    refine .bind (stays_readi dp off _) fun r => ?_
    cases r with
    | none => exact stays_panic (by decide)
    | some b =>
      dsimp only
      split
      · exact stays_panic (by decide)
      split
      · exact ih _
      · exact .bind (stays_iget _) fun _ => .pure t _

theorem stays_dirlookup (dp : Nat) (name : List UInt8) : Stays t (dirlookup dp name) := by
  refine .bind (stays_getInode dp) fun d => ?_
  split
  · exact stays_panic (by decide)
  · exact stays_dirlookupFrom dp name _ 0

theorem stays_emptyEntryFrom (dp fuel off : Nat) : Stays t (emptyEntryFrom dp fuel off) := by
  induction fuel generalizing off with
  | zero => exact .pure t _
  | succ fuel ih =>
    refine .bind (stays_getInode dp) fun d => ?_
    split
    · exact .pure t _
    refine .bind (stays_readi dp off _) fun r => ?_
    cases r with
    | none => exact stays_panic (by decide)
    | some b =>
      dsimp only
      split
      · exact stays_panic (by decide)
      split
      · exact .pure t _
      · exact ih _

theorem stays_dirlink (dp : Nat) (name : List UInt8) (inum : Nat) : Stays true (dirlink dp name inum) := by
  refine .bind (stays_dirlookup dp name) fun r => ?_
  cases r with
  | some r => exact .bind (stays_iput r.1) fun _ => .pure true _
  | none =>
    refine .bind (stays_getInode dp) fun d => .bind (stays_emptyEntryFrom dp _ 0) fun off =>
      .bind (stays_writei dp _ off) fun r => ?_
    split
    · exact stays_panic (by decide)
    · exact .pure true _

theorem stays_namexFrom (parent : Bool) (fuel ip : Nat) (path name : List UInt8) :
    Stays t (namexFrom parent fuel ip path name) := by
  induction fuel generalizing ip path name with
  | zero => exact .pure t _
  | succ fuel ih =>
    rw [namexFrom]
    cases skipelem path with
    | none =>
      dsimp only
      split
      · exact .bind (stays_iput ip) fun _ => .pure t _
      · exact .pure t _
    | some e =>
      refine .bind (stays_ilock ip) fun _ => .bind (stays_getInode ip) fun i => ?_
      split
      · exact .bind (stays_iunlockput ip) fun _ => .pure t _
      split
      · exact .bind (stays_iunlock ip) fun _ => .pure t _
      refine .bind (stays_dirlookup ip _) fun r => ?_
      cases r with
      | none => exact .bind (stays_iunlockput ip) fun _ => .pure t _
      | some r => exact .bind (stays_iunlockput ip) fun _ => ih _ _ _

theorem stays_idupCwd (p : Nat) : Stays t (idupCwd p) := by
  apply stays_act
  intro s
  cases (s.proc p).cwd with
  | none => simp
  | some ip => rfl

theorem stays_namex (p : Nat) (path : List UInt8) (parent : Bool) : Stays t (namex p path parent) := by
  rw [namex]
  split
  · exact .bind (stays_iget _) fun _ => stays_namexFrom parent _ _ _ _
  · exact .bind (stays_idupCwd p) fun _ => stays_namexFrom parent _ _ _ _

theorem stays_namei (p : Nat) (path : List UInt8) : Stays t (namei p path) :=
  .bind (stays_namex p path false) fun _ => .pure t _

end Directories

section Calls

abbrev Closes {α : Type} (x : FsM α) : Prop := transactions.Keeps x true fun _ t => t = false

variable {α β : Type}

theorem Closes.bind {x : FsM β} {g : β → FsM α} (h : Stays true x) (hg : ∀ b, Closes (g b)) : Closes (x >>= g) := by
  refine keeps_bind (Keeps.mono h ?_)
  rintro b _ rfl
  exact hg b

theorem Closes.commit {g : Unit → FsM α} (hg : Stays false (g ())) : Closes (commitTransK >>= g) :=
  keeps_bind (keeps_commitTransK hg)

theorem closes_commitTransK : Closes commitTransK := keeps_commitTransK rfl

theorem stays_begin {g : Unit → FsM α} (hg : Closes (g ())) : Stays false (beginTransK >>= g) :=
  keeps_bind (keeps_beginTransK hg)

theorem Closes.then {x : FsM β} {g : β → FsM α} (h : Closes x) (hg : ∀ b, Stays false (g b)) :
    Closes (x >>= g) := by
  refine keeps_bind (Keeps.mono h ?_)
  rintro b _ rfl
  exact hg b

theorem stays_addOff {t : Bool} (f r : Nat) : Stays t (addOff f r) := stays_modifyK fun _ => rfl

theorem stays_filealloc {t : Bool} : Stays t filealloc := by
  apply stays_act
  intro s
  cases (List.range nfile).find? fun f => (s.file f).ref == 0 with
  | none => rfl
  | some f => rfl

theorem stays_fdalloc {t : Bool} (p f : Nat) : Stays t (fdalloc p f) := by
  apply stays_act
  intro s
  cases (List.range nofile).find? fun fd => (s.proc p).ofile fd == none with
  | none => rfl
  | some fd => rfl

theorem stays_filedup {t : Bool} (f : Nat) : Stays t (filedup f) := by
  apply stays_act
  intro s
  by_cases h : (s.file f).ref < 1
  · rw [if_pos h]
    simp
  · rw [if_neg h]
    rfl

theorem stays_fileclose (f : Nat) : Stays false (fileclose f) := by
  refine .bind (stays_act fun s => ?_) fun ff => ?_
  · by_cases h : (s.file f).ref < 1
    · rw [if_pos h]
      simp
    · rw [if_neg h]
      by_cases h' : 0 < (s.file f).ref - 1
      · rw [if_pos h']
        rfl
      · rw [if_neg h']
        rfl
  · cases ff with
    | none => exact .pure false ()
    | some ff =>
      dsimp only
      cases ff.type with
      | none => exact .pure false ()
      | inode => exact stays_begin (Closes.bind (stays_iput _) fun _ => closes_commitTransK)

theorem stays_fileread (f n : Nat) : Stays false (fileread f n) := by
  refine .bind (stays_getK _) fun ff => ?_
  split
  · exact .pure false _
  cases ff.type with
  | none => exact stays_panic (by decide)
  | inode =>
    refine .bind (stays_ilock _) fun _ => .bind (stays_getK _) fun off => .bind (stays_readi _ _ _) fun r => ?_
    have hEnd := Stays.bind (t := false) (stays_iunlock ff.ip) fun _ => Stays.pure (D := transactions) false r
    split
    · exact .bind (stays_addOff f _) fun _ => hEnd
    · exact hEnd

theorem stays_filewriteChunk (f ip : Nat) (src : List UInt8) : Stays false (filewriteChunk f ip src) := by
  refine stays_begin (Closes.bind (stays_ilock _) fun _ => Closes.bind (stays_getK _) fun off =>
    Closes.bind (stays_writei _ _ _) fun r => ?_)
  have hEnd : Closes (do
      iunlock ip
      commitTransK
      return r : FsM (Option Nat)) :=
    Closes.bind (stays_iunlock ip) fun _ => Closes.commit (.pure false r)
  dsimp only
  split
  · exact Closes.bind (stays_addOff f _) fun _ => hEnd
  · exact hEnd

theorem stays_filewriteFrom (f ip fuel : Nat) (src : List UInt8) : Stays false (filewriteFrom f ip fuel src) := by
  induction fuel generalizing src with
  | zero => exact .pure false _
  | succ fuel ih =>
    rw [filewriteFrom]
    split
    · exact .pure false _
    refine .bind (stays_filewriteChunk f ip _) fun r => ?_
    cases r with
    | none => exact .pure false _
    | some r =>
      dsimp only
      split
      · exact stays_panic (by decide)
      · exact ih _

theorem stays_filewrite (f : Nat) (src : List UInt8) : Stays false (filewrite f src) := by
  refine .bind (stays_getK _) fun ff => ?_
  split
  · exact .pure false _
  cases ff.type with
  | none => exact stays_panic (by decide)
  | inode =>
    refine .bind (stays_filewriteFrom f _ _ src) fun b => ?_
    cases b with
    | true => exact .pure false _
    | false => exact .pure false _

end Calls

end Xv6Rpi.Fs
