import Mathlib.Data.Multiset.Basic
import Xv6Rpi.Fs.Elements
import Xv6Rpi.Fs.Quiet

/-! # Who has which references

`iget`, `idup` and the lookup of a name give a reference to a cache entry, and `iput` takes one. A logic that knows the
references of one holder and has a rule for each of these has a rule for every function on paths and directories: the
references that it takes on the way it gives back on every way out.
-/

namespace Xv6Rpi.Fs

/-- The rules for the references of one holder: `Led x m Q` says that `x`, started with the references `m`, ends with
references of which `Q` holds. -/
structure Ledger (Led : ∀ {α : Type}, FsM α → Multiset Nat → (α → Multiset Nat → Prop) → Prop) : Prop where
  pure : ∀ {α : Type} {a : α} {m : Multiset Nat} {Q : α → Multiset Nat → Prop}, Q a m → Led (Pure.pure a) m Q
  bind : ∀ {α β : Type} {x : FsM β} {k : β → FsM α} {m : Multiset Nat} {Q : α → Multiset Nat → Prop},
    Led x m (fun b m' => Led (k b) m' Q) → Led (x >>= k) m Q
  panic : ∀ {α : Type} {p : Panic} {m : Multiset Nat} {Q : α → Multiset Nat → Prop}, Led (panic p) m Q
  quiet : ∀ {α : Type} {x : FsM α} {m : Multiset Nat} {Q : α → Multiset Nat → Prop}, Quiet x → (∀ a, Q a m) → Led x m Q
  iget : ∀ {inum : Nat} {m : Multiset Nat} {Q : Nat → Multiset Nat → Prop}, (∀ ip, Q ip (ip ::ₘ m)) → Led (iget inum) m Q
  idupCwd : ∀ {p : Nat} {m : Multiset Nat} {Q : Nat → Multiset Nat → Prop}, (∀ ip, Q ip (ip ::ₘ m)) → Led (idupCwd p) m Q
  iput : ∀ {ip : Nat} {m : Multiset Nat} {Q : Unit → Multiset Nat → Prop}, Q () m → Led (iput ip) (ip ::ₘ m) Q

namespace Ledger

variable {Led : ∀ {α : Type}, FsM α → Multiset Nat → (α → Multiset Nat → Prop) → Prop} {α β : Type} {m : Multiset Nat}
  {dp ip p : Nat} {name path : List UInt8}

theorem after (hL : Ledger @Led) {x : FsM β} {k : β → FsM α} {Q : α → Multiset Nat → Prop} (hx : Quiet x)
    (hk : ∀ b, Led (k b) m Q) : Led (x >>= k) m Q := hL.bind (hL.quiet hx hk)

theorem iunlockput (hL : Ledger @Led) {Q : Unit → Multiset Nat → Prop} (hQ : Q () m) : Led (iunlockput ip) (ip ::ₘ m) Q :=
  hL.after (quiet_iunlock ip) fun _ => hL.iput hQ

section Directories

theorem dirlookupFrom (hL : Ledger @Led) {Q : Option (Nat × Nat) → Multiset Nat → Prop} (hNone : Q none m)
    (hSome : ∀ ip off, Q (some (ip, off)) (ip ::ₘ m)) (fuel off : Nat) : Led (dirlookupFrom dp name fuel off) m Q := by
  induction fuel generalizing off with
  | zero => exact hL.pure hNone
  | succ fuel ih =>
    refine hL.after (quiet_getInode dp) fun d => ?_
    split
    · exact hL.pure hNone
    · refine hL.after (quiet_readi dp off _) fun b => ?_
      cases b with
      | none => exact hL.panic
      | some b =>
        dsimp only
        split
        · exact hL.panic
        · split
          · exact ih _
          · exact hL.bind (hL.iget fun ip => hL.pure (hSome ip off))

theorem dirlookup (hL : Ledger @Led) {Q : Option (Nat × Nat) → Multiset Nat → Prop} (hNone : Q none m)
    (hSome : ∀ ip off, Q (some (ip, off)) (ip ::ₘ m)) : Led (dirlookup dp name) m Q := by
  refine hL.after (quiet_getInode dp) fun d => ?_
  split
  · exact hL.panic
  · exact hL.dirlookupFrom hNone hSome _ 0

theorem dirlink (hL : Ledger @Led) {inum : Nat} {Q : Bool → Multiset Nat → Prop} (hQ : ∀ b, Q b m) :
    Led (dirlink dp name inum) m Q := by
  refine hL.bind (hL.dirlookup ?_ fun ip off => ?_)
  · refine hL.after (quiet_getInode dp) fun d => hL.after (quiet_emptyEntryFrom dp _ 0) fun off =>
      hL.after (quiet_writei dp _ off) fun r => ?_
    split
    · exact hL.panic
    · exact hL.pure (hQ true)
  · exact hL.bind (hL.iput (hL.pure (hQ false)))

end Directories

section Paths

theorem namexFrom (hL : Ledger @Led) {Q : Option (Nat × List UInt8) → Multiset Nat → Prop} (hNone : Q none m)
    (hSome : ∀ ip name, Q (some (ip, name)) (ip ::ₘ m)) (parent : Bool) {fuel : Nat} (hFuel : path.length < fuel) :
    Led (namexFrom parent fuel ip path name) (ip ::ₘ m) Q := by
  induction fuel generalizing ip path name with
  | zero => exact absurd hFuel (Nat.not_lt_zero _)
  | succ fuel ih =>
    rw [Fs.namexFrom]
    cases hElem : skipelem path with
    | none =>
      dsimp only
      split
      · exact hL.bind (hL.iput (hL.pure hNone))
      · exact hL.pure (hSome ip name)
    | some q =>
      have hShort : q.2.length < path.length := (skipelem_some hElem).2.2
      refine hL.after (quiet_ilock ip) fun _ => hL.after (quiet_getInode ip) fun i => ?_
      split
      · exact hL.bind (hL.iunlockput (hL.pure hNone))
      · split
        · exact hL.after (quiet_iunlock ip) fun _ => hL.pure (hSome ip q.1)
        · refine hL.bind (hL.dirlookup ?_ fun next off => ?_)
          · exact hL.bind (hL.iunlockput (hL.pure hNone))
          · refine hL.bind ?_
            rw [Multiset.cons_swap]
            exact hL.iunlockput (ih (by omega))

theorem namex (hL : Ledger @Led) {Q : Option (Nat × List UInt8) → Multiset Nat → Prop} (hNone : Q none m)
    (hSome : ∀ ip name, Q (some (ip, name)) (ip ::ₘ m)) (parent : Bool) : Led (namex p path parent) m Q := by
  rw [Fs.namex]
  dsimp only
  split
  · exact hL.bind (hL.iget fun ip => hL.namexFrom hNone hSome parent (Nat.lt_succ_self _))
  · exact hL.bind (hL.idupCwd fun ip => hL.namexFrom hNone hSome parent (Nat.lt_succ_self _))

theorem namei (hL : Ledger @Led) {Q : Option Nat → Multiset Nat → Prop} (hNone : Q none m)
    (hSome : ∀ ip, Q (some ip) (ip ::ₘ m)) : Led (namei p path) m Q :=
  hL.bind (hL.namex (hL.pure hNone) (fun ip _ => hL.pure (hSome ip)) false)

end Paths

section Calls

theorem iallocFrom (hL : Ledger @Led) {type : Nat} {Q : Nat → Multiset Nat → Prop} (hQ : ∀ ip, Q ip (ip ::ₘ m)) (k inum : Nat) :
    Led (iallocFrom type k inum) m Q := by
  induction k generalizing inum with
  | zero => exact hL.panic
  | succ k ih =>
    refine hL.after (quiet_breadAs _ _) fun bp => ?_
    split
    · exact hL.after (quiet_logWriteBuf _ _) fun _ => hL.after (quiet_brelse _) fun _ => hL.iget hQ
    · exact hL.after (quiet_brelse _) fun _ => ih _

theorem ialloc (hL : Ledger @Led) {type : Nat} {Q : Nat → Multiset Nat → Prop} (hQ : ∀ ip, Q ip (ip ::ₘ m)) :
    Led (ialloc type) m Q := hL.after (quiet_readsbAs _) fun _ => hL.iallocFrom hQ _ _

theorem enter (hL : Ledger @Led) {inum : Nat} {Q : Unit → Multiset Nat → Prop} (hQ : Q () m) :
    Led (do if ← Fs.dirlink dp name inum then Fs.iunlockput dp else Fs.panic .createDirlink) (dp ::ₘ m) Q := by
  refine hL.bind (hL.dirlink fun b => ?_)
  cases b with
  | false => exact hL.panic
  | true => exact hL.iunlockput hQ

theorem createIn (hL : Ledger @Led) {type major minor : Nat} {Q : Unit → Multiset Nat → Prop} (hQ : Q () m) :
    Led (createIn dp ip name type major minor) (dp ::ₘ m) Q := by
  refine hL.after (quiet_modifyDi fun _ => rfl) fun _ => hL.after (quiet_iupdate ip) fun _ =>
    hL.after (quiet_getInode ip) fun i => hL.after (quiet_getInode dp) fun d => ?_
  split
  · refine hL.after (quiet_addLink dp 1) fun _ => hL.after (quiet_iupdate dp) fun _ => hL.bind (hL.dirlink fun b => ?_)
    cases b with
    | false => exact hL.panic
    | true =>
      refine hL.bind (hL.dirlink fun b => ?_)
      cases b with
      | false => exact hL.panic
      | true => exact hL.enter hQ
  · exact hL.enter hQ

theorem create (hL : Ledger @Led) {type major minor : Nat} {Q : Option Nat → Multiset Nat → Prop} (hNone : Q none m)
    (hSome : ∀ ip, Q (some ip) (ip ::ₘ m)) : Led (create p path type major minor) m Q := by
  refine hL.bind (hL.namex (hL.pure hNone) (fun dp name => ?_) true)
  refine hL.after (quiet_ilock dp) fun _ => hL.bind (hL.dirlookup ?_ fun ip off => ?_)
  · refine hL.bind (hL.ialloc fun ip => hL.after (quiet_ilock ip) fun _ => hL.bind ?_)
    rw [Multiset.cons_swap]
    exact hL.createIn (hL.pure (hSome ip))
  · refine hL.bind ?_
    rw [Multiset.cons_swap]
    refine hL.iunlockput (hL.after (quiet_ilock ip) fun _ => hL.after (quiet_getInode ip) fun i => ?_)
    split
    · exact hL.pure (hSome ip)
    · exact hL.bind (hL.iunlockput (hL.pure hNone))

theorem linkBad (hL : Ledger @Led) {Q : Int → Multiset Nat → Prop} (hQ : ∀ r, Q r m) : Led (linkBad ip) (ip ::ₘ m) Q :=
  hL.after (quiet_ilock ip) fun _ => hL.after (quiet_addLink ip _) fun _ => hL.after (quiet_iupdate ip) fun _ =>
    hL.bind (hL.iunlockput (hL.after quiet_commitTransK fun _ => hL.pure (hQ _)))

theorem sysLink (hL : Ledger @Led) {old new : Option (List UInt8)} {Q : Int → Multiset Nat → Prop} (hQ : ∀ r, Q r m) :
    Led (sysLink p old new) m Q := by
  cases old with
  | none => exact hL.pure (hQ _)
  | some old =>
    cases new with
    | none => exact hL.pure (hQ _)
    | some new =>
      refine hL.bind (hL.namei (hL.pure (hQ _)) fun ip => ?_)
      refine hL.after quiet_beginTransK fun _ => hL.after (quiet_ilock ip) fun _ => hL.after (quiet_getInode ip) fun i => ?_
      split
      · exact hL.bind (hL.iunlockput (hL.after quiet_commitTransK fun _ => hL.pure (hQ _)))
      · refine hL.after (quiet_addLink ip 1) fun _ => hL.after (quiet_iupdate ip) fun _ => hL.after (quiet_iunlock ip) fun _ =>
          hL.bind (hL.namex (hL.linkBad hQ) (fun dp name => ?_) true)
        refine hL.after (quiet_ilock dp) fun _ => hL.after (quiet_getInode ip) fun i => hL.bind (hL.dirlink fun b => ?_)
        cases b with
        | false => exact hL.bind (hL.iunlockput (hL.linkBad hQ))
        | true => exact hL.bind (hL.iunlockput (hL.bind (hL.iput (hL.after quiet_commitTransK fun _ => hL.pure (hQ _)))))

theorem unlinkBad (hL : Ledger @Led) {Q : Int → Multiset Nat → Prop} (hQ : ∀ r, Q r m) : Led (unlinkBad dp) (dp ::ₘ m) Q :=
  hL.bind (hL.iunlockput (hL.after quiet_commitTransK fun _ => hL.pure (hQ _)))

theorem unlinkEntry (hL : Ledger @Led) {off : Nat} {Q : Int → Multiset Nat → Prop} (hQ : ∀ r, Q r m) :
    Led (unlinkEntry dp ip off) (dp ::ₘ ip ::ₘ m) Q := by
  have hEnd : Led (do
      Fs.iunlockput dp
      nlinkDec ip
      iupdate ip
      Fs.iunlockput ip
      commitTransK
      return 0) (dp ::ₘ ip ::ₘ m) Q :=
    hL.bind (hL.iunlockput (hL.after (quiet_addLink ip _) fun _ => hL.after (quiet_iupdate ip) fun _ =>
      hL.bind (hL.iunlockput (hL.after quiet_commitTransK fun _ => hL.pure (hQ _)))))
  refine hL.after (quiet_writei dp _ off) fun r => ?_
  split
  · exact hL.panic
  · refine hL.after (quiet_getInode ip) fun i => ?_
    split
    · exact hL.after (quiet_addLink dp _) fun _ => hL.after (quiet_iupdate dp) fun _ => hEnd
    · exact hEnd

theorem sysUnlink (hL : Ledger @Led) {path : Option (List UInt8)} {Q : Int → Multiset Nat → Prop} (hQ : ∀ r, Q r m) :
    Led (sysUnlink p path) m Q := by
  cases path with
  | none => exact hL.pure (hQ _)
  | some path =>
    refine hL.bind (hL.namex (hL.pure (hQ _)) (fun dp name => ?_) true)
    refine hL.after quiet_beginTransK fun _ => hL.after (quiet_ilock dp) fun _ => ?_
    split
    · exact hL.unlinkBad hQ
    · refine hL.bind (hL.dirlookup (hL.unlinkBad hQ) fun ip off => ?_)
      rw [Multiset.cons_swap]
      refine hL.after (quiet_ilock ip) fun _ => hL.after (quiet_getInode ip) fun i => ?_
      split
      · exact hL.panic
      · split
        · refine hL.after (quiet_isdirempty ip) fun b => ?_
          cases b with
          | true => exact hL.unlinkEntry hQ
          | false =>
            refine hL.bind ?_
            rw [Multiset.cons_swap]
            exact hL.iunlockput (hL.unlinkBad hQ)
        · exact hL.unlinkEntry hQ

theorem makeNode (hL : Ledger @Led) {path : Option (List UInt8)} {type major minor : Nat} {Q : Int → Multiset Nat → Prop}
    (hQ : ∀ r, Q r m) : Led (makeNode p path type major minor) m Q := by
  refine hL.after quiet_beginTransK fun _ => ?_
  cases path with
  | none => exact hL.after quiet_commitTransK fun _ => hL.pure (hQ _)
  | some path =>
    refine hL.bind (hL.create (hL.after quiet_commitTransK fun _ => hL.pure (hQ _)) fun ip => ?_)
    exact hL.bind (hL.iunlockput (hL.after quiet_commitTransK fun _ => hL.pure (hQ _)))

theorem exec (hL : Ledger @Led) {path : Option (List UInt8)} {mem : ExecMem} {Q : Int → Multiset Nat → Prop}
    (hQ : ∀ r, Q r m) : Led (exec p path mem) m Q := by
  cases path with
  | none => exact hL.pure (hQ _)
  | some path =>
    refine hL.bind (hL.namei (hL.pure (hQ _)) fun ip => ?_)
    exact hL.after (quiet_ilock ip) fun _ => hL.after (quiet_execLoad ip mem) fun ok =>
      hL.bind (hL.iunlockput (hL.pure (hQ _)))

end Calls

end Ledger

end Xv6Rpi.Fs
