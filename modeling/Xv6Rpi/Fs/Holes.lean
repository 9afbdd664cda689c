import Mathlib.Logic.Relation
import Xv6Rpi.Fs.Naming

/-! # Files without holes

No call leaves a file without one of its blocks, whatever it writes and however it fails, as long
as `balloc` stays within the data area. So the functions that only read never come to allocate a
block, and they change neither the bitmap nor an inode nor a file.
-/

namespace Xv6Rpi.Fs

open Prog

inductive TreeCall where
  | beginTrans
  | commitTrans
  | ilock (ip : Nat)
  | iunlock (ip : Nat)
  | iput (ip : Nat)
  | itrunc (ip : Nat)
  | readi (ip off n : Nat)
  | writei (ip : Nat) (src : List UInt8) (off : Nat)
  | dirlookup (dp : Nat) (name : List UInt8)
  | isdirempty (dp : Nat)
  | dirlink (dp : Nat) (name : List UInt8) (inum : Nat)
  | namex (p : Nat) (path : List UInt8) (parent : Bool)
  | create (p : Nat) (path : List UInt8) (type major minor : Nat)
  | link (p : Nat) (old new : Option (List UInt8))
  | unlink (p : Nat) (path : Option (List UInt8))

def TreeCall.prog : TreeCall → FsM (Option Nat)
  | .beginTrans => do
    beginTransK
    return none
  | .commitTrans => do
    commitTransK
    return none
  | .ilock ip => do
    Fs.ilock ip
    return none
  | .iunlock ip => do
    Fs.iunlock ip
    return none
  | .iput ip => do
    Fs.iput ip
    return none
  | .itrunc ip => do
    Fs.itrunc ip
    return none
  | .readi ip off n => do
    let _ ← Fs.readi ip off n
    return none
  | .writei ip src off => do
    let _ ← Fs.writei ip src off
    return none
  | .dirlookup dp name => do
    let r ← Fs.dirlookup dp name
    return r.map Prod.fst
  | .isdirempty dp => do
    let _ ← Fs.isdirempty dp
    return none
  | .dirlink dp name inum => do
    let _ ← Fs.dirlink dp name inum
    return none
  | .namex p path parent => do
    let r ← Fs.namex p path parent
    return r.map Prod.fst
  | .create p path type major minor => Fs.create p path type major minor
  | .link p old new => do
    let _ ← sysLink p old new
    return none
  | .unlink p path => do
    let _ ← sysUnlink p path
    return none

def TreeCall.Reads : TreeCall → Prop
  | .readi .. | .dirlookup .. | .isdirempty .. | .namex .. => True
  | _ => False

/-- The inode that a call works on is locked by its caller, and its arguments are in range. `l` are
the references that earlier calls have returned, `r` all others. -/
def TreeCall.Ok (sb : Superblock) (r l : Multiset Nat) (s : Kern) : TreeCall → Prop
  | .ilock ip | .iunlock ip => ip ∈ r + l
  | .iput ip => ip ∈ l
  | .itrunc ip | .readi ip _ _ | .dirlookup ip _ => Mine (r + l) s ip
  | .writei ip _ _ => Mine (r + l) s ip ∧ (s.inode ip).di.type ≠ tDir
  | .isdirempty dp => Mine (r + l) s dp ∧ (s.inode dp).di.type = tDir
  | .dirlink dp _ inum => Mine (r + l) s dp ∧ inum < sb.ninodes
  | .create _ _ type _ _ => type < 2 ^ 16
  | .beginTrans | .commitTrans | .namex .. | .link .. | .unlink .. => True

def TreeCall.after (l : Multiset Nat) : TreeCall → Option Nat → Multiset Nat
  | .iput ip, _ => l.erase ip
  | _, none => l
  | _, some ip => ip ::ₘ l

/-- One call, in which every search for a free block ends in the data area. -/
def Called (sb : Superblock) (r : Multiset Nat) (a b : Kern × Multiset Nat) : Prop :=
  ∃ (op : TreeCall) (ret : Option Nat), op.Ok sb r a.2 a.1 ∧ op.prog.along (AllocsInData sb) a.1 ∧
    op.prog.run a.1 = .ok (ret, b.1) ∧ b.2 = op.after a.2 ret

/-- No block below the size of a file is missing. -/
def Whole (sb : Superblock) (s : Kern) : Prop :=
  ∀ k < sb.ninodes, (eff s k).type ≠ 0 → NoHoles (home s) (eff s k)

/-- `iput` does not drop the last reference to an inode without links. -/
def KeepsLast : Label → Kern → Prop
  | .iput ip, s => ¬LastRef s ip
  | _, _ => True

/-- What is shown of a call that reads: it starts no search for a free block. -/
def looking : Rely Kern Stop Label := ⟨fun _ => True, KeepsLast, fun l _ => l ≠ .balloc⟩

section Calls

variable {R : Rely Kern Stop Label} {sb : Superblock} {M : LowBits sb} {r l : Multiset Nat} {s s' : Kern} {op : TreeCall} [CommitsIn R (InOrder M)]

theorem looking_allows : Allows looking := ⟨fun _ _ _ => trivial, fun _ _ hl => hl.1⟩

instance (P : Kern → Prop) : CommitsIn looking P := ⟨fun _ _ => Label.noConfusion⟩

theorem looking_gentle : Gentle looking := fun _ _ h => h

/-- The files are whole, and the processes have references to their current directories. -/
structure Settled {sb : Superblock} (M : LowBits sb) (r l : Multiset Nat) (s : Kern) : Prop where
  fit : Fit M (r + l) s
  cwd : ∀ p j, (s.proc p).cwd = some j → j ∈ r

theorem Settled.cwd_mem (h : Settled M r l s) (p j : Nat) (hj : (s.proc p).cwd = some j) : j ∈ r + l :=
  Multiset.mem_add.mpr (Or.inl (h.cwd p j hj))

theorem Settled.of_rests {A : Set Nat} {l' : Multiset Nat} (h : Settled M r l s) (hFit : Fit M (r + l') s')
    (hRests : Rests A s s') : Settled M r l' s' := ⟨hFit, by rw [hRests.proc]; exact h.cwd⟩

theorem Settled.gain {A : Set Nat} {ip : Nat} (h : Settled M r l s) (hFit : Fit M (ip ::ₘ (r + l)) s')
    (hRests : Rests A s s') : Settled M r (ip ::ₘ l) s' := by
  refine h.of_rests ?_ hRests
  rwa [Multiset.add_cons]

omit [CommitsIn R (InOrder M)] in
/-- A call that reads leaves everything as it is but for the reference that it returns. -/
theorem Settled.wp_read (hR : Allows R) (hG : Geom sb) (hStop : R.stop (.panic .ilockNoType)) (hRoot : rootino < sb.ninodes)
    (h : Settled M r l s) (hOk : op.Ok sb r l s) (hRead : op.Reads) :
    wp R op.prog (fun ret s' => Settled M r (op.after l ret) s' ∧ (Gentle R → Looked s s')) s := by
  cases op with
  | readi ip off n =>
    rw [TreeCall.prog, wp_bind]
    exact h.fit.wp_readi hR hG hStop hOk fun _ s' h' hL hR' _ => ⟨h.of_rests h' hR', fun _ => hL⟩
  | dirlookup dp name =>
    rw [TreeCall.prog, wp_bind]
    refine h.fit.wp_dirlookup hR hOk (fun s' _ hs => ?_) fun ip i s' _ _ h' hL hR' => ⟨h.gain h' hR', fun _ => hL⟩
    obtain ⟨h', hL⟩ := h.fit.same hs
    exact ⟨h.of_rests h' (Rests.of_same (A := ∅) hs), fun _ => hL⟩
  | isdirempty dp =>
    rw [TreeCall.prog, wp_bind]
    refine h.fit.wp_isdirempty hR hOk.1 hOk.2 fun b s' hs => ?_
    obtain ⟨h', hL⟩ := h.fit.same hs
    exact ⟨h.of_rests h' (Rests.of_same (A := ∅) hs), fun _ => hL⟩
  | namex p path parent =>
    rw [TreeCall.prog, wp_bind]
    exact h.fit.wp_namex hR hG hStop hRoot (h.cwd_mem p) parent (fun s' h' hL hR' => ⟨h.of_rests h' hR', hL⟩)
      fun ip _ s' h' hL hR' => ⟨h.gain h' hR', hL⟩
  | _ => exact hRead.elim

theorem Settled.wp_treeCall (hR : Relies M R) (hG : Geom sb) (hStop : R.stop (.panic .ilockNoType))
    (hRoot : rootino < sb.ninodes) (h : Settled M r l s) (hOk : op.Ok sb r l s) :
    wp R op.prog (fun ret s' => Settled M r (op.after l ret) s') s := by
  cases op with
  | beginTrans =>
    rw [TreeCall.prog, wp_bind]
    exact h.fit.wp_beginTransK hR.stop fun s' h' _ hR' _ => h.of_rests h' hR'
  | commitTrans =>
    rw [TreeCall.prog, wp_bind]
    exact h.fit.wp_commitTransK hR.stop fun s' h' _ hR' _ => h.of_rests h' hR'
  | ilock ip =>
    rw [TreeCall.prog, wp_bind]
    exact h.fit.wp_ilock hR.stop hG hStop hOk fun s' h' _ hR' _ => h.of_rests h' hR'
  | iunlock ip =>
    rw [TreeCall.prog, wp_bind]
    refine h.fit.wp_iunlock hR.stop hOk fun s' h' _ hs _ => ?_
    exact h.of_rests (A := ∅) h' (.of_others hs.file hs.proc hs.devsw hs.others (Set.notMem_empty ip))
  | iput ip =>
    have hFit := h.fit
    rw [← Multiset.cons_erase (show ip ∈ l from hOk), Multiset.add_cons] at hFit
    rw [TreeCall.prog, wp_bind]
    exact hFit.wp_iput hR.stop hG fun s' h' _ hR' => h.of_rests h' hR'
  | itrunc ip =>
    rw [TreeCall.prog, wp_bind]
    exact h.fit.wp_itrunc hR.stop hG hOk fun s' h' hR' _ => h.of_rests h' hR'
  | writei ip src off =>
    rw [TreeCall.prog, wp_bind]
    exact h.fit.wp_writei hR hG hStop hOk.1 (fun hDir => absurd hDir hOk.2) fun _ s' h' hR' _ _ => h.of_rests h' hR'
  | dirlink dp name inum =>
    rw [TreeCall.prog, wp_bind]
    exact h.fit.wp_dirlink hR hG hStop hOk.1 hOk.2 fun _ s' h' hR' _ => h.of_rests h' hR'
  | create p path type major minor =>
    exact h.fit.wp_create hR hG hStop hRoot (h.cwd_mem p) hOk (fun s' h' hR' => h.of_rests h' hR')
      fun ip s' h' hR' _ _ => h.gain h' hR'
  | link p old new =>
    rw [TreeCall.prog, wp_bind]
    exact h.fit.wp_sysLink hR hG hStop hRoot (h.cwd_mem p) fun _ s' h' hR' => h.of_rests h' hR'
  | unlink p path =>
    rw [TreeCall.prog, wp_bind]
    exact h.fit.wp_sysUnlink hR hG hStop hRoot (h.cwd_mem p) fun _ s' h' hR' => h.of_rests h' hR'
  | readi ip off n =>
    exact wp_mono (h.wp_read hR.stop hG hStop hRoot hOk trivial) fun _ _ hPost => hPost.1
  | dirlookup dp name =>
    exact wp_mono (h.wp_read hR.stop hG hStop hRoot hOk trivial) fun _ _ hPost => hPost.1
  | isdirempty dp =>
    exact wp_mono (h.wp_read hR.stop hG hStop hRoot hOk trivial) fun _ _ hPost => hPost.1
  | namex p path parent =>
    exact wp_mono (h.wp_read hR.stop hG hStop hRoot hOk trivial) fun _ _ hPost => hPost.1

theorem Settled.called (hG : Geom sb) (hRoot : rootino < sb.ninodes) (h : Settled M r l s) {b : Kern × Multiset Nat}
    (hCall : Called sb r (s, l) b) : Settled M r b.2 b.1 := by
  obtain ⟨op, ret, hOk, hMay, hRun, hAfter⟩ := hCall
  rw [hAfter]
  exact wp_run (h.wp_treeCall (inData_relies M) hG trivial hRoot hOk) hMay hRun

theorem Settled.runs (hG : Geom sb) (hRoot : rootino < sb.ninodes) (h : Settled M r l s) {b : Kern × Multiset Nat}
    (hRuns : Relation.ReflTransGen (Called sb r) (s, l) b) : Settled M r b.2 b.1 := by
  induction hRuns with
  | refl => exact h
  | tail _ hCall ih => exact ih.called hG hRoot hCall

/-- After any run of calls whose searches for free blocks end in the data area, no file has a
hole, and a call that reads searches for no free block and changes no inode and no file, as long
as it does not drop the last reference to an inode without links. -/
theorem reads_are_pure (hG : Geom sb) (hRoot : rootino < sb.ninodes) (h : Settled M r l s) {l' : Multiset Nat}
    (hRuns : Relation.ReflTransGen (Called sb r) (s, l) (s', l')) : Whole sb s' ∧
      ∀ op : TreeCall, op.Reads → op.Ok sb r l' s' → op.prog.along KeepsLast s' →
        op.prog.along (fun label _ => label ≠ .balloc) s' ∧
          ∀ ret s'', op.prog.run s' = .ok (ret, s'') → Looked s' s'' := by
  have h' : Settled M r l' s' := h.runs hG hRoot hRuns
  refine ⟨fun k hk hType => (h'.fit.sane k hk hType).full, fun op hRead hOk hMay => ?_⟩
  have hWp := h'.wp_read looking_allows hG trivial hRoot hOk hRead
  exact ⟨wp_along hWp hMay, fun ret s'' hRun => (wp_run hWp hMay hRun).2 looking_gentle⟩

end Calls

section Example

variable {sb : Superblock} {d : Disk} {di : Dinode} {file : Nat → File} {n : Nat}

theorem lone_fit (hS : Sound sb (lone sb d di file) ∅) (hSync : dinodeOf (home (lone sb d di file)) 1 = di)
    (hType : di.type ≠ 0) (hSane : Sane sb (home (lone sb d di file)) di)
    (hFree : ∀ inum < sb.ninodes, inum ≠ 1 → (dinodeOf (home (lone sb d di file)) inum).type = 0) :
    Fit (LowBits.any sb) {0} (lone sb d di file) where
  toSteady := hS.steady
  synced j hl := by
    rw [lone_live hl.ref]
    exact hSync.symm
  typed j hl := by
    rw [lone_live hl.ref]
    exact hType
  sane k hk hTyped := by
    have hEff : eff (lone sb d di file) 1 = di := hS.cache.eff_live lone_slot
    by_cases hEq : k = 1
    · rw [hEq, hEff]
      exact hSane
    · have hDead : eff (lone sb d di file) k = dinodeOf (home (lone sb d di file)) k :=
        eff_of_dead fun j hl hSame => hEq (by rw [← hSame, lone_live hl.ref]; rfl)
      rw [hDead, hFree k hk hEq] at hTyped
      exact absurd rfl hTyped
  refs j hj := by
    by_cases hEq : j = 0
    · rw [hEq]
      rfl
    · rw [Multiset.count_singleton, if_neg hEq]
      exact congrArg Inode.ref (if_neg hEq)
  lt j hj := by
    rw [Multiset.mem_singleton] at hj
    rw [hj]
    decide

def twelveSb (n : Nat) : Superblock := ⟨27 + n, 12 + n, 8, 10⟩

/-- A file that fills the blocks that need no indirect block. -/
def twelveDi : Dinode := ⟨tFile, 0, 0, 1, 6144, fun i => if i < ndirect then 5 + i else 0⟩

/-- A disk with that file and `n` more data blocks. -/
def twelveImage (n : Nat) : Disk
  | 1 => setWord (setWord (setWord (setWord zeroBlock 0 (27 + n)) 4 (12 + n)) 8 8) 12 10
  | 2 => encodeDinode zeroBlock 1 twelveDi
  | 4 => fun j => if j < 2 then 0xFF else if j = 2 then 0x01 else 0
  | _ => zeroBlock

abbrev twelveIdle (n : Nat) : Kern := lone (twelveSb n) (twelveImage n) twelveDi fun _ => ⟨.none, 0, false, false, 0, 0⟩

/-- An open transaction has locked the file. -/
def twelve (n : Nat) : Kern :=
  setInode { twelveIdle n with log := beginTrans (twelveIdle n).log } 0 ⟨1, 1, true, true, twelveDi⟩

theorem twelveDi_ok : twelveDi.Ok := by
  refine ⟨by decide, by decide, by decide, by decide, by decide, fun i => ?_, fun i hi => ?_⟩
  · change (if i < 12 then 5 + i else 0) < 4294967296
    by_cases hi : i < 12
    · rw [if_pos hi]
      omega
    · rw [if_neg hi]
      decide
  · exact if_neg (by omega)

theorem twelveDi_ptr {d : Disk} (p : Nat) : ptr d twelveDi p = if p < 12 then 5 + p else 0 := by
  have hInd : twelveDi.addrs ndirect = 0 := rfl
  by_cases hp : p ≤ ndirect
  · rw [ptr_le hp]
    rfl
  · have hp' : 12 < p := Nat.lt_of_not_le hp
    rw [ptr_gt_zero hp' hInd, if_neg (by omega)]

theorem twelve_geom (hn : n = 0 ∨ n = 2) : Geom (twelveSb n) := by
  rcases hn with rfl | rfl <;> exact ⟨by decide, by decide, by decide⟩

theorem twelve_sane : Sane sb d twelveDi := by
  refine ⟨⟨by decide, fun bn hBn => ?_⟩, fun hDir => absurd hDir (by decide), fun hDir => absurd hDir (by decide)⟩
  have hLow : bn < 12 := by
    have : bn * 512 < 6144 := hBn
    omega
  have hPos : posOf bn = bn := if_pos hLow
  rw [hPos, twelveDi_ptr, if_pos hLow]
  omega

theorem twelve_settled (hn : n = 0 ∨ n = 2) : Settled (LowBits.any (twelveSb n)) {0} 0 (twelve n) := by
  have hG := twelve_geom hn
  have hSize : dataStart (twelveSb n) = 5 ∧ (twelveSb n).size - (twelveSb n).nlog = 17 + n := by
    rcases hn with rfl | rfl <;> exact ⟨by decide, by decide⟩
  have hBits : ∀ b < 17 + n, 5 ≤ b → (bit (twelveSb n) (twelveImage n) b = true ↔ b < 17) := by
    rcases hn with rfl | rfl <;> decide +kernel
  have hFree : ∀ inum < 8, inum ≠ 1 → (dinodeOf (twelveImage n) inum).type = 0 := by
    rcases hn with rfl | rfl <;> decide +kernel
  have hPtr : ∀ p, ptr (twelveImage n) twelveDi p ≠ 0 → p < 12 ∧ ptr (twelveImage n) twelveDi p = 5 + p := fun p hNz => by
    rw [twelveDi_ptr] at hNz ⊢
    by_cases hp : p < 12
    · exact ⟨hp, if_pos hp⟩
    · exact absurd (if_neg hp) hNz
  have hS : Sound (twelveSb n) (twelveIdle n) ∅ := by
    refine lone_sound hG ?_ (show 1 < 8 by decide) twelveDi_ok (by decide) hFree (fun p _ q _ hEq hNz => ?_) (fun p _ hNz => ?_) fun b hb => ?_
    · rcases hn with rfl | rfl <;> decide
    · obtain ⟨hp, hpEq⟩ := hPtr p hNz
      obtain ⟨hq, hqEq⟩ := hPtr q (by rwa [← hEq])
      omega
    · obtain ⟨hp, hpEq⟩ := hPtr p hNz
      rw [InData, hSize.1, hSize.2, hpEq]
      omega
    · rw [InData, hSize.1, hSize.2] at hb
      rw [hBits b hb.2 hb.1]
      constructor
      · intro hLow
        refine ⟨b - 5, ?_, ?_⟩
        · have : npos = 141 := rfl
          omega
        · rw [twelveDi_ptr, if_pos (by omega)]
          omega
      · rintro ⟨p, -, rfl⟩
        obtain ⟨hp, hpEq⟩ := hPtr p (by omega)
        omega
  have hDisk : ∀ inum < 8, dinodeOf (home (twelveIdle n)) inum = dinodeOf (twelveImage n) inum := fun inum hi => by
    rw [dinodeOf, dinodeOf, lone_home hG (hG.iblock_lt_log hi)]
  have hSync : dinodeOf (home (twelveIdle n)) 1 = twelveDi := by
    rw [hDisk 1 (by decide)]
    exact decode_encodeDinode twelveDi_ok zeroBlock 1
  have hFit : Fit (LowBits.any (twelveSb n)) {0} (twelveIdle n) := by
    refine lone_fit hS hSync (by decide) twelve_sane fun inum hi hne => ?_
    rw [hDisk inum hi]
    exact hFree inum hi hne
  have hBegun : Fit (LowBits.any (twelveSb n)) {0} { twelveIdle n with log := beginTrans (twelveIdle n).log } ∧
      Looked (twelveIdle n) { twelveIdle n with log := beginTrans (twelveIdle n).log } :=
    hFit.of_home rfl rfl hFit.mounted.begins
  exact ⟨hBegun.1.setBusy (Multiset.mem_singleton_self 0) true, fun p j hj => absurd hj.symm (Option.some_ne_none j)⟩

theorem twelve_mine (n : Nat) : Mine {0} (twelve n) 0 := ⟨Multiset.mem_singleton_self 0, ⟨by decide, Int.one_pos, rfl⟩, rfl⟩

set_option maxRecDepth 10000 in
/-- With two more data blocks a byte is appended in a new block, found through a new indirect block. -/
theorem twelve_append : ∃ s', (TreeCall.writei 0 [1] 6144).prog.run (twelve 2) = .ok (none, s') ∧
    Called (twelveSb 2) {0} (twelve 2, 0) (s', 0) := by
  have hRun : ((TreeCall.writei 0 [1] 6144).prog.run (twelve 2)).toOption.map Prod.fst = some none := by decide +kernel
  obtain ⟨⟨ret, s'⟩, hRun, hEq⟩ := Option.map_eq_some_iff.mp hRun
  rw [toOption_eq_some] at hRun
  dsimp only at hEq
  subst hEq
  exact ⟨s', hRun, .writei 0 [1] 6144, none, ⟨twelve_mine 2, by decide⟩, by decide +kernel, hRun, rfl⟩

theorem reads_are_pure_room : ∃ s', (TreeCall.writei 0 [1] 6144).prog.run (twelve 2) = .ok (none, s') ∧
    Whole (twelveSb 2) s' := by
  obtain ⟨s', hRun, hCall⟩ := twelve_append
  exact ⟨s', hRun, (reads_are_pure (twelve_geom (Or.inr rfl)) (by decide) (twelve_settled (Or.inr rfl)) (.single hCall)).1⟩

def emptyDi : Dinode := ⟨tFile, 0, 0, 1, 0, fun _ => 0⟩

/-- A file of thirteen blocks; the last one is found through block 17. -/
def thirteenDi : Dinode := ⟨tFile, 0, 0, 1, 6656, fun i => if i ≤ ndirect then 5 + i else 0⟩

/-- A disk with an empty file and that file, but the bitmap shows block 17 as free. -/
def unmarkedImage : Disk
  | 1 => setWord (setWord (setWord (setWord zeroBlock 0 29) 4 14) 8 8) 12 10
  | 2 => encodeDinode (encodeDinode zeroBlock 1 emptyDi) 2 thirteenDi
  | 4 => fun j => if j < 2 then 0xFF else if j = 2 then 0x05 else 0
  | 17 => setWord zeroBlock 0 18
  | _ => zeroBlock

def unmarked : Kern := lone (twelveSb 2) unmarkedImage emptyDi fun _ => ⟨.none, 0, false, false, 0, 0⟩

theorem emptyDi_ok : emptyDi.Ok :=
  ⟨by decide, by decide, by decide, by decide, by decide, fun _ => show 0 < 2 ^ 32 by decide, fun _ _ => rfl⟩

theorem thirteenDi_ok : thirteenDi.Ok := by
  refine ⟨by decide, by decide, by decide, by decide, by decide, fun i => ?_, fun i hi => ?_⟩
  · change (if i ≤ 12 then 5 + i else 0) < 4294967296
    by_cases hi : i ≤ 12
    · rw [if_pos hi]
      omega
    · rw [if_neg hi]
      decide
  · exact if_neg (by omega)

theorem unmarked_whole : Whole (twelveSb 2) unmarked := by
  have hG : Geom (twelveSb 2) := twelve_geom (Or.inr rfl)
  have hFree : ∀ k < 8, k ≠ 1 → k ≠ 2 → (dinodeOf unmarkedImage k).type = 0 := by decide +kernel
  intro k hk hType
  by_cases hOne : k = 1
  · have hEff : eff unmarked 1 = emptyDi := (lone_cache (by decide) emptyDi_ok).eff_live lone_slot
    rw [hOne, hEff]
    exact ⟨Nat.zero_le _, fun bn hBn => absurd hBn (Nat.not_lt_zero _)⟩
  · have hDead : eff unmarked k = dinodeOf (home unmarked) k :=
      eff_of_dead fun j hl hSame => hOne (by rw [← hSame, lone_live hl.ref]; rfl)
    have hDisk : dinodeOf (home unmarked) k = dinodeOf unmarkedImage k := by
      rw [dinodeOf, dinodeOf, unmarked, lone_home hG (hG.iblock_lt_log hk)]
    rw [hDead, hDisk] at hType ⊢
    obtain rfl : k = 2 := by_contra fun hTwo => hType (hFree k hk hOne hTwo)
    have hDi : dinodeOf unmarkedImage 2 = thirteenDi := decode_encodeDinode thirteenDi_ok _ 2
    rw [hDi]
    refine ⟨by decide, fun bn hBn => ?_⟩
    have hLow : bn < 13 := by
      have : bn * 512 < 6656 := hBn
      omega
    have hBlock : home unmarked 17 = unmarkedImage 17 := lone_home hG (by decide)
    by_cases hLast : bn = 12
    · rw [hLast, show posOf 12 = 13 by rfl, ptr, if_neg (by decide), if_neg (by decide), show thirteenDi.addrs ndirect = 17 by rfl, hBlock]
      decide +kernel
    · have hPos : posOf bn = bn := if_pos (by have : ndirect = 12 := rfl; omega)
      rw [hPos, ptr_le (by have : ndirect = 12 := rfl; omega)]
      change (if bn ≤ 12 then 5 + bn else 0) ≠ 0
      rw [if_pos (by omega)]
      omega

/-- A zero byte is written to the empty file. -/
def writeOne : FsM (Option Nat) := do
  let _ ← TreeCall.beginTrans.prog
  let _ ← (TreeCall.ilock 0).prog
  (TreeCall.writei 0 [0] 0).prog

set_option maxRecDepth 10000 in
/-- Nothing is missing, and the search ends in the data area, but the block that it finds is the
indirect block of another file. -/
theorem unmarked_leaves_hole : writeOne.along (AllocsInData (twelveSb 2)) unmarked ∧
    ∃ s', writeOne.run unmarked = .ok (none, s') ∧ ¬Whole (twelveSb 2) s' := by
  have hRun : (writeOne.run unmarked).toOption.map (fun e =>
      (e.1, (eff e.2 2).type, (eff e.2 2).size, ptr (home e.2) (eff e.2 2) (posOf 12))) = some (none, tFile, 6656, 0) := by
    decide +kernel
  obtain ⟨⟨ret, s'⟩, hRun, hEq⟩ := Option.map_eq_some_iff.mp hRun
  rw [toOption_eq_some] at hRun
  simp only [Prod.mk.injEq] at hEq
  obtain ⟨rfl, hType, hLen, hHole⟩ := hEq
  refine ⟨by decide +kernel, s', hRun, fun hWhole => ?_⟩
  refine (hWhole 2 (by decide) (by rw [hType]; decide)).ptr 12 ?_ hHole
  rw [hLen]
  decide

instance : (l : Label) → Decidable (l ≠ .balloc)
  | .balloc => .isFalse fun h => h rfl
  | .step | .logWrite | .beginTrans | .commitTrans | .iput _ | .bmap _ _ | .indirect _ _ => .isTrue Label.noConfusion

set_option maxRecDepth 10000 in
/-- When the data area is full the new indirect block is the first block of the log, whose first
word the commit clears: the file has a hole, and reading it searches for a free block. And where an
indirect block is not marked in the bitmap, a search that ends in the data area leaves a hole too. -/
theorem append_leaves_hole : (Settled (LowBits.any (twelveSb 0)) {0} 0 (twelve 0) ∧ Mine {0} (twelve 0) 0 ∧
    ∃ s', (do let _ ← (TreeCall.writei 0 [1] 6144).prog; TreeCall.commitTrans.prog : FsM (Option Nat)).run (twelve 0) =
        .ok (none, s') ∧
      (s'.inode 0).di.size = 6145 ∧ ptr s'.disk (s'.inode 0).di (posOf 12) = 0 ∧ ¬Whole (twelveSb 0) s' ∧
      ¬(TreeCall.readi 0 6144 1).prog.along (fun label _ => label ≠ .balloc) s') ∧
    Whole (twelveSb 2) unmarked ∧ writeOne.along (AllocsInData (twelveSb 2)) unmarked ∧
      ∃ s', writeOne.run unmarked = .ok (none, s') ∧ ¬Whole (twelveSb 2) s' := by
  have hRun : ((do let _ ← (TreeCall.writei 0 [1] 6144).prog; TreeCall.commitTrans.prog : FsM (Option Nat)).run (twelve 0)).toOption.map
      (fun e => ((e.1, (e.2.inode 0).di.size, ptr e.2.disk (e.2.inode 0).di (posOf 12)), ((eff e.2 1).type, (eff e.2 1).size,
        ptr (home e.2) (eff e.2 1) (posOf 12)), decide ((TreeCall.readi 0 6144 1).prog.along (fun label _ => label ≠ .balloc) e.2))) =
      some ((none, 6145, 0), (tFile, 6145, 0), false) := by decide +kernel
  obtain ⟨⟨ret, s'⟩, hRun, hEq⟩ := Option.map_eq_some_iff.mp hRun
  rw [toOption_eq_some] at hRun
  simp only [Prod.mk.injEq, decide_eq_false_iff_not] at hEq
  obtain ⟨⟨rfl, hSize, hPtr⟩, ⟨hType, hLen, hHole⟩, hReads⟩ := hEq
  refine ⟨⟨twelve_settled (Or.inl rfl), twelve_mine 0, s', hRun, hSize, hPtr, fun hWhole => ?_, hReads⟩,
    unmarked_whole, unmarked_leaves_hole⟩
  refine (hWhole 1 (by decide) (by rw [hType]; decide)).ptr 12 ?_ hHole
  rw [hLen]
  decide

end Example

end Xv6Rpi.Fs
