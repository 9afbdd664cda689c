import Xv6Rpi.Fs.Trans

/-! # Every write belongs to a transaction

Each system call keeps to the discipline of transactions, so in any interleaving of calls
of any processes a block is only written by the process whose transaction is open.
-/

namespace Xv6Rpi.Fs

open Discipline

section Calls

theorem stays_argfd {t : Bool} (p fd : Nat) : Stays t (argfd p fd) := stays_getK _

theorem stays_sysDup (p fd : Nat) : Stays false (sysDup p fd) := by
  refine .bind (stays_argfd p fd) fun r => ?_
  cases r with
  | none => exact .pure false _
  | some f =>
    refine .bind (stays_fdalloc p f) fun r => ?_
    cases r with
    | none => exact .pure false _
    | some fd => exact .bind (stays_filedup f) fun _ => .pure false _

theorem stays_sysRead (p fd : Nat) (n : Option Nat) : Stays false (sysRead p fd n) := by
  refine .bind (stays_argfd p fd) fun r => ?_
  split
  · refine .bind (stays_fileread _ _) fun r => ?_
    cases r with
    | none => exact .pure false _
    | some bytes => exact .pure false _
  · exact .pure false _

theorem stays_sysWrite (p fd : Nat) (src : Option (List UInt8)) : Stays false (sysWrite p fd src) := by
  refine .bind (stays_argfd p fd) fun r => ?_
  split
  · exact stays_filewrite _ _
  · exact .pure false _

theorem stays_sysClose (p fd : Nat) : Stays false (sysClose p fd) := by
  refine .bind (stays_argfd p fd) fun r => ?_
  cases r with
  | none => exact .pure false _
  | some f => exact .bind (stays_modifyK fun _ => rfl) fun _ => .bind (stays_fileclose f) fun _ => .pure false _

theorem stays_nlinkInc {t : Bool} (ip : Nat) : Stays t (nlinkInc ip) := by
  rw [nlinkInc, addLink]
  exact stays_modifyDi ip _

theorem stays_nlinkDec {t : Bool} (ip : Nat) : Stays t (nlinkDec ip) := by
  rw [nlinkDec, addLink]
  exact stays_modifyDi ip _

theorem closes_linkBad (ip : Nat) : Closes (linkBad ip) :=
  Closes.bind (stays_ilock ip) fun _ => Closes.bind (stays_nlinkDec ip) fun _ => Closes.bind (stays_iupdate ip) fun _ =>
    Closes.bind (stays_iunlockput ip) fun _ => Closes.commit (.pure false _)

theorem stays_sysLink (p : Nat) (old new : Option (List UInt8)) : Stays false (sysLink p old new) := by
  rw [sysLink.eq_def]
  split
  · rename_i old new
    refine .bind (stays_namei p old) fun r => ?_
    cases r with
    | none => exact .pure false _
    | some ip =>
      refine stays_begin (Closes.bind (stays_ilock ip) fun _ => Closes.bind (stays_getInode ip) fun i => ?_)
      split
      · exact Closes.bind (stays_iunlockput ip) fun _ => Closes.commit (.pure false _)
      refine Closes.bind (stays_nlinkInc ip) fun _ => Closes.bind (stays_iupdate ip) fun _ =>
        Closes.bind (stays_iunlock ip) fun _ => Closes.bind (stays_namex p new true) fun r => ?_
      cases r with
      | none => exact closes_linkBad ip
      | some r =>
        refine Closes.bind (stays_ilock r.1) fun _ => Closes.bind (stays_getInode ip) fun i =>
          Closes.bind (stays_dirlink r.1 r.2 i.inum) fun b => ?_
        cases b with
        | true =>
          exact Closes.bind (stays_iunlockput r.1) fun _ => Closes.bind (stays_iput ip) fun _ =>
            Closes.commit (.pure false _)
        | false => exact Closes.bind (stays_iunlockput r.1) fun _ => closes_linkBad ip
  · exact .pure false _

theorem stays_isdirempty {t : Bool} (dp : Nat) : Stays t (isdirempty dp) := by
  refine .bind (stays_getInode dp) fun d => ?_
  generalize dirFuel d.di = fuel
  generalize 2 * direntSz = off
  induction fuel generalizing off with
  | zero => exact .pure t _
  | succ fuel ih =>
    refine .bind (stays_getInode dp) fun d => ?_
    split
    · exact .pure t _
    refine .bind (stays_readi dp off _) fun r => ?_
    cases r with
    | none => exact stays_panic (by decide)
    | some b =>
      dsimp only
      split
      · exact stays_panic (by decide)
      split
      · exact .pure t _
      · exact ih _

theorem closes_unlinkBad (dp : Nat) : Closes (unlinkBad dp) :=
  Closes.bind (stays_iunlockput dp) fun _ => Closes.commit (.pure false _)

theorem closes_unlinkEntry (dp ip off : Nat) : Closes (unlinkEntry dp ip off) := by
  refine Closes.bind (stays_writei dp _ off) fun r => ?_
  split
  · exact keeps_panic (by decide)
  have hEnd : Closes (do
      iunlockput dp
      nlinkDec ip
      iupdate ip
      iunlockput ip
      commitTransK
      return 0 : FsM Int) :=
    Closes.bind (stays_iunlockput dp) fun _ => Closes.bind (stays_nlinkDec ip) fun _ =>
      Closes.bind (stays_iupdate ip) fun _ => Closes.bind (stays_iunlockput ip) fun _ =>
        Closes.commit (.pure false _)
  refine Closes.bind (stays_getInode ip) fun i => ?_
  dsimp only
  split
  · exact Closes.bind (stays_nlinkDec dp) fun _ => Closes.bind (stays_iupdate dp) fun _ => hEnd
  · exact hEnd

theorem stays_sysUnlink (p : Nat) (path : Option (List UInt8)) : Stays false (sysUnlink p path) := by
  cases path with
  | none => exact .pure false _
  | some path =>
    refine .bind (stays_namex p path true) fun r => ?_
    cases r with
    | none => exact .pure false _
    | some r =>
      refine stays_begin (Closes.bind (stays_ilock r.1) fun _ => ?_)
      split
      · exact closes_unlinkBad r.1
      refine Closes.bind (stays_dirlookup r.1 r.2) fun q => ?_
      cases q with
      | none => exact closes_unlinkBad r.1
      | some q =>
        refine Closes.bind (stays_ilock q.1) fun _ => Closes.bind (stays_getInode q.1) fun i => ?_
        split
        · exact keeps_panic (by decide)
        split
        · refine Closes.bind (stays_isdirempty q.1) fun b => ?_
          cases b with
          | true => exact closes_unlinkEntry r.1 q.1 q.2
          | false => exact Closes.bind (stays_iunlockput q.1) fun _ => closes_unlinkBad r.1
        · exact closes_unlinkEntry r.1 q.1 q.2

theorem stays_createIn (dp ip : Nat) (name : List UInt8) (type major minor : Nat) :
    Stays true (createIn dp ip name type major minor) := by
  have hEnter : ∀ inum, Stays true (do
      if ← dirlink dp name inum then iunlockput dp else panic .createDirlink : FsM Unit) := fun inum => by
    refine .bind (stays_dirlink dp name inum) fun b => ?_
    cases b with
    | true => exact stays_iunlockput dp
    | false => exact stays_panic (by decide)
  refine .bind (stays_modifyDi ip _) fun _ => .bind (stays_iupdate ip) fun _ => .bind (stays_getInode ip) fun i =>
    .bind (stays_getInode dp) fun d => ?_
  split
  · refine .bind (stays_nlinkInc dp) fun _ => .bind (stays_iupdate dp) fun _ =>
      .bind (stays_dirlink ip dot i.inum) fun b => ?_
    cases b with
    | false => exact stays_panic (by decide)
    | true =>
      refine .bind (stays_dirlink ip dotdot d.inum) fun b => ?_
      cases b with
      | false => exact stays_panic (by decide)
      | true => exact hEnter i.inum
  · exact hEnter i.inum

theorem stays_create (p : Nat) (path : List UInt8) (type major minor : Nat) :
    Stays true (create p path type major minor) := by
  refine .bind (stays_namex p path true) fun r => ?_
  cases r with
  | none => exact .pure true _
  | some r =>
    refine .bind (stays_ilock r.1) fun _ => .bind (stays_dirlookup r.1 r.2) fun q => ?_
    cases q with
    | some q =>
      refine .bind (stays_iunlockput r.1) fun _ => .bind (stays_ilock q.1) fun _ =>
        .bind (stays_getInode q.1) fun i => ?_
      split
      · exact .pure true _
      · exact .bind (stays_iunlockput q.1) fun _ => .pure true _
    | none =>
      exact .bind (stays_ialloc type) fun ip => .bind (stays_ilock ip) fun _ =>
        .bind (stays_createIn r.1 ip r.2 type major minor) fun _ => .pure true _

theorem stays_openFile (p ip omode : Nat) : Stays false (openFile p ip omode) := by
  refine .bind stays_filealloc fun f => ?_
  cases f with
  | none => exact .bind (stays_iunlockput ip) fun _ => .pure false _
  | some f =>
    refine .bind (stays_fdalloc p f) fun fd => ?_
    cases fd with
    | none => exact .bind (stays_fileclose f) fun _ => .bind (stays_iunlockput ip) fun _ => .pure false _
    | some fd => exact .bind (stays_iunlock ip) fun _ => .bind (stays_modifyK fun _ => rfl) fun _ => .pure false _

theorem stays_sysOpen (p : Nat) (path : Option (List UInt8)) (omode : Nat) : Stays false (sysOpen p path omode) := by
  cases path with
  | none => exact .pure false _
  | some path =>
    rw [sysOpen]
    split
    · refine stays_begin (Closes.bind (stays_create p path _ _ _) fun r => Closes.commit ?_)
      cases r with
      | none => exact .pure false _
      | some ip => exact stays_openFile p ip omode
    · refine .bind (stays_namei p path) fun r => ?_
      cases r with
      | none => exact .pure false _
      | some ip =>
        refine .bind (stays_ilock ip) fun _ => .bind (stays_getInode ip) fun i => ?_
        split
        · exact .bind (stays_iunlockput ip) fun _ => .pure false _
        · exact stays_openFile p ip omode

theorem stays_makeNode (p : Nat) (path : Option (List UInt8)) (type major minor : Nat) :
    Stays false (makeNode p path type major minor) := by
  apply stays_begin
  cases path with
  | none => exact Closes.commit (.pure false _)
  | some path =>
    refine Closes.bind (stays_create p path type major minor) fun r => ?_
    cases r with
    | none => exact Closes.commit (.pure false _)
    | some ip => exact Closes.bind (stays_iunlockput ip) fun _ => Closes.commit (.pure false _)

theorem stays_iputCwd {t : Bool} (p : Nat) : Stays t (iputCwd p) := by
  refine .bind (stays_getK _) fun r => ?_
  cases r with
  | none => exact .pure t _
  | some ip => exact stays_iput ip

theorem stays_sysChdir (p : Nat) (path : Option (List UInt8)) : Stays false (sysChdir p path) := by
  cases path with
  | none => exact .pure false _
  | some path =>
    refine .bind (stays_namei p path) fun r => ?_
    cases r with
    | none => exact .pure false _
    | some ip =>
      refine .bind (stays_ilock ip) fun _ => .bind (stays_getInode ip) fun i => ?_
      split
      · exact .bind (stays_iunlockput ip) fun _ => .pure false _
      · exact .bind (stays_iunlock ip) fun _ => .bind (stays_iputCwd p) fun _ =>
          .bind (stays_modifyK fun _ => rfl) fun _ => .pure false _

theorem stays_forkFiles (p np k : Nat) : Stays false (forkFiles p np k) := by
  induction k with
  | zero => exact .pure false _
  | succ k ih =>
    refine .bind (stays_getK _) fun r => ?_
    cases r with
    | none => exact ih
    | some f => exact .bind (stays_filedup f) fun _ => .bind (stays_modifyK fun _ => rfl) fun _ => ih

theorem stays_fork (p : Nat) (np : Option Nat) : Stays false (fork p np) := by
  cases np with
  | none => exact .pure false _
  | some np =>
    exact .bind (stays_forkFiles p np _) fun _ => .bind (stays_idupCwd p) fun _ =>
      .bind (stays_modifyK fun _ => rfl) fun _ => .pure false _

theorem stays_exitFiles (p k : Nat) : Stays false (exitFiles p k) := by
  induction k with
  | zero => exact .pure false _
  | succ k ih =>
    refine .bind (stays_getK _) fun r => ?_
    cases r with
    | none => exact ih
    | some f => exact .bind (stays_fileclose f) fun _ => .bind (stays_modifyK fun _ => rfl) fun _ => ih

theorem stays_exit (p : Nat) : Stays false (exit p) := by
  rw [exit]
  split
  · exact stays_panic (by decide)
  · exact .bind (stays_exitFiles p _) fun _ => .bind (stays_iputCwd p) fun _ =>
      .bind (stays_modifyK fun _ => rfl) fun _ => .pure false _

theorem stays_loadFrom (ip : Nat) (mapped : Nat → Bool) (offset sz fuel i : Nat) :
    Stays false (loadFrom ip mapped offset sz fuel i) := by
  induction fuel generalizing i with
  | zero => exact .pure false _
  | succ fuel ih =>
    rw [loadFrom]
    split
    · exact .pure false _
    split
    · exact stays_panic (by decide)
    refine .bind (stays_readi ip _ _) fun r => ?_
    cases r with
    | none => exact .pure false _
    | some b =>
      dsimp only
      split
      · exact .pure false _
      · exact ih _

theorem stays_loadSegments (ip : Nat) (mem : ExecMem) (k off : Nat) : Stays false (loadSegments ip mem k off) := by
  induction k generalizing off with
  | zero => exact .pure false _
  | succ k ih =>
    refine .bind (stays_readi ip off _) fun r => ?_
    cases r with
    | none => exact .pure false _
    | some ph =>
      dsimp only
      split
      · exact .pure false _
      split
      · exact ih _
      split
      · exact .pure false _
      split
      · exact stays_panic (by decide)
      refine .bind (stays_loadFrom ip _ _ _ _ _) fun b => ?_
      cases b with
      | true => exact ih _
      | false => exact .pure false _

theorem stays_exec (p : Nat) (path : Option (List UInt8)) (mem : ExecMem) : Stays false (exec p path mem) := by
  cases path with
  | none => exact .pure false _
  | some path =>
    refine .bind (stays_namei p path) fun r => ?_
    cases r with
    | none => exact .pure false _
    | some ip =>
      refine .bind (stays_ilock ip) fun _ => .bind (.bind (stays_readi ip _ _) fun r => ?_) fun _ =>
        .bind (stays_iunlockput ip) fun _ => .pure false _
      dsimp only
      split
      · exact .pure false _
      · exact stays_loadSegments ip mem _ _

theorem stays_call (p : Nat) (c : Call) : Stays false (c.prog p) := by
  cases c with
  | dup fd => exact stays_sysDup p fd
  | read fd n => exact stays_sysRead p fd n
  | write fd src => exact stays_sysWrite p fd src
  | close fd => exact stays_sysClose p fd
  | link old new => exact stays_sysLink p old new
  | unlink path => exact stays_sysUnlink p path
  | «open» path omode => exact stays_sysOpen p path omode
  | mkdir path => exact stays_makeNode p path _ _ _
  | mknod path major minor => exact stays_makeNode p path _ _ _
  | chdir path => exact stays_sysChdir p path
  | exec path mem => exact stays_exec p path mem
  | fork np => exact stays_fork p np
  | exit => exact stays_exit p

end Calls

section Pool

abbrev System := Pool Kern Stop Label

/-- A call whose result goes back to user mode. -/
def Call.start (p : Nat) (call : Call) : FsM Unit := do
  let _ ← call.prog p
  return ()

def BeginsCall (_ : System) (p : Nat) (x : FsM Unit) : Prop := ∃ call : Call, x = call.start p

structure Idle (c : System) : Prop where
  busy : c.state.log.busy = false
  done : ∀ p, c.prog p = .pure ()
  out : ∀ p, c.inside p = false

theorem Idle.inv {c : System} (h : Idle c) : Pool.Inv transactions c where
  keeps p := by
    rw [h.done p, h.out p]
    rfl
  one p q hp := by
    rw [h.out p] at hp
    cases hp
  flag p hp := by
    rw [h.out p] at hp
    cases hp

theorem keeps_begins {c : System} {p : Nat} {x : FsM Unit} (h : BeginsCall c p x) :
    transactions.Keeps x false fun _ t => t = false := by
  obtain ⟨call, rfl⟩ := h
  exact Discipline.Stays.bind (stays_call p call) fun _ => .pure false ()

variable {c c' : System} {p : Nat} {β : Type} {l : Label} {f : Kern → Except Stop (β × Kern)}
  {k : β → FsM Unit}

/-- In every interleaving of system calls in which no process outside a transaction gets
to free an inode in `iput` or to allocate a block in `bmap`, a process that writes a block
is in its own transaction, no other process is in one, and the panic for a write outside
of a transaction does not come up. -/
theorem writes_in_own_transaction (h : Idle c)
    (hRun : Relation.ReflTransGen (Pool.Step transactions BeginsCall) c c') (hNext : c'.prog p = .act l f k) :
    (l = .logWrite → c'.inside p = true ∧ ∀ q, c'.inside q = true → q = p) ∧
      f c'.state ≠ .error (.panic .outsideTrans) := by
  have hInv : Pool.Inv transactions c' := h.inv.run (fun _ _ _ => keeps_begins) hRun
  refine ⟨?_, fun hStop => hInv.not_bad hNext hStop rfl⟩
  rintro rfl
  have hp : c'.inside p = true := hInv.inside_of_act hNext rfl
  exact ⟨hp, fun q hq => hInv.one q p hq hp⟩

end Pool

section Example

def runCalls : List (Nat × Call) → FsM (List Int)
  | [] => do return []
  | c :: cs => do
    let r ← c.2.prog c.1
    let rs ← runCalls cs
    return r :: rs

/-- Transactions without the restriction on `iput` and `bmap`. -/
def anyTime : Discipline Kern Stop Label := { transactions with may := fun _ _ => True }

theorem reach_of_runCalls (cs : List (Nat × Call)) {c : System} {e : Stop} (hDone : ∀ p, c.prog p = .pure ())
    (hRun : (runCalls cs).run c.state = .error e) :
    ∃ c', Relation.ReflTransGen (Pool.Step anyTime BeginsCall) c c' ∧
      ∃ (p : Nat) (β : Type) (l : Label) (f : Kern → Except Stop (β × Kern)) (k : β → FsM Unit),
        c'.prog p = .act l f k ∧ f c'.state = .error e := by
  induction cs generalizing c with
  | nil => cases hRun
  | cons d cs ih =>
    have hStart : Pool.Step anyTime BeginsCall c
        { c with prog := Function.update c.prog d.1 (d.2.start d.1) } :=
      .start c d.1 _ (hDone d.1) ⟨d.2, rfl⟩
    have hHere : (Function.update c.prog d.1 (d.2.start d.1)) d.1 = d.2.start d.1 := Function.update_self ..
    rw [runCalls, Prog.run_bind] at hRun
    cases hCall : (d.2.prog d.1).run c.state with
    | error e' =>
      rw [hCall] at hRun
      obtain rfl : e' = e := Except.error.inj hRun
      have hStop : (d.2.start d.1).run c.state = .error e' := by
        rw [Call.start, Prog.run_bind, hCall]
      obtain ⟨c', hReach, hNext⟩ := Pool.stop_of_run (D := anyTime) BeginsCall (p := d.1)
        (c := { c with prog := Function.update c.prog d.1 (d.2.start d.1) }) (fun _ _ => trivial) hHere hStop
      exact ⟨c', .head hStart hReach, d.1, hNext⟩
    | ok r =>
      have hOk : (d.2.start d.1).run c.state = .ok ((), r.2) := by
        rw [Call.start, Prog.run_bind, hCall]
        rfl
      obtain ⟨c₁, hReach, hState, hProg⟩ := Pool.run_of_run (D := anyTime) BeginsCall (p := d.1)
        (c := { c with prog := Function.update c.prog d.1 (d.2.start d.1) }) (fun _ _ => trivial) hHere hOk
      have hDone₁ : ∀ p, c₁.prog p = .pure () := by
        intro p
        rw [hProg]
        dsimp only
        by_cases hp : p = d.1
        · rw [hp, Function.update_self]
        · rw [Function.update_of_ne hp, Function.update_of_ne hp, hDone p]
      have hRest : (runCalls cs).run c₁.state = .error e := by
        rw [hCall] at hRun
        dsimp only at hRun
        rw [Prog.run_bind] at hRun
        rw [hState]
        revert hRun
        cases (runCalls cs).run r.2 with
        | error e' => exact id
        | ok rs =>
          intro hRun
          cases hRun
      obtain ⟨c', hReach', hNext⟩ := ih hDone₁ hRest
      exact ⟨c', .head hStart (hReach.trans hReach'), hNext⟩

def dirBlock (es : List (Nat × List UInt8)) : Block :=
  fun j => (es.flatMap fun e => encodeDirent e.1 e.2).getD j 0

def nameD : List UInt8 := [100]

/-- A disk with an empty directory `d` in the root directory. -/
def emptyDirImage : Disk
  | 1 => setWord (setWord (setWord (setWord zeroBlock 0 35) 4 20) 8 8) 12 10
  | 2 => encodeDinode (encodeDinode zeroBlock 1 ⟨tDir, 0, 0, 2, 512, fun i => if i = 0 then 5 else 0⟩)
      2 ⟨tDir, 0, 0, 1, 32, fun i => if i = 0 then 6 else 0⟩
  | 4 => Function.update zeroBlock 0 0x7F
  | 5 => dirBlock [(1, dot), (1, dotdot), (2, nameD)]
  | 6 => dirBlock [(2, dot), (1, dotdot)]
  | _ => zeroBlock

/-- Two processes in the root directory of that disk. -/
def emptyDir : Kern where
  disk := emptyDirImage
  held _ := false
  log := ⟨25, 10, false, 0, fun _ => 0⟩
  inode ip := if ip = 0 then ⟨1, 2, false, false, Dinode.zero⟩ else ⟨0, 0, false, false, Dinode.zero⟩
  file _ := ⟨.none, 0, false, false, 0, 0⟩
  proc p := if p < 2 then ⟨fun _ => none, some 0⟩ else ⟨fun _ => none, none⟩
  devsw _ := none

def emptyDirSystem : System := ⟨emptyDir, fun _ => .pure (), fun _ => false⟩

theorem emptyDirSystem_idle : Idle emptyDirSystem := ⟨rfl, fun _ => rfl, fun _ => rfl⟩

instance (l : Label) (s : Kern) : Decidable (transactions.may l s) := inferInstanceAs (Decidable (WritesNothing l s))

def twoCalls : System :=
  { emptyDirSystem with
    prog := Function.update (Function.update emptyDirSystem.prog 0 (Call.start 0 (.open (some nameD) 0))) 1
      (Call.start 1 (.mkdir (some [101]))) }

theorem begins_twoCalls : Relation.ReflTransGen (Pool.Step transactions BeginsCall) emptyDirSystem twoCalls :=
  .tail (.single (.start emptyDirSystem 0 _ rfl ⟨.open (some nameD) 0, rfl⟩))
    (.start _ 1 _ rfl ⟨.mkdir (some [101]), rfl⟩)

/-- The `mkdir` of one of them comes to the second block that it writes. -/
theorem writes_in_own_transaction_mkdir :
    ∃ (c' : System) (β : Type) (f : Kern → Except Stop (β × Kern)) (k : β → FsM Unit),
      Relation.ReflTransGen (Pool.Step transactions BeginsCall) emptyDirSystem c' ∧ c'.prog 1 = .act .logWrite f k ∧
        c'.inside 1 = true ∧ (∀ q, c'.inside q = true → q = 1) ∧ f c'.state ≠ .error (.panic .outsideTrans) := by
  have hResult : (Pool.advance transactions 1 195 twoCalls).map (fun c => (c.prog 1).label) = some (some .logWrite) := by
    decide +kernel
  obtain ⟨c', hAdvance, hLabel⟩ := Option.map_eq_some_iff.mp hResult
  have hReach := begins_twoCalls.trans (Pool.run_of_advance BeginsCall hAdvance)
  cases hNext : c'.prog 1 with
  | pure a =>
    rw [hNext] at hLabel
    cases hLabel
  | act l f k =>
    rw [hNext] at hLabel
    obtain rfl : l = .logWrite := Option.some.inj hLabel
    obtain ⟨hWrite, hStop⟩ := writes_in_own_transaction emptyDirSystem_idle hReach hNext
    exact ⟨c', _, f, k, hReach, hNext, (hWrite rfl).1, (hWrite rfl).2, hStop⟩

/-- A process goes into a directory, removes it, and goes back: `chdir` drops the last
reference to the directory and frees it, but `chdir` does not begin a transaction. -/
theorem chdir_frees_outside : Idle emptyDirSystem ∧
    ∃ c', Relation.ReflTransGen (Pool.Step anyTime BeginsCall) emptyDirSystem c' ∧
      ∃ (p : Nat) (β : Type) (l : Label) (f : Kern → Except Stop (β × Kern)) (k : β → FsM Unit),
        c'.prog p = .act l f k ∧ f c'.state = .error (.panic .outsideTrans) := by
  refine ⟨emptyDirSystem_idle, reach_of_runCalls [(1, .chdir (some nameD)),
    (1, .unlink (some (slash :: nameD))), (1, .chdir (some [slash]))] (fun _ => rfl) ?_⟩
  rw [← errorOf_eq_some]
  decide +kernel

end Example

end Xv6Rpi.Fs
