import Xv6Rpi.Syscall.Args
import Xv6Rpi.Syscall.Cpuutil

/-! # The tables that a system call indexes

Beside its result every function returns the elements of `syscalls[]`, `ofile[]`, `devsw[]` and `cpus[]`
that it takes. Two places go beyond their table: `syscall` admits the number of the table's elements
as a call number, and `cpuutil` looks at a CPU without a check of its number, or behind the last one.
-/

namespace Xv6Rpi.Syscall

open Fs (nofile ndev tDev)

inductive Table where
  | syscalls | ofile | devsw | cpus
  deriving DecidableEq

def nsyscalls : Nat := 23

def Table.size : Table → Nat
  | .syscalls => nsyscalls
  | .ofile => nofile
  | .devsw => ndev
  | .cpus => ncpu

structure Access where
  table : Table
  idx : Int

def Access.Inside (a : Access) : Prop := 0 ≤ a.idx ∧ a.idx < a.table.size

def getCpunum (mpidr : Word) : Word := mpidr &&& 0xFF#32

/-- What a call finds that neither its caller nor what `Env` has decides. -/
structure Around extends Env where
  /-- What the multiprocessor affinity register holds at each use of `curr_proc` and `curr_cpu` on the
  path, those in the locks included. The cores of the machine are numbered from 0. -/
  mpidr : List Word
  core_lt : ∀ v ∈ mpidr, (getCpunum v).toNat < ncpu
  /-- The inodes that the lookup of a path, `dirlink`, `isdirempty` and `exec` give to `readi` or `writei`. -/
  inodes : List Inode
  /-- Whether `allocproc` and `copyuvm` succeed in `fork`. -/
  forks : Bool
  /-- Whether the caller is `initproc`. -/
  isInit : Bool
  /-- Whether `sys_open` finds an inode it may open, and whether `filealloc` finds a file for it. -/
  opens : Bool
  files : Bool
  /-- Whether `pipealloc` finds two files and a page. -/
  pipeFiles : Bool
  /-- The words `cpus[i].enabled`. -/
  cpus : Enabled

def currProc (e : Around) : List Access := e.mpidr.map fun v => ⟨.cpus, (getCpunum v).toInt⟩

/-! ## sysfile.c -/

/-- The loop of `fdalloc`, with so many descriptors left: it tests an element and fills the first free one. -/
def fdallocFrom (ofile : Nat → Option File) : Nat → Option Nat × List Access
  | 0 => (none, [])
  | left + 1 =>
    let fd := nofile - (left + 1)
    if (ofile fd).isNone then (some fd, [⟨.ofile, fd⟩, ⟨.ofile, fd⟩])
    else ((fdallocFrom ofile left).1, ⟨.ofile, fd⟩ :: (fdallocFrom ofile left).2)

def fdalloc (ofile : Nat → Option File) : Option Nat × List Access := fdallocFrom ofile nofile

/-- `argfd`: the file, the descriptor and the element it is found in. -/
def fdArg (u : Caller) (n : Fin 4) : Option (Int × File) × List Access :=
  let fd := (argint u n).toInt
  if fd < 0 ∨ fd ≥ nofile then (none, [])
  else ((u.ofile fd.toNat).map fun f => (fd, f), [⟨.ofile, fd⟩])

/-- The head of `readi` and `writei`; the element is looked at before its function is called. -/
def devAccess (ip : Inode) : List Access :=
  if ip.type = tDev then
    if ip.major.toInt < 0 ∨ ip.major.toInt ≥ ndev then []
    else if ip.major.toInt = console then [⟨.devsw, ip.major.toInt⟩, ⟨.devsw, ip.major.toInt⟩]
    else [⟨.devsw, ip.major.toInt⟩]
  else []

def onInode (f : File) (k : Inode → List Access) : List Access :=
  match f.type with
  | .inode ip => k ip
  | _ => []

def filereadTables (f : File) : List Access := if f.readable = false then [] else onInode f devAccess

/-- The loop of `filewrite` from its `k`-th part on, with `n` bytes left. -/
def filewriteTables (e : Env) (ip : Inode) (addr : Word) (k n : Nat) : List Access :=
  if n = 0 then []
  else
    let n1 := min n maxWrite
    match (writei ip addr (e.off k) (e.size k) (BitVec.ofNat 32 n1)).1 with
    | none => devAccess ip
    | some _ => devAccess ip ++ filewriteTables e ip (addr + BitVec.ofNat 32 n1) (k + 1) (n - n1)
  termination_by n
  decreasing_by
    have : 0 < maxWrite := by decide
    omega

/-- What the lookups and directory updates on the path take of `devsw`. -/
def lookups (e : Around) : List Access := e.inodes.flatMap devAccess

def dupTables (u : Caller) : List Access :=
  match (fdArg u 0).1 with
  | none => (fdArg u 0).2
  | some _ => (fdArg u 0).2 ++ (fdalloc u.ofile).2

def readTables (u : Caller) : List Access :=
  match (fdArg u 0).1, argptr u 1 (argint u 2) with
  | some (_, f), some _ => (fdArg u 0).2 ++ filereadTables f
  | _, _ => (fdArg u 0).2

def writeTables (u : Caller) (e : Around) : List Access :=
  match (fdArg u 0).1, argptr u 1 (argint u 2) with
  | some (_, f), some p =>
    (fdArg u 0).2 ++ if f.writable = false then [] else onInode f fun ip => filewriteTables e.toEnv ip p 0 (argint u 2).toInt.toNat
  | _, _ => (fdArg u 0).2

def closeTables (u : Caller) : List Access :=
  match (fdArg u 0).1 with
  | none => (fdArg u 0).2
  | some (fd, _) => (fdArg u 0).2 ++ [⟨.ofile, fd⟩]

def fstatTables (u : Caller) : List Access := (fdArg u 0).2

def openTables (u : Caller) (e : Around) : List Access :=
  if (argstr u 0).1.isNone then []
  else lookups e ++ if e.opens ∧ e.files then (fdalloc u.ofile).2 else []

/-- The files of a pipe take two descriptors; the first is given back when there is no second. -/
def pipeTables (u : Caller) (e : Around) (rf : File) : List Access :=
  if (argptr u 0 8).isNone ∨ e.pipeFiles = false then []
  else
    match (fdalloc u.ofile).1 with
    | none => (fdalloc u.ofile).2
    | some fd0 =>
      let second := fdalloc (Function.update u.ofile fd0 (some rf))
      (fdalloc u.ofile).2 ++ second.2 ++ if second.1.isNone then [⟨.ofile, fd0⟩] else []

def execTables (u : Caller) (e : Around) : List Access :=
  if (argstr u 0).1.isNone ∨ (argvFrom u (argint u 1) maxarg).1.isNone then [] else lookups e

/-- `chdir`, `mkdir`, `mknod` and `unlink` look their path up. -/
def pathTables (u : Caller) (e : Around) : List Access := if (argstr u 0).1.isNone then [] else lookups e

def linkTables (u : Caller) (e : Around) : List Access :=
  if (argstr u 0).1.isNone ∨ (argstr u 1).1.isNone then [] else lookups e

/-! ## proc.c and sysproc.c -/

/-- The loops of `fork` and `exit` over the files test an element and take two more if it has a file:
`fork` to copy the parent's to the child's, `exit` to close and to clear it. -/
def eachFile (u : Caller) : List Access := (List.range nofile).flatMap fun (fd : Nat) =>
  ⟨.ofile, fd⟩ :: if (u.ofile fd).isSome then [⟨.ofile, fd⟩, ⟨.ofile, fd⟩] else []

def forkTables (u : Caller) (e : Around) : List Access := if e.forks = false then [] else eachFile u

/-- `panic("init exiting")` comes first. -/
def exitTables (u : Caller) (e : Around) : List Access := if e.isInit then [] else eachFile u

def cpuutilTables (u : Caller) (e : Around) : List Access :=
  (cpuutil e.cpus (argint u 0) (argint u 1) (argint u 2)).used.map fun i => ⟨.cpus, i⟩

/-! ## syscall.c -/

inductive Handler where
  | fork | exit | wait | pipe | read | kill | exec | fstat | chdir | dup | getpid | sbrk | sleep | uptime
  | open | write | mknod | unlink | link | mkdir | close | cpuutil
  deriving DecidableEq

def syscalls : List (Option Handler) :=
  [none, some .fork, some .exit, some .wait, some .pipe, some .read, some .kill, some .exec, some .fstat,
    some .chdir, some .dup, some .getpid, some .sbrk, some .sleep, some .uptime, some .open, some .write,
    some .mknod, some .unlink, some .link, some .mkdir, some .close, some .cpuutil]

def pipeEnd : File := ⟨.pipe, true, false⟩

def Handler.tables (u : Caller) (e : Around) : Handler → List Access
  | .fork => forkTables u e
  | .exit => exitTables u e
  | .pipe => pipeTables u e pipeEnd
  | .read => readTables u
  | .exec => execTables u e
  | .fstat => fstatTables u
  | .chdir => pathTables u e
  | .dup => dupTables u
  | .open => openTables u e
  | .write => writeTables u e
  | .mknod => pathTables u e
  | .unlink => pathTables u e
  | .link => linkTables u e
  | .mkdir => pathTables u e
  | .close => closeTables u
  | .cpuutil => cpuutilTables u e
  | .wait | .kill | .getpid | .sbrk | .sleep | .uptime => []

/-- The elements that `syscall` takes on the path of a call, those of the macros `curr_proc` and
`curr_cpu` first. The element behind the table may be anything; if it is not zero it is taken again
and called, and nothing is known of what that does. -/
def syscall (u : Caller) (r0 : Word) (e : Around) : List Access :=
  currProc e ++
    if 0 < r0.toInt ∧ r0.toInt ≤ nsyscalls then
      match syscalls[r0.toInt.toNat]? with
      | none => [⟨.syscalls, r0.toInt⟩]
      | some none => [⟨.syscalls, r0.toInt⟩]
      | some (some h) => [⟨.syscalls, r0.toInt⟩, ⟨.syscalls, r0.toInt⟩] ++ h.tables u e
    else []

/-! ## What stays inside -/

def Safe (l : List Access) : Prop := ∀ a ∈ l, a.Inside

section Safe

variable {l l' : List Access} {u : Caller} {e : Around}

theorem Safe.nil : Safe [] := fun _ h => by cases h

theorem safe_cons {a : Access} : Safe (a :: l) ↔ a.Inside ∧ Safe l := List.forall_mem_cons

theorem safe_append : Safe (l ++ l') ↔ Safe l ∧ Safe l' := List.forall_mem_append

theorem Safe.append (h : Safe l) (h' : Safe l') : Safe (l ++ l') := safe_append.mpr ⟨h, h'⟩

theorem Safe.single {a : Access} (h : a.Inside) : Safe [a] := safe_cons.mpr ⟨h, Safe.nil⟩

theorem Safe.twice {a : Access} (h : a.Inside) : Safe [a, a] := safe_cons.mpr ⟨h, Safe.single h⟩

theorem Safe.flatMap {α : Type} {xs : List α} {f : α → List Access} (h : ∀ x ∈ xs, Safe (f x)) : Safe (xs.flatMap f) := by
  intro a ha
  obtain ⟨x, hx, ha⟩ := List.mem_flatMap.mp ha
  exact h x hx a ha

theorem currProc_safe : Safe (currProc e) := by
  intro a ha
  obtain ⟨v, hv, rfl⟩ := List.mem_map.mp ha
  have hLt := e.core_lt v hv
  have hInt : (getCpunum v).toInt = (getCpunum v).toNat := by
    rw [BitVec.toInt_eq_toNat_cond, if_pos (by simp only [ncpu] at hLt; omega)]
  refine ⟨?_, ?_⟩
  · dsimp only
    omega
  · dsimp only [Table.size]
    omega

theorem fdalloc_safe (ofile : Nat → Option File) : Safe (fdalloc ofile).2 := by
  have hFrom (left : Nat) (hLeft : left ≤ nofile) : Safe (fdallocFrom ofile left).2 := by
    induction left with
    | zero => exact Safe.nil
    | succ left ih =>
      have hIn : Access.Inside ⟨.ofile, (nofile - (left + 1) : Nat)⟩ := by
        refine ⟨Int.natCast_nonneg _, ?_⟩
        dsimp only [Table.size]
        omega
      rw [fdallocFrom]
      split
      · exact Safe.twice hIn
      · exact safe_cons.mpr ⟨hIn, ih (by omega)⟩
  exact hFrom nofile le_rfl

theorem fdalloc_lt {ofile : Nat → Option File} {fd : Nat} (h : (fdalloc ofile).1 = some fd) : fd < nofile := by
  have hFrom (left : Nat) (hLeft : left ≤ nofile) (hFd : (fdallocFrom ofile left).1 = some fd) : fd < nofile := by
    induction left with
    | zero => cases hFd
    | succ left ih =>
      rw [fdallocFrom] at hFd
      split at hFd
      · obtain rfl := Option.some.inj hFd
        omega
      · exact ih (by omega) hFd
  exact hFrom nofile le_rfl h

theorem fdArg_safe (n : Fin 4) : Safe (fdArg u n).2 := by
  rw [fdArg]
  split
  · exact Safe.nil
  · apply Safe.single
    refine ⟨by dsimp only; omega, ?_⟩
    dsimp only [Table.size]
    omega

theorem fdArg_inside {n : Fin 4} {fd : Int} {f : File} (h : (fdArg u n).1 = some (fd, f)) : Access.Inside ⟨.ofile, fd⟩ := by
  have hSafe := fdArg_safe (u := u) n
  rw [fdArg] at h hSafe
  split at h
  · cases h
  · rename_i hIn
    rw [if_neg hIn] at hSafe
    obtain ⟨_, _, hEq⟩ := Option.map_eq_some_iff.mp h
    obtain rfl := (Prod.mk.inj hEq).1
    exact hSafe _ (List.mem_singleton_self _)

theorem devAccess_safe (ip : Inode) : Safe (devAccess ip) := by
  rw [devAccess]
  split
  · split
    · exact Safe.nil
    · have hIn : Access.Inside ⟨.devsw, ip.major.toInt⟩ := by
        refine ⟨by dsimp only; omega, ?_⟩
        dsimp only [Table.size]
        omega
      split
      · exact Safe.twice hIn
      · exact Safe.single hIn
  · exact Safe.nil

theorem onInode_safe {f : File} {k : Inode → List Access} (h : ∀ ip, Safe (k ip)) : Safe (onInode f k) := by
  rw [onInode]
  split
  · exact h _
  · exact Safe.nil

theorem filewriteTables_safe (e : Env) (ip : Inode) (addr : Word) (k n : Nat) : Safe (filewriteTables e ip addr k n) := by
  induction n using Nat.strongRecOn generalizing addr k with
  | ind n ih =>
    rw [filewriteTables]
    split
    · exact Safe.nil
    · have hPos : 0 < maxWrite := by decide
      dsimp only
      split
      · exact devAccess_safe ip
      · exact (devAccess_safe ip).append (ih _ (by omega) _ _)

theorem lookups_safe : Safe (lookups e) := Safe.flatMap fun ip _ => devAccess_safe ip

theorem eachFile_safe : Safe (eachFile u) := by
  apply Safe.flatMap
  intro fd hFd
  have hIn : Access.Inside ⟨.ofile, fd⟩ := ⟨Int.natCast_nonneg _, Int.ofNat_lt.mpr (List.mem_range.mp hFd)⟩
  refine safe_cons.mpr ⟨hIn, ?_⟩
  split
  · exact Safe.twice hIn
  · exact Safe.nil

theorem pipeTables_safe (rf : File) : Safe (pipeTables u e rf) := by
  rw [pipeTables]
  split
  · exact Safe.nil
  · split
    · exact fdalloc_safe _
    · rename_i fd0 hFd
      refine ((fdalloc_safe _).append (fdalloc_safe _)).append ?_
      split
      · exact Safe.single ⟨Int.natCast_nonneg _, Int.ofNat_lt.mpr (fdalloc_lt hFd)⟩
      · exact Safe.nil

theorem ite_safe {c : Prop} [Decidable c] (h : Safe l) (h' : Safe l') : Safe (if c then l else l') := by
  split
  · exact h
  · exact h'

/-- No handler but `sys_cpuutil` leaves a table. -/
theorem Handler.tables_safe {h : Handler} (hNe : h ≠ .cpuutil) : Safe (h.tables u e) := by
  cases h with
  | cpuutil => exact absurd rfl hNe
  | fork => exact ite_safe Safe.nil eachFile_safe
  | exit => exact ite_safe Safe.nil eachFile_safe
  | pipe => exact pipeTables_safe pipeEnd
  | read =>
    simp only [Handler.tables, readTables]
    split
    · exact (fdArg_safe 0).append (ite_safe Safe.nil (onInode_safe devAccess_safe))
    · exact fdArg_safe 0
  | write =>
    simp only [Handler.tables, writeTables]
    split
    · exact (fdArg_safe 0).append (ite_safe Safe.nil (onInode_safe fun ip => filewriteTables_safe _ ip _ _ _))
    · exact fdArg_safe 0
  | dup =>
    simp only [Handler.tables, dupTables]
    split
    · exact fdArg_safe 0
    · exact (fdArg_safe 0).append (fdalloc_safe _)
  | close =>
    simp only [Handler.tables, closeTables]
    split
    · exact fdArg_safe 0
    · rename_i hFd
      exact (fdArg_safe 0).append (Safe.single (fdArg_inside hFd))
  | fstat => exact fdArg_safe 0
  | «open» => exact ite_safe Safe.nil (lookups_safe.append (ite_safe (fdalloc_safe _) Safe.nil))
  | exec => exact ite_safe Safe.nil lookups_safe
  | chdir => exact ite_safe Safe.nil lookups_safe
  | mknod => exact ite_safe Safe.nil lookups_safe
  | unlink => exact ite_safe Safe.nil lookups_safe
  | mkdir => exact ite_safe Safe.nil lookups_safe
  | link => exact ite_safe Safe.nil lookups_safe
  | wait => exact Safe.nil
  | kill => exact Safe.nil
  | getpid => exact Safe.nil
  | sbrk => exact Safe.nil
  | sleep => exact Safe.nil
  | uptime => exact Safe.nil

end Safe

section Cpuutil

variable {cpus : Enabled} {cpunum mode enabled : Word}

/-- The arguments with which `cpuutil` leaves the table: any query of a CPU that is not there, and
any request to switch off one that is. -/
def UtilBad (cpunum mode enabled : Word) : Prop :=
  mode = 0 ∧ ¬IsCpu cpunum.toInt ∨ mode = 1 ∧ IsCpu cpunum.toInt ∧ enabled = 0

instance : Decidable (UtilBad cpunum mode enabled) := inferInstanceAs (Decidable (_ ∨ _))

theorem setEnabled_used (used : List Int) : ∀ i ∈ (setEnabled cpus cpunum enabled used).used, i ∈ used ∨ i = cpunum.toInt := by
  intro i hi
  rw [setEnabled] at hi
  split at hi
  · exact Or.inl hi
  · exact (List.mem_append.mp hi).imp id List.mem_singleton.mp

theorem cpuutil_used : (∀ i ∈ (cpuutil cpus cpunum mode enabled).used, IsCpu i) ↔ ¬UtilBad cpunum mode enabled := by
  rw [cpuutil, UtilBad]
  split
  · rename_i hMode
    have hOne : mode ≠ 1 := by
      rw [hMode]
      decide
    simp only [List.mem_singleton, forall_eq]
    tauto
  · rename_i hMode
    split
    · rename_i hOne
      split
      · rename_i hOut
        have hNot : ¬IsCpu cpunum.toInt := by
          rintro ⟨h1, h2⟩
          omega
        refine iff_of_true (fun i hi => by cases hi) ?_
        tauto
      · rename_i hIn
        have hCpu : IsCpu cpunum.toInt := ⟨by omega, by omega⟩
        split
        · rename_i hOff
          refine iff_of_false ?_ (not_not_intro (Or.inr ⟨hOne, hCpu, hOff⟩))
          -- the loop always takes the element behind the table
          intro h
          have hBehind : (ncpu : Int) ∈ (othersOn cpus cpunum.toInt ncpu).2 := by
            rw [othersOn_eq hCpu]
            exact List.mem_cons_self
          have hNot : ¬IsCpu ncpu := by decide
          apply hNot
          dsimp only at h
          split at h
          · exact h _ hBehind
          · apply h
            rw [setEnabled]
            split
            · exact hBehind
            · exact List.mem_append_left _ hBehind
        · rename_i hOn
          refine iff_of_true ?_ (by tauto)
          intro i hi
          rcases setEnabled_used [] i hi with hNil | rfl
          · cases hNil
          · exact hCpu
    · exact iff_of_true (fun i hi => by cases hi) (by tauto)

end Cpuutil

def TablesLeft (u : Caller) (r0 : Word) : Prop :=
  r0.toInt = nsyscalls ∨ r0 = 22 ∧ UtilBad (argint u 0) (argint u 1) (argint u 2)

theorem entry_of_lt {n : Nat} (hPos : 0 < n) (hLt : n < nsyscalls) :
    syscalls[n]?.join.isSome ∧ (syscalls[n]?.join = some .cpuutil ↔ n = 22) := by
  have hAll : ∀ n < nsyscalls, 0 < n → syscalls[n]?.join.isSome ∧ (syscalls[n]?.join = some .cpuutil ↔ n = 22) := by decide
  exact hAll n hLt hPos

theorem cpuutilTables_safe {u : Caller} {e : Around} :
    Safe (Handler.tables u e .cpuutil) ↔ ¬UtilBad (argint u 0) (argint u 1) (argint u 2) := by
  rw [← @cpuutil_used e.cpus]
  exact List.forall_mem_map

/-- Whatever the registers hold and whatever the call finds, `syscall` and its handler stay inside the
four tables unless the call number is the number of the table's elements, or `cpuutil` is asked for a
CPU that is not there or to switch off one that is. -/
theorem tables_kept_iff (u : Caller) (r0 : Word) (e : Around) : Safe (syscall u r0 e) ↔ ¬TablesLeft u r0 := by
  rw [syscall, safe_append, and_iff_right currProc_safe]
  split
  · rename_i hNum
    obtain ⟨hLow, hHigh⟩ := hNum
    have hEntry := entry_of_lt (n := r0.toInt.toNat)
    split
    · rename_i hNone
      -- the number of the elements is admitted, and no element has it
      have hBehind : r0.toInt = nsyscalls := by
        rw [List.getElem?_eq_none_iff] at hNone
        have : syscalls.length = nsyscalls := rfl
        omega
      refine iff_of_false ?_ (not_not_intro (Or.inl hBehind))
      intro h
      have hLt := (safe_cons.mp h).1.2
      dsimp only [Table.size] at hLt
      omega
    · rename_i hZero
      have hLt := (List.getElem?_eq_some_iff.mp hZero).1
      have hSome := (hEntry (by omega) hLt).1
      rw [hZero] at hSome
      cases hSome
    · rename_i h hGet
      have hLt : r0.toInt.toNat < nsyscalls := (List.getElem?_eq_some_iff.mp hGet).1
      have hIn : Access.Inside ⟨.syscalls, r0.toInt⟩ := by
        refine ⟨by dsimp only; omega, ?_⟩
        dsimp only [Table.size]
        omega
      have hUtil : h = .cpuutil ↔ r0 = 22 := by
        have hLast := (hEntry (by omega) hLt).2
        rw [hGet, Option.join_some, Option.some.injEq] at hLast
        rw [hLast, ← BitVec.toInt_inj, show (22 : Word).toInt = 22 by decide]
        omega
      rw [safe_append, and_iff_right (Safe.twice hIn), TablesLeft, or_iff_right (by omega)]
      by_cases hEq : h = .cpuutil
      · rw [and_iff_right (hUtil.mp hEq), hEq]
        exact cpuutilTables_safe
      · rw [hUtil] at hEq
        exact iff_of_true (Handler.tables_safe (mt hUtil.mp hEq)) fun hBad => hEq hBad.1
  · rename_i hNum
    refine iff_of_true Safe.nil ?_
    rintro (hBehind | ⟨rfl, -⟩)
    · rw [hBehind] at hNum
      exact hNum ⟨by decide, le_rfl⟩
    · exact hNum (by decide)

/-- A call that the tables are left for, with nothing open and one core. -/
def idleCaller (r1 r2 : Word) : Caller := ⟨0, by decide, fun n => if n = 0 then r1 else r2, fun _ => 0, fun _ => none⟩

def quietAround : Around where
  off _ := 0
  size _ := 0
  piped := none
  room := 0
  typed := []
  pipes := false
  elems := 0
  image := none
  page _ := false
  mpidr := [0x80000F00#32]
  core_lt := by
    intro v hv
    rw [List.mem_singleton.mp hv]
    decide
  inodes := []
  forks := false
  isInit := false
  opens := false
  files := false
  pipeFiles := false
  cpus := bootCpus

/-- Call 23 takes `syscalls[23]`, and a query of CPU -1 takes `cpus[-1]`. -/
theorem tables_left : ¬Safe (syscall (idleCaller 0 0) 23 quietAround) ∧ ¬Safe (syscall (idleCaller (-1) 0) 22 quietAround) := by
  constructor
  · intro h
    have hLt := (h ⟨.syscalls, 23⟩ (List.mem_append_right _ (List.mem_singleton_self _))).2
    exact absurd hLt (by decide)
  · intro h
    have hUsed : (⟨.cpus, -1⟩ : Access) ∈ cpuutilTables (idleCaller (-1) 0) quietAround := List.mem_singleton_self _
    have hLe := (h ⟨.cpus, -1⟩ (List.mem_append_right _ (List.mem_append_right _ hUsed))).1
    exact absurd hLe (by decide)

end Xv6Rpi.Syscall
