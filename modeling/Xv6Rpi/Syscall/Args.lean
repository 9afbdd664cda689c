import Xv6Rpi.Fs.Kern

/-! # What a system call touches of its caller's memory

The argument functions of syscall.c and the calls that follow a user pointer: `sys_read`,
`sys_write`, `sys_fstat`, `sys_pipe` and `sys_exec`. Every function returns, beside its
result (`none` is -1), the user addresses that the kernel reads or writes in it. Words are
32 bits wide, unsigned where the source has `uint` and `toInt` where it has `int`.
-/

namespace Xv6Rpi.Syscall

open Fs (nofile ndev bsize maxfile logsize tDev)

abbrev Word := BitVec 32

def uaddrSz : Nat := 2 ^ 28
def maxarg : Nat := 32
def console : Nat := 1
def pteSz : Nat := 4096

/-- The fields of an inode that `readi` and `writei` look at before they touch the caller's
memory, its size apart. -/
structure Inode where
  type : Nat
  major : BitVec 16

inductive FdType where
  | none
  | pipe
  | inode (ip : Inode)

structure File where
  type : FdType
  readable : Bool
  writable : Bool

/-- The caller: its size, which `allocuvm` keeps below the end of the user addresses, the
arguments `r1` to `r4` of its trapframe, its memory and its open files. -/
structure Caller where
  sz : Word
  sz_lt : sz.toNat < uaddrSz
  reg : Fin 4 → Word
  mem : Word → BitVec 8
  ofile : Nat → Option File

/-- What a call finds that its caller does not decide. -/
structure Env where
  /-- `f->off` and `ip->size` when the inode is locked for the `k`-th time. -/
  off : Nat → Word
  size : Nat → Word
  /-- The bytes in the pipe when `piperead` starts to copy; `none` if it was killed before. -/
  piped : Option Nat
  /-- How many bytes `pipewrite` can copy until its reader is gone. -/
  room : Nat
  /-- The console's input; when it ends the caller is killed. -/
  typed : List (BitVec 8)
  /-- Whether `pipealloc` and both calls of `fdalloc` succeed. -/
  pipes : Bool
  /-- How many elements of the path `namex` looks up. -/
  elems : Nat
  /-- The size of the new image with its stack, if `exec` could load it. -/
  image : Option Word
  /-- Whether `uva2ka` finds a page of the new image. -/
  page : Word → Bool

def span (p : Word) (n : Nat) : List Word := (List.range n).map fun k => p + BitVec.ofNat 32 k

/-! ## syscall.c -/

def word (mem : Word → BitVec 8) (p : Word) : Word := mem (p + 3) ++ mem (p + 2) ++ mem (p + 1) ++ mem p

def fetchint (u : Caller) (addr : Word) : Option Word × List Word :=
  if addr ≥ u.sz ∨ addr + 4 > u.sz then (none, []) else (some (word u.mem addr), span addr 4)

/-- The loop of `fetchstr`, with so many addresses left below `ep`. -/
def strFrom (mem : Word → BitVec 8) (s : Word) : Nat → Option Nat × List Word
  | 0 => (none, [])
  | left + 1 =>
    if mem s = 0 then (some 0, [s])
    else ((strFrom mem (s + 1) left).1.map (· + 1), s :: (strFrom mem (s + 1) left).2)

def fetchstr (u : Caller) (addr : Word) : Option Nat × List Word :=
  if addr ≥ u.sz then (none, []) else strFrom u.mem addr (u.sz.toNat - addr.toNat)

def argint (u : Caller) (n : Fin 4) : Word := u.reg n

def argptr (u : Caller) (n : Fin 4) (size : Word) : Option Word :=
  let i := argint u n
  if i ≥ u.sz ∨ i + size > u.sz then none else some i

def argstr (u : Caller) (n : Fin 4) : Option Word × List Word :=
  ((fetchstr u (argint u n)).1.map fun _ => argint u n, (fetchstr u (argint u n)).2)

def argfd (u : Caller) (n : Fin 4) : Option File :=
  let fd := (argint u n).toInt
  if fd < 0 ∨ fd ≥ nofile then none else u.ofile fd.toNat

/-! ## Devices and pipes -/

def ctrlD : BitVec 8 := 4
def newline : BitVec 8 := 10

def consoleFrom (dst : Word) : Nat → List (BitVec 8) → Option Nat × List Word
  | 0, _ => (some 0, [])
  | _ + 1, [] => (none, [])
  | n + 1, c :: cs =>
    if c = ctrlD then (some 0, [])
    else if c = newline then (some 1, [dst])
    else ((consoleFrom (dst + 1) n cs).1.map (· + 1), dst :: (consoleFrom (dst + 1) n cs).2)

def consoleread (e : Env) (dst n : Word) : Option Nat × List Word := consoleFrom dst n.toInt.toNat e.typed

def consolewrite (buf n : Word) : Option Nat × List Word := (some n.toNat, span buf n.toInt.toNat)

/-- The check of a device number before `devsw` is used; `consoleinit` fills one entry. -/
def devsw (ip : Inode) : Bool := 0 ≤ ip.major.toInt && ip.major.toInt < ndev && ip.major.toInt == console

def piperead (e : Env) (addr n : Word) : Option Nat × List Word :=
  match e.piped with
  | none => (none, [])
  | some avail => (some (min n.toInt.toNat avail), span addr (min n.toInt.toNat avail))

def pipewrite (e : Env) (addr n : Word) : Option Nat × List Word :=
  (if n.toInt ≤ e.room then some n.toNat else none, span addr (min n.toInt.toNat e.room))

/-! ## fs.c and file.c -/

/-- The loop of `readi` and `writei`, with `n` bytes left: `memmove` in each block. -/
def moveFrom (p off : Word) (n : Nat) : List Word :=
  if n = 0 then []
  else
    let m := min n (bsize - off.toNat % bsize)
    span p m ++ moveFrom (p + BitVec.ofNat 32 m) (off + BitVec.ofNat 32 m) (n - m)
  termination_by n
  decreasing_by
    have : off.toNat % bsize < bsize := Nat.mod_lt _ (by decide)
    omega

def readi (e : Env) (ip : Inode) (dst : Word) (off size n : Word) : Option Nat × List Word :=
  if ip.type = tDev then
    if devsw ip then consoleread e dst n else (none, [])
  else if off > size ∨ off + n < off then (none, [])
  else
    let n := if off + n > size then size - off else n
    (some n.toNat, moveFrom dst off n.toNat)

def writei (ip : Inode) (src : Word) (off size n : Word) : Option Nat × List Word :=
  if ip.type = tDev then
    if devsw ip then consolewrite src n else (none, [])
  else if off > size ∨ off + n < off then (none, [])
  else if (off + n).toNat > maxfile * bsize then (none, [])
  else (some n.toNat, moveFrom src off n.toNat)

def fileread (e : Env) (f : File) (addr n : Word) : Option Nat × List Word :=
  if f.readable = false then (none, [])
  else
    match f.type with
    | .pipe => piperead e addr n
    | .inode ip => readi e ip addr (e.off 0) (e.size 0) n
    -- panic("fileread")
    | .none => (none, [])

def maxWrite : Nat := (logsize - 1 - 1 - 2) / 2 * 512

/-- The loop of `filewrite` from its `k`-th part on, with `n` bytes left. -/
def filewriteFrom (e : Env) (ip : Inode) (addr : Word) (k n : Nat) : List Word :=
  if n = 0 then []
  else
    let n1 := min n maxWrite
    let r := writei ip addr (e.off k) (e.size k) (BitVec.ofNat 32 n1)
    match r.1 with
    | none => r.2
    | some _ => r.2 ++ filewriteFrom e ip (addr + BitVec.ofNat 32 n1) (k + 1) (n - n1)
  termination_by n
  decreasing_by
    have : 0 < maxWrite := by decide
    omega

def filewrite (e : Env) (f : File) (addr n : Word) : List Word :=
  if f.writable = false then []
  else
    match f.type with
    | .pipe => (pipewrite e addr n).2
    | .inode ip => filewriteFrom e ip addr 0 n.toInt.toNat
    -- panic("filewrite")
    | .none => []

/-- `stati` behind `filestat`: the fields of `struct stat`, with the padding it has. -/
def filestat (f : File) (st : Word) : List Word :=
  match f.type with
  | .inode _ => span (st + 4) 4 ++ span (st + 8) 4 ++ span st 2 ++ span (st + 12) 2 ++ span (st + 16) 4
  | _ => []

def statSz : Word := 20

/-! ## exec.c -/

/-- `strlen`; it returns `none` if there is no nul in the whole address space. -/
def strlen (mem : Word → BitVec 8) (s : Word) : Option Nat × List Word := strFrom mem s (2 ^ 32)

def slash : BitVec 8 := 47

/-- The addresses that a loop over a string reads while its bytes meet `more`, and the address it stops at. -/
def scan (mem : Word → BitVec 8) (more : BitVec 8 → Bool) (s : Word) : Nat → Word × List Word
  | 0 => (s, [])
  | left + 1 =>
    if more (mem s) then ((scan mem more (s + 1) left).1, s :: (scan mem more (s + 1) left).2) else (s, [s])

def skipelem (mem : Word → BitVec 8) (path : Word) : Option Word × List Word :=
  let lead := scan mem (· = slash) path (2 ^ 32)
  if mem lead.1 = 0 then (none, lead.2)
  else
    let elem := scan mem (fun c => c ≠ slash ∧ c ≠ 0) lead.1 (2 ^ 32)
    let tail := scan mem (· = slash) elem.1 (2 ^ 32)
    (some tail.1, lead.2 ++ elem.2 ++ tail.2)

def namex (mem : Word → BitVec 8) : Word → Nat → List Word
  | path, 0 => (skipelem mem path).2
  | path, n + 1 =>
    match (skipelem mem path).1 with
    | none => (skipelem mem path).2
    | some rest => (skipelem mem path).2 ++ namex mem rest n

def alignDnPage (va : Word) : Word := va &&& ~~~4095#32

/-- The loop of `copyout`: what it reads of `buf` until a page is missing. -/
def copyoutFrom (page : Word → Bool) (va buf : Word) (len : Nat) : Bool × List Word :=
  if len = 0 then (true, [])
  else if page (alignDnPage va) = false then (false, [])
  else
    let n := min (pteSz - va.toNat % pteSz) len
    let r := copyoutFrom page (alignDnPage va + BitVec.ofNat 32 pteSz) (buf + BitVec.ofNat 32 n) (len - n)
    (r.1, span buf n ++ r.2)
  termination_by len
  decreasing_by
    have : va.toNat % pteSz < pteSz := Nat.mod_lt _ (by decide)
    omega

/-- The loop of `exec` that pushes the arguments below `sp`. -/
def pushArgs (u : Caller) (e : Env) (sp : Word) : List Word → Bool × List Word
  | [] => (true, [])
  | arg :: args =>
    match (strlen u.mem arg).1 with
    | none => (false, (strlen u.mem arg).2)
    | some len =>
      let sp := (sp - BitVec.ofNat 32 (len + 1)) &&& ~~~3#32
      let r := copyoutFrom e.page sp arg (len + 1)
      if r.1 = false then (false, (strlen u.mem arg).2 ++ r.2)
      else ((pushArgs u e sp args).1, (strlen u.mem arg).2 ++ r.2 ++ (pushArgs u e sp args).2)

/-- The last loop over the path, which looks for the name behind its last slash. -/
def lastElem (mem : Word → BitVec 8) (last s : Word) : Nat → Word × List Word
  | 0 => (last, [])
  | left + 1 =>
    if mem s = 0 then (last, [s])
    else
      let last := if mem s = slash then s + 1 else last
      ((lastElem mem last (s + 1) left).1, s :: (lastElem mem last (s + 1) left).2)

/-- What `safestrcpy` reads of its source, for a target of `n` bytes. -/
def safestrcpy (mem : Word → BitVec 8) (t : Word) (n : Nat) : List Word := (strFrom mem t (n - 1)).2

def exec (u : Caller) (e : Env) (path : Word) (argv : List Word) : List Word :=
  namex u.mem path e.elems ++
    match e.image with
    | none => []
    | some sz =>
      let args := pushArgs u e sz argv
      if args.1 = false then args.2
      else
        let last := lastElem u.mem path path (2 ^ 32)
        args.2 ++ last.2 ++ safestrcpy u.mem last.1 16

/-! ## The calls -/

/-- The loop of `sys_exec` over `uargv`, with so many entries of `argv` left. -/
def argvFrom (u : Caller) (uargv : Word) : Nat → Option (List Word) × List Word
  | 0 => (none, [])
  | left + 1 =>
    match (fetchint u uargv).1 with
    | none => (none, [])
    | some uarg =>
      if uarg = 0 then (some [], (fetchint u uargv).2)
      else if (fetchstr u uarg).1 = none then (none, (fetchint u uargv).2 ++ (fetchstr u uarg).2)
      else
        let r := argvFrom u (uargv + 4) left
        (r.1.map (uarg :: ·), (fetchint u uargv).2 ++ (fetchstr u uarg).2 ++ r.2)

inductive Call where
  | read | write | fstat | pipe | exec

def sysRead (u : Caller) (e : Env) : List Word :=
  match argfd u 0, argptr u 1 (argint u 2) with
  | some f, some p => (fileread e f p (argint u 2)).2
  | _, _ => []

def sysWrite (u : Caller) (e : Env) : List Word :=
  match argfd u 0, argptr u 1 (argint u 2) with
  | some f, some p => filewrite e f p (argint u 2)
  | _, _ => []

def sysFstat (u : Caller) : List Word :=
  match argfd u 0, argptr u 1 statSz with
  | some f, some st => filestat f st
  | _, _ => []

def sysPipe (u : Caller) (e : Env) : List Word :=
  match argptr u 0 8 with
  | some fd => if e.pipes then span fd 4 ++ span (fd + 4) 4 else []
  | none => []

def sysExec (u : Caller) (e : Env) : List Word :=
  match argstr u 0 with
  | (none, r) => r
  | (some path, r) =>
    match argvFrom u (argint u 1) maxarg with
    | (none, r') => r ++ r'
    | (some argv, r') => r ++ r' ++ exec u e path argv

/-- The user addresses that a call makes the kernel read or write. -/
def touched (u : Caller) (e : Env) : Call → List Word
  | .read => sysRead u e
  | .write => sysWrite u e
  | .fstat => sysFstat u
  | .pipe => sysPipe u e
  | .exec => sysExec u e

end Xv6Rpi.Syscall
