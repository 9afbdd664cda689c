import Xv6Rpi.Fs.Frame
import Xv6Rpi.Process.Grow
import Xv6Rpi.Uvm.Oom
import Xv6Rpi.Uvm.Stack

/-! # exec

`exec` builds the new image in a page directory of its own and gives it to the process when
nothing can fail any more. A file is read into the pages of the new image, and the argument
strings are pushed on its stack.
-/

namespace Xv6Rpi.Process

open Prog Sched Uvm

def maxarg : Nat := 32
def elfProgLoad : Nat := 1
def slash : UInt8 := 47

def wordBytes (l : List Nat) : List UInt8 :=
  l.flatMap fun w => [UInt8.ofNat w, UInt8.ofNat (w / 2 ^ 8), UInt8.ofNat (w / 2 ^ 16), UInt8.ofNat (w / 2 ^ 24)]

section Load

/-- The `memmove` of bytes that have been read to the beginning of the page at `v`, which has
to be a user page. -/
def fillPage (v : Nat) (bytes : List UInt8) : UvmM Unit := Uvm.act fun m =>
  if bytes = [] then .ok ((), m)
  else if m.heap ≤ v ∧ m.page v = true then .ok ((), m.store v 0 bytes)
  else .error .outside

/-- One turn of the loop of `loaduvm`, for `n` bytes at `va`; whether they have been read. -/
def loadPage (pgdir va ip off n sz : Nat) : KernM Bool := do
  match ← onMem (walkpgdir pgdir va false) with
  | none => panic .loaduvmAddr
  | some (t, j) =>
    let v ← getK fun s => p2v (pteAddr (s.mem.tab t j))
    let r ← onFs (Fs.readi ip off n)
    -- nothing is read where the result is -1
    let bytes := (r.getD []).take n
    mark (.fill va sz bytes.length)
    onMem (fillPage v bytes)
    return bytes.length == n

def loadLoop (pgdir addr ip offset filesz sz : Nat) : Nat → Nat → KernM Bool
  | 0, _ => panic .unending
  | turns + 1, i =>
    if filesz ≤ i then return true
    else do
      if ← loadPage pgdir ((addr + i) % 2 ^ 32) ip ((offset + i) % 2 ^ 32) (min (filesz - i) pteSz) sz then
        loadLoop pgdir addr ip offset filesz sz turns ((i + pteSz) % 2 ^ 32)
      else return false

/-- Only the labels depend on `sz`, the size of the image so far. -/
def loaduvm (pgdir addr ip offset filesz sz : Nat) : KernM Bool := do
  act fun s => if addr % pteSz = 0 then .ok ((), s) else .error (.panic .loaduvmAlign)
  loadLoop pgdir addr ip offset filesz sz (filesz / pteSz + 2) 0

def decodeProghdr (b : List UInt8) : Proghdr := ⟨Fs.word b 0, Fs.word b 4, Fs.word b 8, Fs.word b 16, Fs.word b 20⟩

/-- The loop of `exec` over the program headers, with `k` of them left; `none` is `bad`. Only the labels
depend on `seen`, the headers of the segments that have been loaded. -/
def loadSegments (ip pgdir : Nat) : Nat → Nat → Nat → List Proghdr → KernM (Option (Nat × List Proghdr))
  | 0, _, sz, seen => return some (sz, seen)
  | k + 1, off, sz, seen => do
    match ← onFs (Fs.readi ip off 32) with
    | none => return none
    | some b =>
      let ph := decodeProghdr b
      if b.length ≠ 32 then return none
      else if ph.type ≠ elfProgLoad then loadSegments ip pgdir k ((off + 32) % 2 ^ 32) sz seen
      else if ph.memsz < ph.filesz then return none
      else
        let sz ← onMem (allocuvm pgdir sz ((ph.vaddr + ph.memsz) % 2 ^ 32))
        if sz = 0 then return none
        else
          mark (.segment ip seen ph)
          if ← loaduvm pgdir ph.vaddr ip ph.off ph.filesz sz then
            loadSegments ip pgdir k ((off + 32) % 2 ^ 32) sz (seen ++ [ph])
          else return none

end Load

section Image

/-- The loop of `exec` that pushes the strings below `sp`; `ustack` are the addresses of those
that have been pushed. -/
def pushArgs (pgdir : Nat) : Nat → List Nat → List (List UInt8) → KernM (Option (Nat × List Nat))
  | sp, ustack, [] => return some (sp, ustack)
  | sp, ustack, s :: argv =>
    if maxarg ≤ ustack.length then return none
    else do
      let sp := alignDn ((sp + 2 ^ 32 - (s.length + 1)) % 2 ^ 32) 4
      let r ← onMem (copyout pgdir sp (s ++ [0]))
      if r < 0 then return none else pushArgs pgdir sp (ustack ++ [sp]) argv

def lastElem (last : List UInt8) : List UInt8 → List UInt8
  | [] => last
  | c :: s => lastElem (if c = slash then s else last) s

def execBad (pgdir : Nat) (ip : Option Nat) : KernM Int := do
  if pgdir ≠ 0 then onMem (freevm pgdir)
  match ip with
  | none => return -1
  | some ip =>
    onFs (Fs.iunlockput ip)
    return -1

def execCommit (p : Slot) (path : List UInt8) (pgdir sz entry sp : Nat) : KernM Int := do
  let oldpgdir ← getK fun s => s.pgdir p
  modifyK fun s => s.setUser p { s.user p with name := (lastElem path path).take 15 }
  modifyK fun s => s.setTbl (s.tbl.set p fun x => { x with pgdir := pgdir })
  modifyK fun s => s.setUser p { s.user p with
    sz := sz
    tf := { (s.user p).tf with pc := entry, spUsr := sp } }
  switchuvm p
  onMem (freevm oldpgdir)
  return 0

def execArgs (p : Slot) (path : List UInt8) (pgdir sz entry sp : Nat) (ustack : List Nat) : KernM Int := do
  mark .ustack
  let argc := ustack.length
  modifyK fun s => s.setUser p { s.user p with
    tf := { (s.user p).tf with
      r := Function.update (Function.update (s.user p).tf.r 0 argc) 1 ((sp + 2 ^ 32 - (argc + 1) * 4) % 2 ^ 32) } }
  let sp := (sp + 2 ^ 32 - (argc + 1) * 4) % 2 ^ 32
  let r ← onMem (copyout pgdir sp (wordBytes (ustack ++ [0])))
  if r < 0 then execBad pgdir none else execCommit p path pgdir sz entry sp

def execStack (p : Slot) (path : List UInt8) (argv : List (List UInt8)) (pgdir sz entry : Nat) (seen : List Proghdr) :
    KernM Int := do
  let sz := alignUp sz pteSz
  let sz ← onMem (allocuvm pgdir sz ((sz + 2 * pteSz) % 2 ^ 32))
  if sz = 0 then execBad pgdir none
  else
    onMem (clearpteu pgdir (sz - 2 * pteSz))
    mark (.args seen (argv.map List.length))
    match ← pushArgs pgdir sz [] argv with
    | none => execBad pgdir none
    | some (sp, ustack) => execArgs p path pgdir sz entry sp ustack

/-- What `exec` does when it has found the header `elf` of the file, an inode that it has locked. -/
def execFile (p : Slot) (path : List UInt8) (argv : List (List UInt8)) (ip : Nat) (elf : List UInt8) : KernM Int := do
  let pgdir ← onMem kptAlloc
  match ← loadSegments ip pgdir (Fs.getInt (fun j => elf.getD j 0) 44 2) (Fs.word elf 28) 0 [] with
  | none => execBad pgdir (some ip)
  | some (sz, seen) =>
    onFs (Fs.iunlockput ip)
    execStack p path argv pgdir sz (Fs.word elf 24) seen

/-- The argument strings are those that `sys_exec` has found. The header is on the kernel stack
and holds some bytes before it is read. -/
def exec (p : Slot) (path : List UInt8) (argv : List (List UInt8)) (header : List UInt8) : KernM Int := do
  match ← onFs (Fs.namei p path) with
  | none => return -1
  | some ip =>
    onFs (Fs.ilock ip)
    let r ← onFs (Fs.readi ip 0 52)
    -- the result -1 is compared as an unsigned number, so it does not count as too short
    let elf := r.getD header
    if elf.length < 52 ∨ Fs.word elf 0 ≠ Fs.elfMagic then execBad 0 (some ip) else execFile p path argv ip elf

end Image

section Call

def userByte (m : Mem) (d va : Nat) : Option UInt8 := (translate m d va).map fun q => m.byte q.1 (va % pteSz)

def userBytes (m : Mem) (d : Nat) : Nat → Nat → Option (List UInt8)
  | _, 0 => some []
  | va, n + 1 => do
    let c ← userByte m d va
    let rest ← userBytes m d (va + 1) n
    return c :: rest

/-- The string at a user address, looked for in so many bytes; `some none` if it does not end. -/
def userStr (m : Mem) (d : Nat) : Nat → Nat → Option (Option (List UInt8))
  | _, 0 => some none
  | va, left + 1 => do
    let c ← userByte m d va
    if c = 0 then return some []
    else
      let rest ← userStr m d (va + 1) left
      return rest.map (c :: ·)

def fetchint (p : Slot) (addr : Nat) : KernM (Option Nat) := act fun s =>
  if s.sz p ≤ addr ∨ s.sz p < (addr + 4) % 2 ^ 32 then .ok (none, s)
  else match userBytes s.mem (s.pgdir p) addr 4 with
    | none => .error (.panic .outside)
    | some b => .ok (some (Fs.word b 0), s)

/-- The string itself instead of its length. -/
def fetchstr (p : Slot) (addr : Nat) : KernM (Option (List UInt8)) := act fun s =>
  if s.sz p ≤ addr then .ok (none, s)
  else match userStr s.mem (s.pgdir p) addr (s.sz p - addr) with
    | none => .error (.panic .outside)
    | some r => .ok (r, s)

/-- The loop of `sys_exec` over `uargv`, with so many entries of `argv` left. -/
def fetchArgv (p : Slot) : Nat → Nat → KernM (Option (List (List UInt8)))
  | 0, _ => return none
  | left + 1, uargv => do
    match ← fetchint p uargv with
    | none => return none
    | some uarg =>
      if uarg = 0 then return some []
      else
        match ← fetchstr p uarg with
        | none => return none
        | some s =>
          let rest ← fetchArgv p left ((uargv + 4) % 2 ^ 32)
          return rest.map (s :: ·)

def sysExec (p : Slot) (header : List UInt8) : KernM Int := do
  let r ← getK fun s => (s.user p).tf.r
  match ← fetchstr p (r 1) with
  | none => return -1
  | some path =>
    match ← fetchArgv p maxarg (r 2) with
    | none => return -1
    | some argv => exec p path argv header

def sysExecNum : Nat := 7

/-- What the system calls other than `exec` return is `others`; an unknown one returns -1. -/
def syscall (others : Nat → KernM Int) (p : Slot) (header : List UInt8) : KernM Unit := do
  let num ← getK fun s => (s.user p).tf.r 0
  if num = sysExecNum then
    let _ ← sysExec p header
    return ()
  else
    let ret ← others num
    modifyK fun s => s.setUser p { s.user p with
      tf := { (s.user p).tf with r := Function.update (s.user p).tf.r 0 (BitVec.ofInt 32 ret).toNat } }

end Call

end Xv6Rpi.Process
