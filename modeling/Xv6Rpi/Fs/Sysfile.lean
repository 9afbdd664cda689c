import Xv6Rpi.Fs.Dir

/-! # Open files and the file-system calls

The functions of file.c and sysfile.c, and what `fork`, `exit` and `exec` do to files. `p`
is the calling process. An argument that the kernel could not fetch from user memory is
`none`; a call that fails returns -1. Pipes are left out.
-/

namespace Xv6Rpi.Fs

section Files

def setFile (s : Kern) (f : Nat) (x : File) : Kern := { s with file := Function.update s.file f x }

def filealloc : FsM (Option Nat) := act fun s =>
  match (List.range nfile).find? fun f => (s.file f).ref == 0 with
  | none => .ok (none, s)
  | some f => .ok (some f, setFile s f { s.file f with ref := 1 })

def filedup (f : Nat) : FsM Nat := act fun s =>
  if (s.file f).ref < 1 then .error (.panic .filedup)
  else .ok (f, setFile s f { s.file f with ref := (s.file f).ref + 1 })

def fileclose (f : Nat) : FsM Unit := do
  let ff ← act fun s =>
    if (s.file f).ref < 1 then .error (.panic .fileclose)
    else if 0 < (s.file f).ref - 1 then
      .ok (none, setFile s f { s.file f with ref := (s.file f).ref - 1 })
    else .ok (some (s.file f), setFile s f { s.file f with ref := 0, type := .none })
  match ff with
  | none => return ()
  | some ff => match ff.type with
    | .none => return ()
    | .inode =>
      beginTransK
      iput ff.ip
      commitTransK

def addOff (f r : Nat) : FsM Unit := modifyK fun s =>
  setFile s f { s.file f with off := ((s.file f).off + r) % 2 ^ 32 }

def fileread (f n : Nat) : FsM (Option (List UInt8)) := do
  let ff ← getK fun s => s.file f
  if !ff.readable then return none
  else match ff.type with
    | .none => panic .fileread
    | .inode =>
      ilock ff.ip
      let off ← getK fun s => (s.file f).off
      let r ← readi ff.ip off n
      if 0 < (r.getD []).length then addOff f (r.getD []).length
      iunlock ff.ip
      return r

def maxWrite : Nat := (logsize - 1 - 1 - 2) / 2 * 512

def filewriteChunk (f ip : Nat) (src : List UInt8) : FsM (Option Nat) := do
  beginTransK
  ilock ip
  let off ← getK fun s => (s.file f).off
  let r ← writei ip src off
  if 0 < r.getD 0 then addOff f (r.getD 0)
  iunlock ip
  commitTransK
  return r

/-- The loop of `filewrite` with the bytes that are left; whether it wrote them all. -/
def filewriteFrom (f ip : Nat) : Nat → List UInt8 → FsM Bool
  | 0, src => return src == []
  | fuel + 1, src => do
    if src = [] then return true
    else
      match ← filewriteChunk f ip (src.take maxWrite) with
      | none => return false
      | some r =>
        if r ≠ (src.take maxWrite).length then panic .shortFilewrite
        else filewriteFrom f ip fuel (src.drop maxWrite)

def filewrite (f : Nat) (src : List UInt8) : FsM Int := do
  let ff ← getK fun s => s.file f
  if !ff.writable then return -1
  else match ff.type with
    | .none => panic .filewrite
    | .inode =>
      if ← filewriteFrom f ff.ip src.length src then return src.length
      else return -1

end Files

section Descriptors

def setOfile (s : Kern) (p fd : Nat) (f : Option Nat) : Kern :=
  { s with proc := Function.update s.proc p { s.proc p with ofile := Function.update (s.proc p).ofile fd f } }

def setCwd (s : Kern) (p : Nat) (ip : Option Nat) : Kern :=
  { s with proc := Function.update s.proc p { s.proc p with cwd := ip } }

def argfd (p fd : Nat) : FsM (Option Nat) := getK fun s => if fd < nofile then (s.proc p).ofile fd else none

def fdalloc (p f : Nat) : FsM (Option Nat) := act fun s =>
  match (List.range nofile).find? fun fd => (s.proc p).ofile fd == none with
  | none => .ok (none, s)
  | some fd => .ok (some fd, setOfile s p fd (some f))

end Descriptors

section Calls

def sysDup (p fd : Nat) : FsM Int := do
  match ← argfd p fd with
  | none => return -1
  | some f => match ← fdalloc p f with
    | none => return -1
    | some fd =>
      let _ ← filedup f
      return fd

def sysRead (p fd : Nat) (n : Option Nat) : FsM Int := do
  match ← argfd p fd, n with
  | some f, some n => match ← fileread f n with
    | none => return -1
    | some bytes => return bytes.length
  | _, _ => return -1

def sysWrite (p fd : Nat) (src : Option (List UInt8)) : FsM Int := do
  match ← argfd p fd, src with
  | some f, some src => filewrite f src
  | _, _ => return -1

def sysClose (p fd : Nat) : FsM Int := do
  match ← argfd p fd with
  | none => return -1
  | some f =>
    modifyK fun s => setOfile s p fd none
    fileclose f
    return 0

def addLink (ip n : Nat) : FsM Unit :=
  modifyDi ip fun di => { di with nlink := (di.nlink + n) % 2 ^ 16 }

def nlinkInc (ip : Nat) : FsM Unit := addLink ip 1

def nlinkDec (ip : Nat) : FsM Unit := addLink ip (2 ^ 16 - 1)

def linkBad (ip : Nat) : FsM Int := do
  ilock ip
  nlinkDec ip
  iupdate ip
  iunlockput ip
  commitTransK
  return -1

def sysLink (p : Nat) : Option (List UInt8) → Option (List UInt8) → FsM Int
  | some old, some new => do
    match ← namei p old with
    | none => return -1
    | some ip =>
      beginTransK
      ilock ip
      let i ← getInode ip
      if i.di.type = tDir then
        iunlockput ip
        commitTransK
        return -1
      else
        nlinkInc ip
        iupdate ip
        iunlock ip
        match ← nameiparent p new with
        | none => linkBad ip
        | some (dp, name) =>
          ilock dp
          let i ← getInode ip
          if ← dirlink dp name i.inum then
            iunlockput dp
            iput ip
            commitTransK
            return 0
          else
            iunlockput dp
            linkBad ip
  | _, _ => return -1

def isdiremptyFrom (dp : Nat) : Nat → Nat → FsM Bool
  | 0, _ => return true
  | fuel + 1, off => do
    let d ← getInode dp
    if d.di.size ≤ off then return true
    else
      match ← readi dp off direntSz with
      | none => panic .isdirempty
      | some b =>
        if b.length ≠ direntSz then panic .isdirempty
        else if (decodeDirent b).inum ≠ 0 then return false
        else isdiremptyFrom dp fuel (off + direntSz)

def isdirempty (dp : Nat) : FsM Bool := do
  let d ← getInode dp
  isdiremptyFrom dp (dirFuel d.di) (2 * direntSz)

def unlinkBad (dp : Nat) : FsM Int := do
  iunlockput dp
  commitTransK
  return -1

/-- The end of `sys_unlink` for the entry of `ip` at offset `off` of `dp`, both locked. -/
def unlinkEntry (dp ip off : Nat) : FsM Int := do
  let r ← writei dp (List.replicate direntSz 0) off
  if r ≠ some direntSz then panic .unlinkWritei
  else
    let i ← getInode ip
    if i.di.type = tDir then
      nlinkDec dp
      iupdate dp
    iunlockput dp
    nlinkDec ip
    iupdate ip
    iunlockput ip
    commitTransK
    return 0

def sysUnlink (p : Nat) : Option (List UInt8) → FsM Int
  | none => return -1
  | some path => do
    match ← nameiparent p path with
    | none => return -1
    | some (dp, name) =>
      beginTransK
      ilock dp
      if namecmp name dot ∨ namecmp name dotdot then unlinkBad dp
      else
        match ← dirlookup dp name with
        | none => unlinkBad dp
        | some (ip, off) =>
          ilock ip
          let i ← getInode ip
          -- the link count is a `short`
          if i.di.nlink = 0 ∨ 2 ^ 15 ≤ i.di.nlink then panic .unlinkNlink
          else if i.di.type = tDir then
            if ← isdirempty ip then unlinkEntry dp ip off
            else
              iunlockput ip
              unlinkBad dp
          else unlinkEntry dp ip off

/-- Fill a new inode `ip` and enter it into `dp`, both locked. -/
def createIn (dp ip : Nat) (name : List UInt8) (type major minor : Nat) : FsM Unit := do
  modifyDi ip fun di => { di with major := major % 2 ^ 16, minor := minor % 2 ^ 16, nlink := 1 }
  iupdate ip
  let i ← getInode ip
  let d ← getInode dp
  if type = tDir then
    nlinkInc dp
    iupdate dp
    if ← dirlink ip dot i.inum then
      if ← dirlink ip dotdot d.inum then
        if ← dirlink dp name i.inum then iunlockput dp else panic .createDirlink
      else panic .createDots
    else panic .createDots
  else
    if ← dirlink dp name i.inum then iunlockput dp else panic .createDirlink

/-- Find or make the inode for a path; it is returned locked. -/
def create (p : Nat) (path : List UInt8) (type major minor : Nat) : FsM (Option Nat) := do
  match ← nameiparent p path with
  | none => return none
  | some (dp, name) =>
    ilock dp
    match ← dirlookup dp name with
    | some (ip, _) =>
      iunlockput dp
      ilock ip
      let i ← getInode ip
      if type = tFile ∧ i.di.type = tFile then return some ip
      else
        iunlockput ip
        return none
    | none =>
      let ip ← ialloc type
      ilock ip
      createIn dp ip name type major minor
      return some ip

def oCreate (omode : Nat) : Bool := omode &&& 0x200 != 0
def oWronly (omode : Nat) : Bool := omode &&& 0x001 != 0
def oRdwr (omode : Nat) : Bool := omode &&& 0x002 != 0

/-- The end of `sys_open`: a file structure and a descriptor for the locked inode. -/
def openFile (p ip omode : Nat) : FsM Int := do
  match ← filealloc with
  | none =>
    iunlockput ip
    return -1
  | some f => match ← fdalloc p f with
    | none =>
      fileclose f
      iunlockput ip
      return -1
    | some fd =>
      iunlock ip
      modifyK fun s => setFile s f { s.file f with
        type := .inode, ip := ip, off := 0, readable := !oWronly omode, writable := oWronly omode || oRdwr omode }
      return fd

def sysOpen (p : Nat) (path : Option (List UInt8)) (omode : Nat) : FsM Int :=
  match path with
  | none => return -1
  | some path =>
    if oCreate omode then do
      beginTransK
      let r ← create p path tFile 0 0
      commitTransK
      match r with
      | none => return -1
      | some ip => openFile p ip omode
    else do
      match ← namei p path with
      | none => return -1
      | some ip =>
        ilock ip
        let i ← getInode ip
        if i.di.type = tDir ∧ omode ≠ 0 then
          iunlockput ip
          return -1
        else openFile p ip omode

def makeNode (p : Nat) (path : Option (List UInt8)) (type major minor : Nat) : FsM Int := do
  beginTransK
  match path with
  | none =>
    commitTransK
    return -1
  | some path => match ← create p path type major minor with
    | none =>
      commitTransK
      return -1
    | some ip =>
      iunlockput ip
      commitTransK
      return 0

def sysMkdir (p : Nat) (path : Option (List UInt8)) : FsM Int := makeNode p path tDir 0 0

def sysMknod (p : Nat) (path : Option (List UInt8)) (major minor : Nat) : FsM Int :=
  makeNode p path tDev major minor

def iputCwd (p : Nat) : FsM Unit := do
  match ← getK fun s => (s.proc p).cwd with
  | none => return ()
  | some ip => iput ip

def sysChdir (p : Nat) : Option (List UInt8) → FsM Int
  | none => return -1
  | some path => do
    match ← namei p path with
    | none => return -1
    | some ip =>
      ilock ip
      let i ← getInode ip
      if i.di.type ≠ tDir then
        iunlockput ip
        return -1
      else
        iunlock ip
        iputCwd p
        modifyK fun s => setCwd s p (some ip)
        return 0

end Calls

section Processes

def forkFiles (p np : Nat) : Nat → FsM Unit
  | 0 => return ()
  | k + 1 => do
    match ← getK fun s => (s.proc p).ofile (nofile - (k + 1)) with
    | none => forkFiles p np k
    | some f =>
      let f ← filedup f
      modifyK fun s => setOfile s np (nofile - (k + 1)) (some f)
      forkFiles p np k

/-- What `fork` does to files; `np` is the process that `allocproc` found, if there was
one and its memory could be copied. -/
def fork (p : Nat) : Option Nat → FsM Int
  | none => return -1
  | some np => do
    forkFiles p np nofile
    let ip ← idupCwd p
    modifyK fun s => setCwd s np (some ip)
    return np

/-- The loop of `exit` over the open files, with `k` descriptors left. -/
def exitFiles (p : Nat) : Nat → FsM Unit
  | 0 => return ()
  | k + 1 => do
    match ← getK fun s => (s.proc p).ofile (nofile - (k + 1)) with
    | none => exitFiles p k
    | some f =>
      fileclose f
      modifyK fun s => setOfile s p (nofile - (k + 1)) none
      exitFiles p k

def exit (p : Nat) : FsM Int :=
  if p = 0 then panic .initExiting
  else do
    exitFiles p nofile
    iputCwd p
    modifyK fun s => setCwd s p none
    return 0

/-- What `exec` takes from outside the file system: whether a page directory could be
allocated, for each segment whether `allocuvm` succeeded and which pages are there,
whether the stack and the arguments could be set up, and the bytes in the header before
it is read. -/
structure ExecMem where
  pgdir : Bool
  segment : Nat → Bool
  mapped : Nat → Nat → Bool
  stack : Bool
  header : List UInt8

def pteSz : Nat := 4096

def loadFrom (ip : Nat) (mapped : Nat → Bool) (offset sz : Nat) : Nat → Nat → FsM Bool
  | 0, _ => return true
  | fuel + 1, i =>
    if sz ≤ i then return true
    else if !mapped i then panic .loaduvmAddr
    else do
      match ← readi ip ((offset + i) % 2 ^ 32) (min (sz - i) pteSz) with
      | none => return false
      | some b =>
        if b.length ≠ min (sz - i) pteSz then return false
        else loadFrom ip mapped offset sz fuel (i + pteSz)

def word (b : List UInt8) (off : Nat) : Nat := getWord (fun j => b.getD j 0) off

/-- The loop of `exec` over the program headers, with `k` of them left. -/
def loadSegments (ip : Nat) (mem : ExecMem) : Nat → Nat → FsM Bool
  | 0, _ => return true
  | k + 1, off => do
    match ← readi ip off 32 with
    | none => return false
    | some ph =>
      if ph.length ≠ 32 then return false
      else if word ph 0 ≠ 1 then loadSegments ip mem k ((off + 32) % 2 ^ 32)
      else if word ph 20 < word ph 16 ∨ !mem.segment k then return false
      else if word ph 8 % pteSz ≠ 0 then panic .loaduvmAlign
      else if ← loadFrom ip (mem.mapped k) (word ph 4) (word ph 16) (word ph 16 / pteSz + 1) 0 then
        loadSegments ip mem k ((off + 32) % 2 ^ 32)
      else return false

def elfMagic : Nat := 0x464C457F

def execLoad (ip : Nat) (mem : ExecMem) : FsM Bool := do
  let r ← readi ip 0 52
  -- the result -1 is compared as an unsigned number, so it does not count as too short
  let elf := r.getD mem.header
  if elf.length < 52 ∨ word elf 0 ≠ elfMagic ∨ !mem.pgdir then return false
  else loadSegments ip mem (getInt (fun j => elf.getD j 0) 44 2) (word elf 28)

def exec (p : Nat) (path : Option (List UInt8)) (mem : ExecMem) : FsM Int :=
  match path with
  | none => return -1
  | some path => do
    match ← namei p path with
    | none => return -1
    | some ip =>
      ilock ip
      let ok ← execLoad ip mem
      iunlockput ip
      return if ok && mem.stack then 0 else -1

end Processes

inductive Call where
  | dup (fd : Nat)
  | read (fd : Nat) (n : Option Nat)
  | write (fd : Nat) (src : Option (List UInt8))
  | close (fd : Nat)
  | link (old new : Option (List UInt8))
  | unlink (path : Option (List UInt8))
  | open (path : Option (List UInt8)) (omode : Nat)
  | mkdir (path : Option (List UInt8))
  | mknod (path : Option (List UInt8)) (major minor : Nat)
  | chdir (path : Option (List UInt8))
  | exec (path : Option (List UInt8)) (mem : ExecMem)
  | fork (np : Option Nat)
  | exit

def Call.prog (p : Nat) : Call → FsM Int
  | .dup fd => sysDup p fd
  | .read fd n => sysRead p fd n
  | .write fd src => sysWrite p fd src
  | .close fd => sysClose p fd
  | .link old new => sysLink p old new
  | .unlink path => sysUnlink p path
  | .open path omode => sysOpen p path omode
  | .mkdir path => sysMkdir p path
  | .mknod path major minor => sysMknod p path major minor
  | .chdir path => sysChdir p path
  | .exec path mem => Fs.exec p path mem
  | .fork np => Fs.fork p np
  | .exit => Fs.exit p

end Xv6Rpi.Fs
