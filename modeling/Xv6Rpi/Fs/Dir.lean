import Xv6Rpi.Fs.Inode

/-! # Directories and paths

A directory is a file of entries of 16 bytes, an inode number and a name. Names and paths
are lists of bytes without a terminating zero; a name has at most `DIRSIZ` of them.
-/

namespace Xv6Rpi.Fs

def direntSz : Nat := 16

structure Dirent where
  inum : Nat
  name : List UInt8

def decodeDirent (b : List UInt8) : Dirent where
  inum := (b.getD 0 0).toNat + 256 * (b.getD 1 0).toNat
  name := (b.drop 2).take dirsiz

/-- A string of at most `DIRSIZ` bytes ends at its first zero. -/
def cstr (s : List UInt8) : List UInt8 := (s.take dirsiz).takeWhile (· ≠ 0)

def namecmp (s t : List UInt8) : Bool := cstr s == cstr t

/-- An entry with the name that `strncpy` stores: cut or filled up to `DIRSIZ` bytes. -/
def encodeDirent (inum : Nat) (name : List UInt8) : List UInt8 :=
  [UInt8.ofNat inum, UInt8.ofNat (inum / 256)] ++ cstr name ++ List.replicate (dirsiz - (cstr name).length) 0

section Directories

/-- The loop of `dirlookup` from offset `off` on; `fuel` bounds its turns. -/
def dirlookupFrom (dp : Nat) (name : List UInt8) : Nat → Nat → FsM (Option (Nat × Nat))
  | 0, _ => pure none
  | fuel + 1, off => do
    let d ← getInode dp
    if d.di.size ≤ off then return none
    else
      match ← readi dp off direntSz with
      | none => panic .dirlinkRead
      | some b =>
        if b.length ≠ direntSz then panic .dirlinkRead
        else if (decodeDirent b).inum = 0 ∨ ¬namecmp name (decodeDirent b).name then
          dirlookupFrom dp name fuel (off + direntSz)
        else
          let ip ← iget (decodeDirent b).inum
          return some (ip, off)

def dirFuel (di : Dinode) : Nat := di.size / direntSz + 1

/-- Look for a directory entry in a directory: its inode and its offset. -/
def dirlookup (dp : Nat) (name : List UInt8) : FsM (Option (Nat × Nat)) := do
  let d ← getInode dp
  if d.di.type ≠ tDir then panic .dirlookupNotDir
  else dirlookupFrom dp name (dirFuel d.di) 0

def emptyEntryFrom (dp : Nat) : Nat → Nat → FsM Nat
  | 0, off => pure off
  | fuel + 1, off => do
    let d ← getInode dp
    if d.di.size ≤ off then return off
    else
      match ← readi dp off direntSz with
      | none => panic .dirlinkRead
      | some b =>
        if b.length ≠ direntSz then panic .dirlinkRead
        else if (decodeDirent b).inum = 0 then return off
        else emptyEntryFrom dp fuel (off + direntSz)

/-- Write a new directory entry into the directory `dp`: false is the result -1. -/
def dirlink (dp : Nat) (name : List UInt8) (inum : Nat) : FsM Bool := do
  match ← dirlookup dp name with
  | some (ip, _) =>
    iput ip
    return false
  | none =>
    let d ← getInode dp
    let off ← emptyEntryFrom dp (dirFuel d.di) 0
    let r ← writei dp (encodeDirent inum name) off
    if r ≠ some direntSz then panic .dirlink
    else return true

end Directories

section Paths

def slash : UInt8 := 47
def dot : List UInt8 := [46]
def dotdot : List UInt8 := [46, 46]

/-- The next path element, and the path after it without leading slashes. -/
def skipelem (path : List UInt8) : Option (List UInt8 × List UInt8) :=
  match path.dropWhile (· == slash) with
  | [] => none
  | c :: cs =>
    some (((c :: cs).takeWhile (· ≠ slash)).take dirsiz,
      ((c :: cs).dropWhile (· ≠ slash)).dropWhile (· == slash))

/-- The loop of `namex` from the inode `ip` on; `fuel` bounds the elements of the path. -/
def namexFrom (parent : Bool) : Nat → Nat → List UInt8 → List UInt8 → FsM (Option (Nat × List UInt8))
  | 0, _, _, _ => pure none
  | fuel + 1, ip, path, name =>
    match skipelem path with
    | none =>
      if parent then do
        iput ip
        return none
      else return some (ip, name)
    | some (name, path) => do
      ilock ip
      let i ← getInode ip
      if i.di.type ≠ tDir then
        iunlockput ip
        return none
      else if parent ∧ path = [] then
        iunlock ip
        return some (ip, name)
      else
        match ← dirlookup ip name with
        | none =>
          iunlockput ip
          return none
        | some (next, _) =>
          iunlockput ip
          namexFrom parent fuel next path name

/-- A new reference to the current directory. A process without one has exited. -/
def idupCwd (p : Nat) : FsM Nat := act fun s =>
  match (s.proc p).cwd with
  | none => .error .sleep
  | some ip => .ok (ip, setInode s ip { s.inode ip with ref := (s.inode ip).ref + 1 })

/-- Look up and return the inode for a path name, or for its parent with the final path
element. -/
def namex (p : Nat) (path : List UInt8) (parent : Bool) : FsM (Option (Nat × List UInt8)) := do
  let ip ← if path.head? = some slash then iget rootino else idupCwd p
  namexFrom parent (path.length + 1) ip path []

def namei (p : Nat) (path : List UInt8) : FsM (Option Nat) := do
  let r ← namex p path false
  return r.map Prod.fst

def nameiparent (p : Nat) (path : List UInt8) : FsM (Option (Nat × List UInt8)) := namex p path true

end Paths

end Xv6Rpi.Fs
