import Xv6Rpi.Fs.Kern

/-! # Blocks, inodes and their contents in fs.c

The functions follow fs.c. `ip` is the index of an inode in the inode cache; a number of
type `uint` is reduced modulo `2 ^ 32` where it can wrap.
-/

namespace Xv6Rpi.Fs

section Blocks

def readsbAs (l : Label) : FsM Superblock := do
  let b ← breadAs l 1
  brelse 1
  return decodeSb b

def readsbK : FsM Superblock := readsbAs .step

def bzero (bno : Nat) : FsM Unit := do
  let _ ← bread bno
  logWriteBuf bno zeroBlock
  brelse bno

/-- The loop of `balloc` over the bitmap blocks, `k` of them left, from block `b` on. -/
def ballocFrom (sb : Superblock) : Nat → Nat → FsM Nat
  | 0, _ => panic .outOfBlocks
  | k + 1, b => do
    let bp ← bread (bblock b sb.ninodes)
    match firstFree bp (min bpb (sb.size - b)) with
    | some bi =>
      logWriteBuf (bblock b sb.ninodes) (setBit bp bi)
      brelse (bblock b sb.ninodes)
      bzero (b + bi)
      return b + bi
    | none =>
      brelse (bblock b sb.ninodes)
      ballocFrom sb k (b + bpb)

def balloc : FsM Nat := do
  let sb ← readsbAs .balloc
  ballocFrom sb ((sb.size + bpb - 1) / bpb) 0

def bfree (b : Nat) : FsM Unit := do
  let sb ← readsbK
  let bp ← bread (bblock b sb.ninodes)
  if !getBit bp (b % bpb) then panic .freeingFree
  logWriteBuf (bblock b sb.ninodes) (clearBit bp (b % bpb))
  brelse (bblock b sb.ninodes)

end Blocks

section Inodes

/-- The cache entry that `iget` finds for an inode: one that holds it already. -/
def cached (s : Kern) (inum : Nat) : Option Nat :=
  (List.range ninode).find? fun i => 0 < (s.inode i).ref && (s.inode i).inum == inum

def emptySlot (s : Kern) : Option Nat := (List.range ninode).find? fun i => (s.inode i).ref == 0

/-- Find the inode with a given number and return the in-memory copy. Neither locks the
inode nor reads it from disk. -/
def iget (inum : Nat) : FsM Nat := act fun s =>
  match cached s inum with
  | some ip => .ok (ip, setInode s ip { s.inode ip with ref := (s.inode ip).ref + 1 })
  | none => match emptySlot s with
    | none => .error (.panic .igetNoInodes)
    | some ip => .ok (ip, setInode s ip
        { s.inode ip with inum := inum, ref := 1, busy := false, valid := false })

def iallocFrom (type : Nat) : Nat → Nat → FsM Nat
  | 0, _ => panic .iallocNoInodes
  | k + 1, inum => do
    let bp ← bread (iblock inum)
    if (decodeDinode bp (inum % ipb)).type = 0 then
      logWriteBuf (iblock inum) (encodeDinode bp (inum % ipb) { Dinode.zero with type := type })
      brelse (iblock inum)
      iget inum
    else
      brelse (iblock inum)
      iallocFrom type k (inum + 1)

/-- Allocate a new inode with the given type. A free inode has a type of zero. -/
def ialloc (type : Nat) : FsM Nat := do
  let sb ← readsbK
  iallocFrom type (sb.ninodes - 1) 1

def iupdate (ip : Nat) : FsM Unit := do
  let i ← getInode ip
  let bp ← bread (iblock i.inum)
  logWriteBuf (iblock i.inum) (encodeDinode bp (i.inum % ipb) i.di)
  brelse (iblock i.inum)

def idup (ip : Nat) : FsM Nat := do
  modifyInode ip fun i => { i with ref := i.ref + 1 }
  return ip

/-- Lock the given inode. Reads the inode from disk if necessary. -/
def ilock (ip : Nat) : FsM Unit := do
  act fun s =>
    if (s.inode ip).ref < 1 then .error (.panic .ilock)
    else if (s.inode ip).busy then .error .sleep
    else .ok ((), setInode s ip { s.inode ip with busy := true })
  let i ← getInode ip
  if !i.valid then
    let bp ← bread (iblock i.inum)
    modifyDi ip fun _ => decodeDinode bp (i.inum % ipb)
    brelse (iblock i.inum)
    modifyInode ip fun i => { i with valid := true }
    let i ← getInode ip
    if i.di.type = 0 then panic .ilockNoType

def iunlock (ip : Nat) : FsM Unit := act fun s =>
  if !(s.inode ip).busy ∨ (s.inode ip).ref < 1 then .error (.panic .iunlock)
  else .ok ((), setInode s ip { s.inode ip with busy := false })

end Inodes

section Content

def bmapIndirect (ind bn : Nat) : FsM Nat := do
  let bp ← breadAs (.indirect ind bn) ind
  if getWord bp (4 * bn) = 0 then
    let addr ← balloc
    logWriteBuf ind (setWord bp (4 * bn) addr)
    brelse ind
    return addr
  else
    brelse ind
    return getWord bp (4 * bn)

/-- The block whose number `ip->addrs[k]` holds, allocated if there is none. -/
def bmapAddr (ip k : Nat) : FsM Nat := do
  let addr ← Prog.single (.bmap ip k) fun s => .ok ((s.inode ip).di.addrs k, s)
  if addr = 0 then
    let addr ← balloc
    modifyDi ip fun di => { di with addrs := Function.update di.addrs k addr }
    return addr
  else return addr

/-- Return the disk block address of the block `bn` of inode `ip`. If there is no such
block, `bmap` allocates one. -/
def bmap (ip bn : Nat) : FsM Nat :=
  if bn < ndirect then bmapAddr ip bn
  else if bn - ndirect < nindirect then do
    let ind ← bmapAddr ip ndirect
    bmapIndirect ind (bn - ndirect)
  else panic .bmapRange

/-- The loop of `itrunc` over the direct blocks, with `k` of them left. -/
def truncDirect (ip : Nat) : Nat → FsM Unit
  | 0 => pure ()
  | k + 1 => do
    let i ← getInode ip
    if i.di.addrs (ndirect - (k + 1)) ≠ 0 then
      bfree (i.di.addrs (ndirect - (k + 1)))
      modifyDi ip fun di => { di with addrs := Function.update di.addrs (ndirect - (k + 1)) 0 }
    truncDirect ip k

/-- The loop of `itrunc` over the entries of the indirect block, with `k` of them left. -/
def truncIndirect (bp : Block) : Nat → FsM Unit
  | 0 => pure ()
  | k + 1 => do
    if getWord bp (4 * (nindirect - (k + 1))) ≠ 0 then bfree (getWord bp (4 * (nindirect - (k + 1))))
    truncIndirect bp k

def itrunc (ip : Nat) : FsM Unit := do
  truncDirect ip ndirect
  let i ← getInode ip
  if i.di.addrs ndirect ≠ 0 then
    let bp ← bread (i.di.addrs ndirect)
    truncIndirect bp nindirect
    brelse (i.di.addrs ndirect)
    bfree (i.di.addrs ndirect)
    modifyDi ip fun di => { di with addrs := Function.update di.addrs ndirect 0 }
  modifyDi ip fun di => { di with size := 0 }
  iupdate ip

/-- Drop a reference to an in-memory inode. If that was the last reference and the inode
has no links to it, free the inode (and its content) on disk. -/
def iput (ip : Nat) : FsM Unit := do
  let free ← Prog.single (.iput ip) fun s =>
    if (s.inode ip).ref = 1 ∧ (s.inode ip).valid ∧ (s.inode ip).di.nlink = 0 then
      if (s.inode ip).busy then .error (.panic .iputBusy)
      else .ok (true, setInode s ip { s.inode ip with busy := true })
    else .ok (false, setInode s ip { s.inode ip with ref := (s.inode ip).ref - 1 })
  if free then
    itrunc ip
    modifyDi ip fun di => { di with type := 0 }
    iupdate ip
    modifyInode ip fun i => { i with busy := false, valid := false, ref := i.ref - 1 }

def iunlockput (ip : Nat) : FsM Unit := do
  iunlock ip
  iput ip

def slice (b : Block) (off m : Nat) : List UInt8 := (List.range m).map fun j => b (off + j)

def patch (b : Block) (off : Nat) (src : List UInt8) : Block := fun j =>
  if off ≤ j then src.getD (j - off) (b j) else b j

/-- The loop of `readi`; `fuel` bounds its turns, of which each reads at least one byte. -/
def readiFrom (ip : Nat) : Nat → Nat → Nat → FsM (List UInt8)
  | 0, _, _ => pure []
  | fuel + 1, off, n =>
    if n = 0 then pure []
    else do
      let addr ← bmap ip (off / bsize)
      let bp ← bread addr
      let m := min n (bsize - off % bsize)
      brelse addr
      let rest ← readiFrom ip fuel (off + m) (n - m)
      return slice bp (off % bsize) m ++ rest

/-- The device of an inode of type `T_DEV`, if its number is in range. -/
def devOf (s : Kern) (major : Nat) : Option Devsw := if major < ndev then s.devsw major else none

/-- A device function. The only devices are consoles, whose functions give up the inode's
lock while they wait. -/
def devCall {α : Type} (ip major : Nat) (f : Devsw → Option α) : FsM (Option α) := do
  match ← getK fun s => devOf s major with
  | none => return none
  | some d =>
    iunlock ip
    ilock ip
    return f d

/-- Read data from inode: `none` is the result -1. -/
def readi (ip off n : Nat) : FsM (Option (List UInt8)) := do
  let i ← getInode ip
  if i.di.type = tDev then devCall ip i.di.major fun d => d.read n
  else if i.di.size < off ∨ (off + n) % 2 ^ 32 < off then return none
  else
    let n := if i.di.size < off + n then i.di.size - off else n
    let bytes ← readiFrom ip n off n
    return some bytes

def writeiFrom (ip : Nat) : Nat → Nat → List UInt8 → FsM Unit
  | 0, _, _ => pure ()
  | fuel + 1, off, src =>
    if src = [] then pure ()
    else do
      let addr ← bmap ip (off / bsize)
      let bp ← bread addr
      let m := min src.length (bsize - off % bsize)
      logWriteBuf addr (patch bp (off % bsize) (src.take m))
      brelse addr
      writeiFrom ip fuel (off + m) (src.drop m)

/-- Write data to inode: `none` is the result -1. -/
def writei (ip : Nat) (src : List UInt8) (off : Nat) : FsM (Option Nat) := do
  let i ← getInode ip
  if i.di.type = tDev then devCall ip i.di.major fun d => d.write src
  else if i.di.size < off ∨ (off + src.length) % 2 ^ 32 < off then return none
  else if maxfile * bsize < off + src.length then return none
  else
    writeiFrom ip src.length off src
    if 0 < src.length ∧ i.di.size < off + src.length then
      modifyDi ip fun di => { di with size := off + src.length }
      iupdate ip
    return some src.length

end Content

end Xv6Rpi.Fs
