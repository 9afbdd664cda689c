import Xv6Rpi.Fs.Dir

/-! # mkfs

The host program that writes the image of the root file system. The image is a file of the
host; it is taken sector by sector, and reading a sector behind its end makes mkfs exit, as a
failing assertion does. Other errors of the host's system calls, where mkfs exits as well, are
left out. `xshort` and `xint` store integers with their lowest byte first.
-/

namespace Xv6Rpi.Mkfs

open Fs

def nblocks : Nat := 985
def nlog : Nat := logsize
def ninodes : Nat := 200
def size : Nat := 1024

def bitblocks : Nat := size / (512 * 8) + 1

def metablocks : Nat := ninodes / ipb + 3 + bitblocks

def sb : Superblock := ⟨size, nblocks, ninodes, nlog⟩

/-- A file of the host: the argument that names it, a string without its final zero, and what
`read` returns of it until there is no more. -/
structure HostFile where
  arg : List UInt8
  reads : List (List UInt8)
  string : 0 ∉ arg
  sizes : ∀ chunk ∈ reads, 0 < chunk.length ∧ chunk.length ≤ 512

theorem sizes_nil : ∀ chunk ∈ ([] : List (List UInt8)), 0 < chunk.length ∧ chunk.length ≤ 512 :=
  fun _ hIn => absurd hIn List.not_mem_nil

def HostFile.contents (f : HostFile) : List UInt8 := f.reads.flatten

structure Mk where
  disk : Disk
  sectors : Nat
  freeinode : Nat
  freeblock : Nat
  usedblocks : Nat

abbrev MkM (α : Type) := Prog Mk Unit Unit α

def act {α : Type} (f : Mk → Except Unit (α × Mk)) : MkM α := Prog.single () f

def assert (c : Prop) [Decidable c] : MkM Unit := act fun m => if c then .ok ((), m) else .error ()

def wsect (sec : Nat) (buf : Block) : MkM Unit :=
  act fun m => .ok ((), { m with disk := Function.update m.disk sec buf, sectors := max m.sectors (sec + 1) })

def rsect (sec : Nat) : MkM Block := act fun m => if sec < m.sectors then .ok (m.disk sec, m) else .error ()

def i2b (inum : Nat) : Nat := inum / ipb + 2

def winode (inum : Nat) (ip : Dinode) : MkM Unit := do
  let buf ← rsect (i2b inum)
  wsect (i2b inum) (encodeDinode buf (inum % ipb) ip)

def rinode (inum : Nat) : MkM Dinode := do
  let buf ← rsect (i2b inum)
  return decodeDinode buf (inum % ipb)

def ialloc (type : Nat) : MkM Nat := do
  let inum ← act fun m => .ok (m.freeinode, { m with freeinode := m.freeinode + 1 })
  winode inum { Dinode.zero with type := type, nlink := 1 }
  return inum

def usedBits (used : Nat) : Block := (List.range used).foldl setBit zeroBlock

def balloc (used : Nat) : MkM Unit := do
  assert (used < 512 * 8)
  wsect (ninodes / ipb + 3) (usedBits used)

def takeBlock : MkM Nat :=
  act fun m => .ok (m.freeblock, { m with freeblock := m.freeblock + 1, usedblocks := m.usedblocks + 1 })

/-- `din.addrs[k]`, which gets a block if it has none. -/
def addrOf (din : Dinode) (k : Nat) : MkM Dinode :=
  if din.addrs k = 0 then do
    let b ← takeBlock
    return { din with addrs := Function.update din.addrs k b }
  else return din

/-- The part of the loop of `iappend` that finds the sector `x` of the block `fbn`. -/
def sectorOf (din : Dinode) (fbn : Nat) : MkM (Dinode × Nat) :=
  if fbn < ndirect then do
    let din ← addrOf din fbn
    return (din, din.addrs fbn)
  else do
    let din ← addrOf din ndirect
    let indirect ← rsect (din.addrs ndirect)
    if getWord indirect (4 * (fbn - ndirect)) = 0 then
      let b ← takeBlock
      wsect (din.addrs ndirect) (setWord indirect (4 * (fbn - ndirect)) b)
      return (din, b)
    else return (din, getWord indirect (4 * (fbn - ndirect)))

/-- The loop of `iappend` from `off` on; `fuel` bounds its turns, of which each takes a byte. -/
def iappendFrom : Nat → Dinode → Nat → List UInt8 → MkM (Dinode × Nat)
  | 0, din, off, _ => return (din, off)
  | fuel + 1, din, off, p =>
    if p = [] then return (din, off)
    else do
      let fbn := off / 512
      assert (fbn < maxfile)
      let (din, x) ← sectorOf din fbn
      let n1 := min p.length ((fbn + 1) * 512 - off)
      let buf ← rsect x
      wsect x (patch buf (off - fbn * 512) (p.take n1))
      iappendFrom fuel din (off + n1) (p.drop n1)

def iappend (inum : Nat) (p : List UInt8) : MkM Unit := do
  let din ← rinode inum
  let (din, off) ← iappendFrom p.length din din.size p
  winode inum { din with size := off }

def iappendAll (inum : Nat) : List (List UInt8) → MkM Unit
  | [] => return
  | chunk :: chunks => do
    iappend inum chunk
    iappendAll inum chunks

def underscore : UInt8 := 95

def fileName (arg : List UInt8) : List UInt8 := if arg.head? = some underscore then arg.tail else arg

def addFiles (rootino : Nat) : List HostFile → MkM Unit
  | [] => return
  | f :: fs => do
    assert (slash ∉ f.arg)
    let inum ← ialloc tFile
    iappend rootino (encodeDirent inum (fileName f.arg))
    iappendAll inum f.reads
    addFiles rootino fs

/-- The loop of `main` that clears the image, up to sector `n`. -/
def wipe : Nat → MkM Unit
  | 0 => return
  | n + 1 => do
    wipe n
    wsect n zeroBlock

def superBlock : Block :=
  setWord (setWord (setWord (setWord zeroBlock 0 size) 4 nblocks) 8 ninodes) 12 nlog

def main (files : List HostFile) : MkM Unit := do
  assert (nblocks + metablocks + nlog = size)
  wipe (nblocks + metablocks + nlog)
  wsect 1 superBlock
  let root ← ialloc tDir
  assert (root = rootino)
  iappend root (encodeDirent root dot)
  iappend root (encodeDirent root dotdot)
  addFiles root files
  -- fix size of root inode dir
  let din ← rinode root
  winode root { din with size := (din.size / bsize + 1) * bsize }
  let used ← act fun m => .ok (m.usedblocks, m)
  balloc used

/-- The image and the variables when mkfs is done, unless it exits before. -/
def mkfs (files : List HostFile) : Except Unit (Unit × Mk) :=
  (main files).run ⟨fun _ => zeroBlock, 0, 1, metablocks, metablocks⟩

end Xv6Rpi.Mkfs
