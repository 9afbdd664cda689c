import Xv6Rpi.Base

/-! # The buddy allocator of buddy.c

One flat array of marks starts at `kmem.start`; every order owns a range of it that
begins at the order's `offset`. A mark carries thirty-two availability bits and two
16-bit links that chain the non-empty marks of its order. Locks are left out: every
entry point runs under `kmem.lock`.
-/

namespace Xv6Rpi.Buddy

def maxOrd : Nat := 12
def minOrd : Nat := 6
def nOrd : Nat := maxOrd - minOrd + 1

structure Mark where
  lnks : BitVec 32
  bitmap : BitVec 32
  deriving DecidableEq, Repr

def preLnk (lnks : BitVec 32) : Nat := (lnks >>> 16).toNat
def nextLnk (lnks : BitVec 32) : Nat := (lnks &&& 0xFFFF#32).toNat
def mkLnks (pre next : Nat) : BitVec 32 :=
  (BitVec.ofNat 32 pre <<< 16) ||| (BitVec.ofNat 32 next &&& 0xFFFF#32)
def nil : Nat := 0xFFFF

structure Order where
  head : Nat
  offset : Nat
  deriving DecidableEq, Repr

@[ext] structure Kmem where
  start : Nat
  startHeap : Nat
  stop : Nat
  orders : Nat → Order
  marks : Nat → Mark

namespace Kmem

def ord (k : Kmem) (order : Nat) : Order := k.orders (order - minOrd)

def setHead (k : Kmem) (order head : Nat) : Kmem :=
  { k with orders := Function.update k.orders (order - minOrd) { k.ord order with head := head } }

def getMark (k : Kmem) (order idx : Nat) : Mark := k.marks ((k.ord order).offset + idx)

def setMark (k : Kmem) (order idx : Nat) (m : Mark) : Kmem :=
  { k with marks := Function.update k.marks ((k.ord order).offset + idx) m }

def setLnks (k : Kmem) (order idx : Nat) (lnks : BitVec 32) : Kmem :=
  k.setMark order idx { k.getMark order idx with lnks := lnks }

def setBitmap (k : Kmem) (order idx : Nat) (bitmap : BitVec 32) : Kmem :=
  k.setMark order idx { k.getMark order idx with bitmap := bitmap }

end Kmem

def blkid2mem (k : Kmem) (order blkId : Nat) : Nat := (k.startHeap + (1 <<< order) * blkId) % 2 ^ 32

def mem2blkid (k : Kmem) (order mem : Nat) : Nat := ((mem + 2 ^ 32 - k.startHeap) % 2 ^ 32) >>> order

def available (bitmap : BitVec 32) (blkId : Nat) : Bool :=
  bitmap &&& (1#32 <<< (blkId &&& 0x1F)) != 0#32

/-- `unmark_blk` joins the mark before an emptied one to the mark behind it. -/
def joinPrev (k : Kmem) (order idx prev next : Nat) : Kmem :=
  if prev ≠ nil then k.setLnks order prev (mkLnks (preLnk (k.getMark order prev).lnks) next)
  else if (k.ord order).head = idx then k.setHead order next
  else k

/-- `unmark_blk` joins the mark behind an emptied one to the mark before it. -/
def joinNext (k : Kmem) (order prev next : Nat) : Kmem :=
  if next ≠ nil then k.setLnks order next (mkLnks prev (nextLnk (k.getMark order next).lnks)) else k

/-- The part of `unmark_blk` that takes an emptied mark out of its order's list. -/
def unlinkMark (k : Kmem) (order idx : Nat) : Kmem :=
  let prev := preLnk (k.getMark order idx).lnks
  let next := nextLnk (k.getMark order idx).lnks
  (joinNext (joinPrev k order idx prev next) order prev next).setLnks order idx (mkLnks nil nil)

def unmarkBlk (k : Kmem) (order blkId : Nat) : Except Panic Kmem :=
  let mk := k.getMark order (blkId >>> 5)
  if !available mk.bitmap blkId then .error .doubleAlloc
  else
    let bitmap := mk.bitmap &&& ~~~(1#32 <<< (blkId &&& 0x1F))
    let k := k.setBitmap order (blkId >>> 5) bitmap
    if bitmap = 0#32 then .ok (unlinkMark k order (blkId >>> 5)) else .ok k

/-- `mark_blk` fixes the predecessor link of the old head. -/
def joinHead (k : Kmem) (order idx head : Nat) : Kmem :=
  if head ≠ nil then k.setLnks order head (mkLnks idx (nextLnk (k.getMark order head).lnks)) else k

/-- The part of `mark_blk` that puts a mark in front of its order's list. -/
def linkMark (k : Kmem) (order idx : Nat) : Kmem :=
  let head := (k.ord order).head
  (joinHead (k.setLnks order idx (mkLnks nil head)) order idx head).setHead order idx

def markBlk (k : Kmem) (order blkId : Nat) : Except Panic Kmem :=
  let mk := k.getMark order (blkId >>> 5)
  if available mk.bitmap blkId then .error .doubleFree
  else
    let k := k.setBitmap order (blkId >>> 5) (mk.bitmap ||| (1#32 <<< (blkId &&& 0x1F)))
    if mk.bitmap = 0#32 then .ok (linkMark k order (blkId >>> 5)) else .ok k

/-- The search of `get_blk` for the first set bit of a mark. -/
def firstBit (bitmap : BitVec 32) : Option Nat :=
  (List.range 32).find? fun i => bitmap &&& (1#32 <<< i) != 0#32

def getBlk (k : Kmem) (order : Nat) : Except Panic (Nat × Kmem) :=
  let head := (k.ord order).head
  let mk := k.getMark order head
  if mk.bitmap = 0#32 then .error .emptyMark
  else match firstBit mk.bitmap with
    | some i =>
      let blkId := (head * 32 + i) % 2 ^ 32
      (unmarkBlk k order blkId).map fun k => (blkid2mem k order blkId, k)
    | none => .ok (0, k)

def _kfree (k : Kmem) (mem order : Nat) : Except Panic Kmem :=
  let blkId := mem2blkid k order mem
  let mk := k.getMark order (blkId >>> 5)
  if available mk.bitmap blkId then .error .kfreeDoubleFree
  else
    let buddyId := blkId ^^^ 0x0001
    if !available mk.bitmap buddyId then markBlk k order blkId
    else if order < maxOrd then
      match unmarkBlk k order buddyId with
      | .error e => .error e
      | .ok k => _kfree k (blkid2mem k order (blkId / 2 * 2)) (order + 1)
    else markBlk k order blkId
termination_by maxOrd - order

def _kmalloc (k : Kmem) (order : Nat) : Except Panic (Nat × Kmem) :=
  if (k.ord order).head ≠ nil then getBlk k order
  else if order < maxOrd then
    match _kmalloc k (order + 1) with
    | .error e => .error e
    | .ok (up, k) =>
      if up ≠ 0 then (_kfree k ((up + (1 <<< order)) % 2 ^ 32) order).map fun k => (up, k)
      else .ok (up, k)
  else .ok (0, k)
termination_by maxOrd - order

/-- The address of the block, or 0 (`NULL`) when no block is left. -/
def kmalloc (k : Kmem) (order : Nat) : Except Panic (Nat × Kmem) :=
  if order > maxOrd ∨ order < minOrd then .error .kmallocRange else _kmalloc k order

def kfree (k : Kmem) (mem order : Nat) : Except Panic Kmem :=
  if order > maxOrd ∨ order < minOrd ∨ mem &&& ((1 <<< order) - 1) ≠ 0 then .error .kfreeRange
  else _kfree k mem order

/-- The inner loop of `kmem_init2`: the first `n` marks of an order become empty. -/
def initMarks (k : Kmem) (order : Nat) : Nat → Kmem
  | 0 => k
  | j + 1 => (initMarks k order j).setMark order j ⟨mkLnks nil nil, 0#32⟩

/-- The outer loop of `kmem_init2`, with `i` orders left, `n` marks in the next one and
`total` marks laid out so far. -/
def initOrders : Nat → Kmem → Nat → Nat → Kmem × Nat
  | 0, k, _, total => (k, total)
  | i + 1, k, n, total =>
    let k := { k with orders := Function.update k.orders i ⟨nil, total⟩ }
    initOrders i (initMarks k (i + minOrd) n) (2 * n % 2 ^ 32) ((total + n) % 2 ^ 32)

/-- The last loop of `kmem_init2`, with a bound on the number of its turns. -/
def freeHeap : Nat → Kmem → Nat → Except Panic Kmem
  | 0, _, _ => .error .unending
  | fuel + 1, k, i =>
    if i < k.stop then
      match kfree k i maxOrd with
      | .error e => .error e
      | .ok k => freeHeap fuel k ((i + (1 <<< maxOrd)) % 2 ^ 32)
    else .ok k

/-- The estimated number of marks of the largest order. -/
def numMarks (start stop : Nat) : Nat := (((stop + 2 ^ 32 - start) % 2 ^ 32) >>> (maxOrd + 5)) + 1

/-- One more than the number of pages of the address space: a loop over pages that has
not ended by then has come back to its first address. -/
@[irreducible] def maxTurns : Nat := 2 ^ 20 + 1

def kmemInit2 (k : Kmem) (vstart vend : Nat) : Except Panic Kmem :=
  let k := { k with start := vstart, stop := vend }
  let (k, total) := initOrders nOrd k (numMarks vstart vend) 0
  let startHeap := alignUp (vstart + total * 8) (1 <<< maxOrd)
  freeHeap maxTurns { k with startHeap := startHeap } startHeap

end Xv6Rpi.Buddy
