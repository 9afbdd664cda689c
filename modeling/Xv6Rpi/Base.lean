import Mathlib.Data.Nat.Bitwise
import Mathlib.Logic.Function.Basic
import Mathlib.Tactic

/-! # Panics, parameters and address arithmetic

Addresses and other unsigned words are numbers below `2 ^ 32`; wherever the C code can
wrap, the definition reduces modulo `2 ^ 32`.
-/

namespace Xv6Rpi

instance neZeroTwo : NeZero 2 := ⟨by decide⟩

instance neZeroFour : NeZero 4 := ⟨by decide⟩

instance neZeroThirteen : NeZero 13 := ⟨by decide⟩

/-- The calls of `panic` in the modelled files, by their text. The last two are not calls of
the source: one marks an access outside of the objects that a model describes, by a null
pointer or an index beyond an array, the other a loop that never leaves the 32-bit address
space. -/
inductive Panic where
  | doubleAlloc | doubleFree | emptyMark
  | kmallocRange | kfreeDoubleFree | kfreeRange | orderTooBig
  | oomKptAlloc
  | tooBigTrans | outsideTrans | brelse
  | outOfBlocks | freeingFree | igetNoInodes | iallocNoInodes
  | ilock | ilockNoType | iunlock | iputBusy | bmapRange
  | dirlookupNotDir | dirlinkRead | dirlink
  | filedup | fileclose | fileread | filewrite | shortFilewrite
  | isdirempty | unlinkNlink | unlinkWritei | createDots | createDirlink
  | loaduvmAlign | loaduvmAddr | initExiting
  | bgetNoBuffers | bwrite | iderwNotBusy | iderwNothing | iderwDisk | iderwSector
  | zombieExit | schedPtable | schedLocks | schedRunning | schedInterruptible
  | popcliInterruptible | popcliNcli
  | switchuvmNoPgdir | inituvmSize | remap | deallocuvm | freevmNoPgdir | clearpteu | copyuvmPte | copyuvmPage
  | outside
  | unending
  deriving DecidableEq, Repr

def Panic.text : Panic → String
  | .doubleAlloc => "double alloc\n"
  | .doubleFree => "double free\n"
  | .emptyMark => "empty mark in the list\n"
  | .kmallocRange => "kmalloc: order out of range\n"
  | .kfreeDoubleFree => "kfree: double free"
  | .kfreeRange => "kfree: order out of range or memory unaligned\n"
  | .orderTooBig => "order too big!"
  | .oomKptAlloc => "oom: kpt_alloc"
  | .tooBigTrans => "too big a transaction"
  | .outsideTrans => "write outside of trans"
  | .brelse => "brelse"
  | .outOfBlocks => "balloc: out of blocks"
  | .freeingFree => "freeing free block"
  | .igetNoInodes => "iget: no inodes"
  | .iallocNoInodes => "ialloc: no inodes"
  | .ilock => "ilock"
  | .ilockNoType => "ilock: no type"
  | .iunlock => "iunlock"
  | .iputBusy => "iput busy"
  | .bmapRange => "bmap: out of range"
  | .dirlookupNotDir => "dirlookup not DIR"
  | .dirlinkRead => "dirlink read"
  | .dirlink => "dirlink"
  | .filedup => "filedup"
  | .fileclose => "fileclose"
  | .fileread => "fileread"
  | .filewrite => "filewrite"
  | .shortFilewrite => "short filewrite"
  | .isdirempty => "isdirempty: readi"
  | .unlinkNlink => "unlink: nlink < 1"
  | .unlinkWritei => "unlink: writei"
  | .createDots => "create dots"
  | .createDirlink => "create: dirlink"
  | .loaduvmAlign => "loaduvm: addr must be page aligned"
  | .loaduvmAddr => "loaduvm: address should exist"
  | .initExiting => "init exiting"
  | .bgetNoBuffers => "bget: no buffers"
  | .bwrite => "bwrite"
  | .iderwNotBusy => "iderw: buf not busy"
  | .iderwNothing => "iderw: nothing to do"
  | .iderwDisk => "iderw: request not for disk 1"
  | .iderwSector => "iderw: sector out of range"
  | .zombieExit => "zombie exit"
  | .schedPtable => "sched ptable.lock"
  | .schedLocks => "sched locks"
  | .schedRunning => "sched running"
  | .schedInterruptible => "sched interruptible"
  | .popcliInterruptible => "popcli - interruptible"
  | .popcliNcli => "popcli -- ncli < 0"
  | .switchuvmNoPgdir => "switchuvm: no pgdir"
  | .inituvmSize => "inituvm: more than a page"
  | .remap => "remap"
  | .deallocuvm => "deallocuvm"
  | .freevmNoPgdir => "freevm: no pgdir"
  | .clearpteu => "clearpteu"
  | .copyuvmPte => "copyuvm: pte should exist"
  | .copyuvmPage => "copyuvm: page not present"
  | .outside => ""
  | .unending => ""

theorem map_eq_ok {ε α β : Type*} {f : α → β} {x : Except ε α} {b : β} :
    x.map f = .ok b ↔ ∃ a, x = .ok a ∧ f a = b := by
  cases x with
  | error e => simp [Except.map]
  | ok a => simp [Except.map]

theorem bind_eq_ok {ε α β : Type*} {f : α → Except ε β} {x : Except ε α} {b : β} :
    x.bind f = .ok b ↔ ∃ a, x = .ok a ∧ f a = .ok b := by
  cases x with
  | error e => simp [Except.bind]
  | ok a => simp [Except.bind]

theorem toOption_eq_some {ε α : Type*} {x : Except ε α} {a : α} : x.toOption = some a ↔ x = .ok a := by
  cases x with
  | error e => simp [Except.toOption]
  | ok b => simp [Except.toOption]

def errorOf {ε α : Type*} : Except ε α → Option ε
  | .error e => some e
  | .ok _ => none

theorem errorOf_eq_some {ε α : Type*} {x : Except ε α} {e : ε} : errorOf x = some e ↔ x = .error e := by
  cases x with
  | error e' => simp [errorOf]
  | ok a => simp [errorOf]

/-! ## Addresses of memlayout.h -/

def paStart : Nat := 0x0
def ramsize : Nat := 0x0C000000
def paStop : Nat := paStart + ramsize
def extmem : Nat := 0x00000000
def initKernSz : Nat := 0x00100000
def initKernmap : Nat := initKernSz + paStart
def kernbase : Nat := 0x80000000
def kernlink : Nat := kernbase + extmem

def p2v (a : Nat) : Nat := (a + kernbase) % 2 ^ 32
def v2p (a : Nat) : Nat := (a + 2 ^ 32 - kernbase) % 2 ^ 32

/-- `align_dn` of mmu.h; `al` is a power of two. -/
def alignDn (sz al : Nat) : Nat := sz &&& (2 ^ 32 - al)

/-- `align_up` of mmu.h; `al` is a power of two. -/
def alignUp (sz al : Nat) : Nat := (sz + al - 1) % 2 ^ 32 &&& (2 ^ 32 - al)

theorem land_two_pow_sub (x k : Nat) (hx : x < 2 ^ 32) (hk : k ≤ 32) :
    x &&& (2 ^ 32 - 2 ^ k) = x / 2 ^ k * 2 ^ k := by
  have hMask : 2 ^ 32 - 2 ^ k = (2 ^ (32 - k) - 1) <<< k := by
    rw [Nat.shiftLeft_eq, Nat.sub_mul, ← Nat.pow_add, Nat.sub_add_cancel hk, Nat.one_mul]
  have hShift : x / 2 ^ k * 2 ^ k = (x >>> k) <<< k := by
    rw [Nat.shiftLeft_eq, Nat.shiftRight_eq_div_pow]
  rw [hMask, hShift]
  apply Nat.eq_of_testBit_eq
  intro i
  simp only [Nat.testBit_and, Nat.testBit_shiftLeft, Nat.testBit_two_pow_sub_one, Nat.testBit_shiftRight]
  by_cases hki : k ≤ i
  · have hik : k + (i - k) = i := by omega
    by_cases hi : i < 32
    · simp [hki, hik, show i - k < 32 - k by omega]
    · have hxi : x.testBit i = false :=
        Nat.testBit_lt_two_pow (hx.trans_le (Nat.pow_le_pow_right (by decide) (by omega)))
      simp [hik, hxi]
  · simp [hki]

theorem alignDn_eq (sz k : Nat) (hsz : sz < 2 ^ 32) (hk : k ≤ 32) :
    alignDn sz (2 ^ k) = sz / 2 ^ k * 2 ^ k := land_two_pow_sub sz k hsz hk

theorem alignUp_eq (sz k : Nat) (hk : k ≤ 32) (hsz : sz + 2 ^ k - 1 < 2 ^ 32) :
    alignUp sz (2 ^ k) = (sz + 2 ^ k - 1) / 2 ^ k * 2 ^ k := by
  rw [alignUp, Nat.mod_eq_of_lt hsz, land_two_pow_sub _ k hsz hk]

end Xv6Rpi
