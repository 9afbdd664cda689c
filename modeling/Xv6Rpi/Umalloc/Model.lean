import Mathlib.Tactic

/-! # The allocator of user programs

malloc and free of umalloc.c. Pointers are addresses, and a pointer to a header moves by eight
bytes for each unit. The loops take a number of turns, of which there are enough; sbrk gives one
of a list of answers.
-/

namespace Xv6Rpi.Umalloc

def sizeofHeader : Nat := 8

def uaddrSz : Nat := 2 ^ 28

/-- The union of a pointer with a size, and a word for its alignment. -/
structure Header where
  ptr : Nat
  size : Nat
  deriving DecidableEq

/-- Where a program has its header `base`, and where its heap starts. -/
structure Layout where
  base : Nat
  start : Nat
  base_pos : 0 < base
  base_lt : base + sizeofHeader ≤ start
  start_le : start ≤ uaddrSz

/-- The memory of a program as headers, the pointer `freep` and the break. -/
structure Heap where
  mem : Nat → Header
  freep : Nat
  brk : Nat

def Heap.size (h : Heap) (p : Nat) : Nat := (h.mem p).size

def Heap.ptr (h : Heap) (p : Nat) : Nat := (h.mem p).ptr

def Heap.stop (h : Heap) (p : Nat) : Nat := p + sizeofHeader * h.size p

def Heap.setSize (h : Heap) (p size : Nat) : Heap :=
  { h with mem := Function.update h.mem p { h.mem p with size } }

def Heap.setPtr (h : Heap) (p ptr : Nat) : Heap :=
  { h with mem := Function.update h.mem p { h.mem p with ptr } }

section Fields

variable (h : Heap) (p q n : Nat)

@[simp] theorem Heap.size_setSize : (h.setSize p n).size q = if q = p then n else h.size q := by
  simp only [size, setSize, Function.update_apply]
  split
  · rfl
  · rfl

@[simp] theorem Heap.ptr_setSize : (h.setSize p n).ptr q = h.ptr q := by
  simp only [ptr, setSize, Function.update_apply]
  split
  · next hEq => rw [hEq]
  · rfl

@[simp] theorem Heap.size_setPtr : (h.setPtr p n).size q = h.size q := by
  simp only [size, setPtr, Function.update_apply]
  split
  · next hEq => rw [hEq]
  · rfl

@[simp] theorem Heap.ptr_setPtr : (h.setPtr p n).ptr q = if q = p then n else h.ptr q := by
  simp only [ptr, setPtr, Function.update_apply]
  split
  · rfl
  · rfl

@[simp] theorem Heap.brk_setSize : (h.setSize p n).brk = h.brk := rfl

@[simp] theorem Heap.brk_setPtr : (h.setPtr p n).brk = h.brk := rfl

@[simp] theorem Heap.freep_setSize : (h.setSize p n).freep = h.freep := rfl

@[simp] theorem Heap.freep_setPtr : (h.setPtr p n).freep = h.freep := rfl

end Fields

def find (h : Heap) (bp : Nat) : Nat → Nat → Option Nat
  | 0, _ => none
  | n + 1, p =>
    if bp > p ∧ bp < h.ptr p then some p
    else if p ≥ h.ptr p ∧ (bp > p ∨ bp < h.ptr p) then some p
    else find h bp n (h.ptr p)

/-- The free block `b` comes behind `a`: the two become one where they meet, and are linked
otherwise. -/
def join (h : Heap) (a b : Nat) : Heap :=
  if h.stop a = b then (h.setSize a (h.size a + h.size b)).setPtr a (h.ptr b) else h.setPtr a b

/-- `none` when the loop has not ended within its turns. -/
def free (h : Heap) (ap : Nat) : Option Heap :=
  let bp := ap - sizeofHeader
  match find h bp uaddrSz h.freep with
  | none => none
  | some p => some { join (join h bp (h.ptr p)) p bp with freep := p }

/-- The system call: it fails, or moves the break within the address space. -/
def sbrk (h : Heap) (n : Nat) : List Bool → Option (Nat × Heap)
  | true :: _ => if h.brk + n ≤ uaddrSz then some (h.brk, { h with brk := h.brk + n }) else none
  | _ => none

/-- `none` when `free` has not ended, and the null pointer where there is no more memory. -/
def morecore (h : Heap) (nu : Nat) (answers : List Bool) : Option (Nat × Heap) :=
  let nu := if nu < 4096 then 4096 else nu
  match sbrk h (nu * sizeofHeader % 2 ^ 32) answers with
  | none => some (0, h)
  | some (hp, h) =>
    match free (h.setSize hp nu) (hp + sizeofHeader) with
    | none => none
    | some h => some (h.freep, h)

/-- A block of this many units out of the free block `p`, and the pointer that is returned. -/
def carve (h : Heap) (nunits prevp p : Nat) : Nat × Heap :=
  if h.size p = nunits then (p + sizeofHeader, { h.setPtr prevp (h.ptr p) with freep := prevp })
  else
    let h := h.setSize p (h.size p - nunits)
    let p := h.stop p
    (p + sizeofHeader, { h.setSize p nunits with freep := prevp })

def mallocLoop (nunits : Nat) : Nat → List Bool → Heap → Nat → Nat → Option (Nat × Heap)
  | 0, _, _, _, _ => none
  | n + 1, answers, h, prevp, p =>
    if h.size p ≥ nunits then some (carve h nunits prevp p)
    else if p = h.freep then
      match morecore h nunits answers with
      | none => none
      | some (p, h) =>
        if p = 0 then some (0, h) else mallocLoop nunits n answers.tail h p (h.ptr p)
    else mallocLoop nunits n answers h p (h.ptr p)

/-- The units of a block with room for so many bytes, computed in 32 bits. -/
def units (nbytes : Nat) : Nat := (nbytes + sizeofHeader - 1) % 2 ^ 32 / sizeofHeader + 1

/-- `none` when a loop has not ended within its turns, and 0 where there is no more memory. -/
def malloc (base nbytes : Nat) (answers : List Bool) (h : Heap) : Option (Nat × Heap) :=
  let h := if h.freep = 0 then { (h.setPtr base base).setSize base 0 with freep := base } else h
  mallocLoop (units nbytes) (2 * uaddrSz) answers h h.freep (h.ptr h.freep)

/-! ## Programs -/

structure Live where
  ap : Nat
  nbytes : Nat
  deriving DecidableEq

def Live.header (b : Live) : Nat := b.ap - sizeofHeader

structure Program where
  heap : Heap
  live : List Live

/-- What a program does: it allocates, frees one of its blocks, or writes into one. -/
inductive Reach (L : Layout) : Program → Prop
  | start (mem : Nat → Header) : Reach L ⟨⟨mem, 0, L.start⟩, []⟩
  | malloc {s : Program} {nbytes ap : Nat} {answers : List Bool} {h : Heap} (hReach : Reach L s)
      (hBytes : nbytes < uaddrSz) (hRun : malloc L.base nbytes answers s.heap = some (ap, h)) :
      Reach L ⟨h, if ap = 0 then s.live else ⟨ap, nbytes⟩ :: s.live⟩
  | free {s : Program} {b : Live} {h : Heap} (hReach : Reach L s) (hLive : b ∈ s.live)
      (hRun : free s.heap b.ap = some h) : Reach L ⟨h, s.live.erase b⟩
  | write {s : Program} {b : Live} {p : Nat} {x : Header} (hReach : Reach L s) (hLive : b ∈ s.live)
      (hFrom : b.ap ≤ p) (hTo : p + sizeofHeader ≤ s.heap.stop b.header) :
      Reach L ⟨{ s.heap with mem := Function.update s.heap.mem p x }, s.live⟩

end Xv6Rpi.Umalloc
