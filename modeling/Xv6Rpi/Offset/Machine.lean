import Xv6Rpi.Fs.Sysfile
import Xv6Rpi.Fs.Own
import Xv6Rpi.Lib.Run

/-! # Processes that share an open file

Processes of type `P` call `fileread` and `filewrite` on one `struct file` of a regular file.
A step is one process executing its code up to the next place where it may sleep: in
`begin_trans`, in `ilock`, or in the `bread` of each turn of the loops of `readi` and `writei`.
A process that finds the log or the inode busy has no step.

What `readi` and `writei` do to the blocks of the disk is left out: here a turn of their loops
copies bytes out of the file or into it.

The transfers and the calls that returned are kept for the statements only. No step reads
them.
-/

namespace Xv6Rpi.Offset

open Fs

/-- A call of `readi` or `writei` that did not fail: the bytes from `start` on that went to or
came from the process, and the number of the process's call of `fileread` or `filewrite`. -/
structure Transfer (P : Type) where
  proc : P
  call : Nat
  write : Bool
  start : Nat
  bytes : List UInt8
  deriving DecidableEq

/-- A call of `filewrite` that returned `r`. -/
structure Return (P : Type) where
  proc : P
  call : Nat
  src : List UInt8
  r : Int
  deriving DecidableEq

inductive Pc where
  | user
  -- filewrite(f, src, n) with `i` bytes written: the loop's test, then begin_trans(), ilock(),
  -- writei(ip, src + i, off, n1) with `tot` of its bytes copied, its return, and commit_trans()
  | loop (src : List UInt8) (i : Nat)
  | begun (src : List UInt8) (i : Nat)
  | locked (src : List UInt8) (i : Nat)
  | writei (src : List UInt8) (i off tot : Nat)
  | wrote (src : List UInt8) (i : Nat) (r : Option Nat)
  | commit (src : List UInt8) (i : Nat) (r : Option Nat)
  -- fileread(f, dst, n): ilock(), readi(ip, dst, off, n) with `dst` copied, and its return
  | read (n : Nat)
  | readLocked (n : Nat)
  | readi (n off : Nat) (dst : List UInt8)
  | didRead (r : Option (List UInt8))
  | panic
  deriving DecidableEq

inductive Op where
  | write (src : List UInt8)
  | read (n : Nat)

structure Machine (P : Type) where
  readable : Bool
  writable : Bool
  off : Nat
  ip : AFile
  /-- Who has the inode locked, and who is in a transaction. -/
  busy : Option P
  trans : Option P
  pc : P → Pc
  call : P → Nat
  transfers : List (Transfer P)
  returned : List (Return P)

def chunk (src : List UInt8) (i : Nat) : Nat := min (src.length - i) maxWrite

/-- How many bytes a turn of the loops of `readi` and `writei` copies. -/
def turn (n tot off : Nat) : Nat := min (n - tot) (bsize - off % bsize)

namespace Machine

variable {P : Type} [DecidableEq P]

def goto (m : Machine P) (p : P) (pc : Pc) : Machine P := { m with pc := Function.update m.pc p pc }

def leave (m : Machine P) (p : P) : Machine P :=
  { m.goto p .user with call := Function.update m.call p (m.call p + 1) }

def ret (m : Machine P) (p : P) (src : List UInt8) (r : Int) : Machine P :=
  { m.leave p with returned := ⟨p, m.call p, src, r⟩ :: m.returned }

def writei (m : Machine P) (p : P) (src : List UInt8) (i : Nat) : Machine P :=
  if m.ip.size < m.off ∨ (m.off + chunk src i) % 2 ^ 32 < m.off then m.goto p (.wrote src i none)
  else if maxfile * bsize < m.off + chunk src i then m.goto p (.wrote src i none)
  else m.goto p (.writei src i m.off 0)

def writeTurn (m : Machine P) (p : P) (src : List UInt8) (i off tot : Nat) : Machine P :=
  if tot < chunk src i then
    let k := turn (chunk src i) tot off
    { m.goto p (.writei src i (off + k) (tot + k)) with
      ip := { m.ip with byte := patch m.ip.byte off ((src.drop (i + tot)).take k) } }
  else
    { m.goto p (.wrote src i (some (chunk src i))) with
      ip := { m.ip with size := if 0 < chunk src i ∧ m.ip.size < off then off else m.ip.size } }

/-- `f->off += r` if something was transferred, and `iunlock`. -/
def moveOff (m : Machine P) (p : P) (write : Bool) (bytes : List UInt8) (pc : Pc) : Machine P :=
  { m.goto p pc with
    off := if 0 < bytes.length then (m.off + bytes.length) % 2 ^ 32 else m.off
    busy := none
    transfers := m.transfers ++ [⟨p, m.call p, write, m.off, bytes⟩] }

def readi (m : Machine P) (p : P) (n : Nat) : Machine P :=
  if m.ip.size < m.off ∨ (m.off + n) % 2 ^ 32 < m.off then m.goto p (.didRead none)
  else m.goto p (.readi (if m.ip.size < m.off + n then m.ip.size - m.off else n) m.off [])

def readTurn (m : Machine P) (p : P) (n off : Nat) (dst : List UInt8) : Machine P :=
  if dst.length < n then
    let k := turn n dst.length off
    m.goto p (.readi n (off + k) (dst ++ (List.range k).map fun j => m.ip.byte (off + j)))
  else m.goto p (.didRead (some dst))

def step (m : Machine P) : P × Op → Option (Machine P)
  | (p, op) => match m.pc p with
    | .user => match op with
      | .write src => if m.writable then some (m.goto p (.loop src 0)) else some (m.ret p src (-1))
      | .read n => if m.readable then some (m.goto p (.read n)) else some (m.leave p)
    | .loop src i =>
      if i < src.length then
        if m.trans = none then some { m.goto p (.begun src i) with trans := some p } else none
      else some (m.ret p src src.length)
    | .begun src i => if m.busy = none then some { m.goto p (.locked src i) with busy := some p } else none
    | .locked src i => some (m.writei p src i)
    | .writei src i off tot => some (m.writeTurn p src i off tot)
    | .wrote src i none => some { m.goto p (.commit src i none) with busy := none }
    | .wrote src i (some r) => some (m.moveOff p true ((src.drop i).take r) (.commit src i (some r)))
    | .commit src _ none => some { m.ret p src (-1) with trans := none }
    | .commit src i (some r) =>
      some { m.goto p (if r = chunk src i then .loop src (i + r) else .panic) with trans := none }
    | .read n => if m.busy = none then some { m.goto p (.readLocked n) with busy := some p } else none
    | .readLocked n => some (m.readi p n)
    | .readi n off dst => some (m.readTurn p n off dst)
    | .didRead none => some { m.leave p with busy := none }
    | .didRead (some dst) =>
      some { m.moveOff p false dst .user with call := Function.update m.call p (m.call p + 1) }
    | .panic => none

def opened (readable writable : Bool) (off : Nat) (ip : AFile) : Machine P where
  readable := readable
  writable := writable
  off := off
  ip := ip
  busy := none
  trans := none
  pc _ := .user
  call _ := 0
  transfers := []
  returned := []

end Machine

end Xv6Rpi.Offset
