import Xv6Rpi.Fs.Disk
import Xv6Rpi.Lib.Writes

/-! # The redo log of log.c

Every function gives the list of the sector writes it makes, in order, from the contents
of the disk. Sectors of the log are always written through, so that `bread` of one of
them returns what is on the disk. Only `bwrite` reaches the disk; the buffers that
`log_write` leaves dirty are pinned in memory until they are installed.
-/

namespace Xv6Rpi.Fs

abbrev Write := Nat × Block

/-- `struct log` without its lock; `n` and `sector` are the header `lh` in memory. -/
structure Log where
  start : Nat
  size : Nat
  busy : Bool
  n : Nat
  sector : Nat → Nat

/-- The value of an `int` as a loop bound: a negative one bounds nothing. -/
def loopBound (w : Nat) : Nat := if w < 2 ^ 31 then w else 0

/-- The sector that holds the block logged as number `i`. -/
def Log.slot (l : Log) (i : Nat) : Nat := l.start + i + 1

/-- The loop of `write_head` that copies the first `n` sector numbers. -/
def putSectors (b : Block) (sector : Nat → Nat) : Nat → Block
  | 0 => b
  | i + 1 => setWord (putSectors b sector i) (4 + 4 * i) (sector i)

def writeHead (l : Log) (d : Disk) : List Write :=
  [(l.start, putSectors (setWord (d l.start) 0 l.n) l.sector l.n)]

def readHead (l : Log) (d : Disk) : Log :=
  let n := loopBound (getWord (d l.start) 0)
  { l with
    n := n
    sector := fun i => if i < n then getWord (d l.start) (4 + 4 * i) else l.sector i }

/-- The loop of `install_trans` from block `tail` on, with `k` blocks left. -/
def installFrom (l : Log) (tail : Nat) : Nat → Disk → List Write
  | 0, _ => []
  | k + 1, d =>
    let w := (l.sector tail, d (l.slot tail))
    w :: installFrom l (tail + 1) k (Function.update d w.1 w.2)

def installTrans (l : Log) (d : Disk) : List Write := installFrom l 0 l.n d

/-- The writes of `recover_from_log`; afterwards `lh.n` is 0. -/
def recoverFromLog (l : Log) (d : Disk) : List Write :=
  let l := readHead l d
  let ws := installTrans l d
  ws ++ writeHead { l with n := 0 } (Writes.apply ws d)

/-- The place of the log, as `initlog` reads it from the super block. -/
def logOf (sb : Superblock) : Log :=
  ⟨(sb.size + 2 ^ 32 - sb.nlog) % 2 ^ 32, sb.nlog, false, 0, fun _ => 0⟩

def initlog (d : Disk) : List Write := recoverFromLog (logOf (readsb d)) d

/-- Waiting for `busy` to clear is left to the caller. -/
def beginTrans (l : Log) : Log := { l with busy := true }

def commitTrans (l : Log) (d : Disk) : Log × List Write :=
  if 0 < l.n then
    let head := writeHead l d
    let ws := installTrans l (Writes.apply head d)
    let clear := writeHead { l with n := 0 } (Writes.apply (head ++ ws) d)
    ({ l with n := 0, busy := false }, head ++ ws ++ clear)
  else ({ l with busy := false }, [])

/-- The slot of a sector: the one it is logged in already, or the next free one. -/
def logIndex (l : Log) (sector : Nat) : Nat :=
  ((List.range l.n).find? fun i => l.sector i = sector).getD l.n

def logWrite (l : Log) (sector : Nat) (data : Block) : Except Panic (Log × List Write) :=
  if logsize ≤ l.n ∨ l.size ≤ l.n + 1 then .error .tooBigTrans
  else if !l.busy then .error .outsideTrans
  else
    let i := logIndex l sector
    .ok ({ l with
        sector := Function.update l.sector i sector
        n := if i = l.n then l.n + 1 else l.n }, [(l.slot i, data)])

def logWrites (l : Log) : List Write → Except Panic (Log × List Write)
  | [] => .ok (l, [])
  | w :: ws => (logWrite l w.1 w.2).bind fun r => (logWrites r.1 ws).map fun r' => (r'.1, r.2 ++ r'.2)

/-- One whole transaction: the sector writes from `begin_trans` to `commit_trans`. -/
def transaction (l : Log) (ws : List Write) (d : Disk) : Except Panic (List Write) :=
  (logWrites (beginTrans l) ws).map fun r => r.2 ++ (commitTrans r.1 (Writes.apply r.2 d)).2

end Xv6Rpi.Fs
