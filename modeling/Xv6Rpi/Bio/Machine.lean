import Xv6Rpi.Bio.Cache

/-! # Processes that use the buffer cache

Processes of type `P` call `bread`, `bwrite`, `log_write`, `brelse`, `begin_trans` and
`commit_trans` in any order and in any interleaving. A step is one process executing its
code up to the next point where it takes `bcache.lock`, sleeps or has changed a buffer.

A process changes and passes on only buffers that it holds, and it releases a buffer only
after it has given every change to `bwrite` or `log_write`. For this the machine records,
beside what the source stores, which process got a buffer and has not released it
(`held`), which buffers were changed since they were given (`stale`), and the contents last
given for each sector (`given`), by any call of `bwrite` or `log_write`, also by those that
`log_write` and `commit_trans` make themselves.
-/

namespace Xv6Rpi.Bio

open Fs (Block Disk Log logIndex logsize setWord putSectors)

def rootdev : Nat := 1

/-- Where `bread` was called: by a client, in `log_write` for its `i`-th block, in
`write_head`, and for the two buffers of `install_trans`. -/
inductive Caller where
  | client
  | logWrite (b : Ref) (i : Nat)
  | head (erase : Bool)
  | logBuf (tail : Nat)
  | dstBuf (lbuf : Ref) (tail : Nat)
  deriving DecidableEq

inductive Writer where
  | client
  | logWrite (b : Ref) (i : Nat)
  | head (erase : Bool)
  | install (lbuf : Ref) (tail : Nat)
  deriving DecidableEq

inductive Pc where
  -- outside of bio.c and log.c
  | client
  -- bget(): before its scan, asleep on a buffer; and bread() with the buffer from bget()
  | bget (dev sector : Nat) (k : Caller)
  | asleep (b : Ref) (dev sector : Nat) (k : Caller)
  | bread (b : Ref) (dev sector : Nat) (k : Caller)
  -- bwrite() before iderw()
  | bwrite (b : Ref) (k : Writer)
  -- log_write() with `lbuf`, before its brelse(), and after it
  | logCopy (b lbuf : Ref) (i : Nat)
  | logRelse (b lbuf : Ref) (i : Nat)
  | logMark (b : Ref) (i : Nat)
  -- write_head(), for the last time in commit_trans() if `erase`
  | headCopy (buf : Ref) (erase : Bool)
  | headRelse (buf : Ref) (erase : Bool)
  -- install_trans()
  | install (tail : Nat)
  | dst (lbuf : Ref) (tail : Nat)
  | copy (lbuf dbuf : Ref) (tail : Nat)
  | relseLog (lbuf dbuf : Ref) (tail : Nat)
  | relseDst (dbuf : Ref) (tail : Nat)
  -- the end of commit_trans()
  | unlock
  | panic (e : Panic)
  deriving DecidableEq

def Caller.pc (b : Ref) : Caller → Pc
  | .client => .client
  | .logWrite b' i => .logCopy b' b i
  | .head erase => .headCopy b erase
  | .logBuf tail => .dst b tail
  | .dstBuf lbuf tail => .copy lbuf b tail

def Writer.pc (b : Ref) : Writer → Pc
  | .client => .client
  | .logWrite b' i => .logRelse b' b i
  | .head erase => .headRelse b erase
  | .install lbuf tail => .relseLog lbuf b tail

def Pc.wake (b : Ref) : Pc → Pc
  | .asleep b' dev sector k => if b' = b then .bget dev sector k else .asleep b' dev sector k
  | pc => pc

/-- What a process outside of bio.c and log.c does next. -/
inductive Op where
  | bread (dev sector : Nat)
  | modify (b : Ref) (data : Block)
  | bwrite (b : Ref)
  | logWrite (b : Ref)
  | brelse (b : Ref)
  | beginTrans
  | commitTrans

structure Machine (P : Type) where
  cache : Cache
  disk : Disk
  disksize : Nat
  log : Log
  pc : P → Pc
  held : P → Ref → Bool
  stale : Ref → Bool
  given : Nat → Block

namespace Machine

variable {P : Type} [DecidableEq P]

def buf (m : Machine P) (b : Ref) : Buf := m.cache.buf b

def goto (m : Machine P) (p : P) (pc : Pc) : Machine P := { m with pc := Function.update m.pc p pc }

/-- `bget` returns `b`, changed by `f`. -/
def take (m : Machine P) (p : P) (b : Ref) (f : Buf → Buf) (pc : Pc) : Machine P :=
  { m with
    cache := m.cache.set b f
    held := Function.update m.held p (Function.update (m.held p) b true) }.goto p pc

def store (m : Machine P) (b : Ref) (data : Block) : Machine P :=
  { m with
    cache := m.cache.set b fun x => { x with data := data }
    stale := Function.update m.stale b true }

def give (m : Machine P) (b : Ref) : Machine P :=
  { m with
    stale := Function.update m.stale b false
    given := Function.update m.given (m.buf b).sector (m.buf b).data }

def iderw (m : Machine P) (p : P) (b : Ref) (pc : Pc) : Machine P :=
  match Bio.iderw m.disksize m.disk (m.buf b) with
  | .error e => m.goto p (.panic e)
  | .ok (d, x) =>
    let m' := if (m.buf b).dirty then m.give b else m
    { m' with disk := d, cache := m.cache.set b fun _ => x }.goto p pc

def bwrite (m : Machine P) (p : P) (b : Ref) (k : Writer) : Machine P :=
  if !(m.buf b).busy then m.goto p (.panic .bwrite)
  else { m with cache := m.cache.set b fun x => { x with dirty := true } }.goto p (.bwrite b k)

def brelse (m : Machine P) (p : P) (b : Ref) (pc : Pc) : Machine P :=
  if !(m.buf b).busy then m.goto p (.panic .brelse)
  else
    { m with
      cache := m.cache.brelse b
      held := Function.update m.held p (Function.update (m.held p) b false)
      pc := fun q => (m.pc q).wake b }.goto p pc

def logWrite (m : Machine P) (p : P) (b : Ref) : Machine P :=
  if logsize ≤ m.log.n ∨ m.log.size ≤ m.log.n + 1 then m.goto p (.panic .tooBigTrans)
  else if !m.log.busy then m.goto p (.panic .outsideTrans)
  else
    let i := logIndex m.log (m.buf b).sector
    { m with log := { m.log with sector := Function.update m.log.sector i (m.buf b).sector } }.goto p
      (.bget (m.buf b).dev (m.log.slot i) (.logWrite b i))

/-- A client acts; it keeps to the buffers it holds and to the rule for `brelse`. -/
def call (m : Machine P) (p : P) : Op → Option (Machine P)
  | .bread dev sector => some <| m.goto p (.bget dev sector .client)
  | .modify b data => if m.held p b then some (m.store b data) else none
  | .bwrite b => if m.held p b then some (m.bwrite p b .client) else none
  | .logWrite b => if m.held p b then some (m.logWrite p b) else none
  | .brelse b => if m.held p b ∧ m.stale b = false then some (m.brelse p b .client) else none
  | .beginTrans => if m.log.busy then none else some { m with log := Fs.beginTrans m.log }
  | .commitTrans => some <| m.goto p (if 0 < m.log.n then .bget rootdev m.log.start (.head false) else .unlock)

/-- The next step of process `p`; a sleeping one has none until it is woken. -/
def step (m : Machine P) (p : P) (op : Op) : Option (Machine P) :=
  match m.pc p with
  | .client => m.call p op
  | .bget dev sector k =>
    match m.cache.bget dev sector with
    | .cached b => some <| m.take p b (fun x => { x with busy := true }) (.bread b dev sector k)
    | .sleeps b => some <| m.goto p (.asleep b dev sector k)
    | .recycled b =>
      some <| m.take p b (fun x => ⟨true, false, false, dev, sector, x.data⟩) (.bread b dev sector k)
    | .noBuffers => some <| m.goto p (.panic .bgetNoBuffers)
  | .asleep _ _ _ _ => none
  | .bread b _ _ k => if (m.buf b).valid then some (m.goto p (k.pc b)) else some (m.iderw p b (k.pc b))
  | .bwrite b k => some <| m.iderw p b (k.pc b)
  | .logCopy b lbuf i => some <| (m.store lbuf (m.buf b).data).bwrite p lbuf (.logWrite b i)
  | .logRelse b lbuf i => some <| m.brelse p lbuf (.logMark b i)
  | .logMark b i =>
    let m' := m.give b
    some <| { m' with
      log := { m.log with n := if i = m.log.n then m.log.n + 1 else m.log.n }
      cache := m.cache.set b fun x => { x with dirty := true } }.goto p .client
  | .headCopy b erase =>
    some <| (m.store b (putSectors (setWord (m.buf b).data 0 m.log.n) m.log.sector m.log.n)).bwrite p b (.head erase)
  | .headRelse b erase => some <| m.brelse p b (if erase then .unlock else .install 0)
  | .install tail =>
    if tail < m.log.n then some <| m.goto p (.bget rootdev (m.log.slot tail) (.logBuf tail))
    else some <| { m with log := { m.log with n := 0 } }.goto p (.bget rootdev m.log.start (.head true))
  | .dst lbuf tail => some <| m.goto p (.bget rootdev (m.log.sector tail) (.dstBuf lbuf tail))
  | .copy lbuf dbuf tail => some <| (m.store dbuf (m.buf lbuf).data).bwrite p dbuf (.install lbuf tail)
  | .relseLog lbuf dbuf tail => some <| m.brelse p lbuf (.relseDst dbuf tail)
  | .relseDst dbuf tail => some <| m.brelse p dbuf (.install (tail + 1))
  | .unlock => some <| { m with log := { m.log with busy := false } }.goto p .client
  | .panic _ => none

def exec (m : Machine P) : List (P × Op) → Option (Machine P)
  | [] => some m
  | (p, op) :: ops => (m.step p op).bind fun m => m.exec ops

theorem exec_keeps {I : Machine P → Prop} (hStep : ∀ m p op m', step m p op = some m' → I m → I m')
    {m m' : Machine P} {ops : List (P × Op)} (hExec : m.exec ops = some m') (hm : I m) : I m' := by
  induction ops generalizing m with
  | nil => exact Option.some.inj hExec ▸ hm
  | cons a ops ih =>
    obtain ⟨p, op⟩ := a
    obtain ⟨m₁, hm₁, hExec⟩ := Option.bind_eq_some_iff.mp hExec
    exact ih hExec (hStep m p op m₁ hm₁ hm)

/-- After `binit`: no buffer is in use. -/
def boot (disk : Disk) (disksize : Nat) (log : Log) : Machine P :=
  ⟨Cache.binit, disk, disksize, log, fun _ => .client, fun _ _ => false, fun _ => false, disk⟩

end Machine

end Xv6Rpi.Bio
