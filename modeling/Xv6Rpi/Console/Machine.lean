import Xv6Rpi.Lib.Queue
import Xv6Rpi.Lib.Run

/-! # Input from the console

The interrupt handler `consoleintr` puts characters into a buffer and lets the user edit the
last line; `consoleread` takes the bytes of finished lines. A step is an interrupt with the
characters that `getc` returns, which holds `input.lock` all the time, or one process executing
`consoleread` from where it takes the lock to where it releases it or sleeps. No process is
killed. The echo on the screen is left out.

The machine is one for any buffer; the one of console.c is `Input`.
-/

namespace Xv6Rpi.Console

def inputBuf : Nat := 128

def lf : UInt8 := 10
def cr : UInt8 := 13
def del : UInt8 := 0x7f
def ctrlD : UInt8 := 4
def ctrlH : UInt8 := 8
def ctrlP : UInt8 := 16
def ctrlU : UInt8 := 21

/-- How the loop of `consoleread` ends, or where it sleeps; `eof` when it has taken a `^D`. -/
inductive End where
  | returns
  | eof
  | sleeps
  deriving DecidableEq

/-! ## console.c -/

structure Input where
  buf : Nat → UInt8
  r : BitVec 32
  w : BitVec 32
  e : BitVec 32

namespace Input

def killLine : Nat → Input → Input
  | 0, x => x
  | n + 1, x =>
    if x.e ≠ x.w ∧ x.buf ((x.e - 1#32).toNat % inputBuf) ≠ lf then killLine n { x with e := x.e - 1#32 } else x

/-- A turn of `consoleintr`, and whether it wakes the readers. -/
def intr (x : Input) (c : UInt8) : Input × Bool :=
  if c = ctrlP then (x, false)
  else if c = ctrlU then (x.killLine (x.e - x.w).toNat, false)
  else if c = ctrlH ∨ c = del then (if x.e ≠ x.w then { x with e := x.e - 1#32 } else x, false)
  else if c ≠ 0 ∧ (x.e - x.r).toNat < inputBuf then
    if c = lf then (x, false)
    else
      let c := if c = cr then lf else c
      let x := { x with buf := Function.update x.buf (x.e.toNat % inputBuf) c, e := x.e + 1#32 }
      if c = lf ∨ c = ctrlD ∨ x.e = x.r + BitVec.ofNat 32 inputBuf then ({ x with w := x.e }, true) else (x, false)
  else (x, false)

/-- The loop of `consoleread` of `target` bytes, with so many left. It returns the bytes that it
stores at `dst`. -/
def read (target : Nat) : Nat → Input → List UInt8 × End × Input
  | 0, x => ([], .returns, x)
  | n + 1, x =>
    if x.r = x.w then ([], .sleeps, x)
    else
      let c := x.buf (x.r.toNat % inputBuf)
      let x := { x with r := x.r + 1#32 }
      if c = ctrlD then
        if n + 1 < target then ([], .returns, { x with r := x.r - 1#32 }) else ([], .eof, x)
      else if c = lf then ([c], .returns, x)
      else
        let (bytes, stop, x) := read target n x
        (c :: bytes, stop, x)

def init : Input := ⟨fun _ => 0, 0, 0, 0⟩

end Input

/-! ## The machine -/

/-- What an interrupt does with a character, and what a read of `target` bytes does that has so
many left. -/
structure Device (B : Type) where
  intr : B → UInt8 → B × Bool
  read : (target : Nat) → Nat → B → List UInt8 × End × B

def console : Device Input := ⟨Input.intr, Input.read⟩

/-- A process outside of `consoleread`, before it takes the lock, and asleep on `&input.r`; with
the size of the read and the bytes that it has so far. -/
inductive Pc where
  | client
  | reading (target : Nat) (got : List UInt8)
  | asleep (target : Nat) (got : List UInt8)

def Pc.got : Pc → List UInt8
  | .client => []
  | .reading _ got => got
  | .asleep _ got => got

def Pc.wake : Pc → Pc
  | .asleep target got => .reading target got
  | pc => pc

/-- A read of `target` bytes that has returned these bytes, and how many bytes had been taken from
the buffer by then. -/
structure Finished (P : Type) where
  reader : P
  target : Nat
  bytes : List UInt8
  past : Nat

/-- The readers; and recorded, the bytes that have been taken from the buffer, those that have
been delivered to processes, and the reads that have returned. -/
structure Readers (P : Type) where
  pc : P → Pc
  past : List UInt8
  delivered : List (P × UInt8)
  finished : List (Finished P)

structure Machine (B P : Type) where
  buffer : B
  readers : Readers P

inductive Op (P : Type) where
  | typed (cs : List UInt8)
  | call (p : P) (target : Nat)
  | run (p : P)

variable {B P : Type} [DecidableEq P]

namespace Readers

def init : Readers P := ⟨fun _ => .client, [], [], []⟩

def wake (x : Readers P) : Readers P := { x with pc := fun p => (x.pc p).wake }

def ended (x : Readers P) (p : P) (target : Nat) (got bytes : List UInt8) : End → Readers P
  | .sleeps => { x with
      pc := Function.update x.pc p (.asleep target (got ++ bytes))
      past := x.past ++ bytes
      delivered := x.delivered ++ bytes.map (p, ·) }
  | .returns => { x with
      pc := Function.update x.pc p .client
      past := x.past ++ bytes
      delivered := x.delivered ++ bytes.map (p, ·)
      finished := x.finished ++ [⟨p, target, got ++ bytes, x.past.length + bytes.length⟩] }
  | .eof => { x with
      pc := Function.update x.pc p .client
      past := x.past ++ bytes ++ [ctrlD]
      delivered := x.delivered ++ bytes.map (p, ·)
      finished := x.finished ++ [⟨p, target, got ++ bytes, x.past.length + bytes.length + 1⟩] }

end Readers

def Device.intrs (d : Device B) : B → List UInt8 → B × Bool
  | b, [] => (b, false)
  | b, c :: cs =>
    let (b, woken) := d.intr b c
    let (b, woken') := d.intrs b cs
    (b, woken || woken')

/-- `none` where the step is not possible; a read has a positive size. -/
def step (d : Device B) (m : Machine B P) : Op P → Option (Machine B P)
  | .typed cs =>
    let (b, woken) := d.intrs m.buffer cs
    some ⟨b, if woken then m.readers.wake else m.readers⟩
  | .call p target => match m.readers.pc p with
    | .client =>
      if 0 < target then
        some { m with readers := { m.readers with pc := Function.update m.readers.pc p (.reading target []) } }
      else none
    | _ => none
  | .run p => match m.readers.pc p with
    | .reading target got =>
      let (bytes, stop, b) := d.read target (target - got.length) m.buffer
      some ⟨b, m.readers.ended p target got bytes stop⟩
    | _ => none

/-! ## One buffer for another -/

variable {B' : Type} {d : Device B} {d' : Device B'} {R : B → B' → Prop}

/-- The devices do the same with buffers that are related, and keep them related. -/
structure Simulates (d : Device B) (d' : Device B') (R : B → B' → Prop) : Prop where
  intr : ∀ b b' c, R b b' → R (d.intr b c).1 (d'.intr b' c).1 ∧ (d.intr b c).2 = (d'.intr b' c).2
  read : ∀ target n b b', R b b' → (d.read target n b).1 = (d'.read target n b').1 ∧
    (d.read target n b).2.1 = (d'.read target n b').2.1 ∧ R (d.read target n b).2.2 (d'.read target n b').2.2

theorem Simulates.intrs (h : Simulates d d' R) (cs : List UInt8) {b : B} {b' : B'} (hR : R b b') :
    R (d.intrs b cs).1 (d'.intrs b' cs).1 ∧ (d.intrs b cs).2 = (d'.intrs b' cs).2 := by
  induction cs generalizing b b' with
  | nil => exact ⟨hR, rfl⟩
  | cons c cs ih =>
    obtain ⟨hNext, hWoken⟩ := h.intr b b' c hR
    obtain ⟨hRest, hLater⟩ := ih hNext
    exact ⟨hRest, by simp only [Device.intrs, hWoken, hLater]⟩

theorem Simulates.step (h : Simulates d d' R) {m m₁ : Machine B P} {op : Op P} (hStep : step d m op = some m₁) {b' : B'}
    (hR : R m.buffer b') : ∃ b₁', Console.step d' ⟨b', m.readers⟩ op = some ⟨b₁', m₁.readers⟩ ∧ R m₁.buffer b₁' := by
  cases op with
  | typed cs =>
    obtain ⟨hNext, hWoken⟩ := h.intrs cs hR
    obtain rfl := Option.some.inj hStep
    exact ⟨_, by simp only [Console.step, hWoken], hNext⟩
  | call p target =>
    simp only [Console.step] at hStep ⊢
    cases hPc : m.readers.pc p with
    | client =>
      rw [hPc] at hStep
      dsimp only at hStep ⊢
      split_ifs at hStep ⊢ with hPos
      obtain rfl := Option.some.inj hStep
      exact ⟨b', rfl, hR⟩
    | reading _ _ => simp only [hPc, reduceCtorEq] at hStep
    | asleep _ _ => simp only [hPc, reduceCtorEq] at hStep
  | run p =>
    simp only [Console.step] at hStep ⊢
    cases hPc : m.readers.pc p with
    | client => simp only [hPc, reduceCtorEq] at hStep
    | asleep _ _ => simp only [hPc, reduceCtorEq] at hStep
    | reading target got =>
      rw [hPc] at hStep
      obtain ⟨hBytes, hStop, hNext⟩ := h.read target (target - got.length) m.buffer b' hR
      obtain rfl := Option.some.inj hStep
      exact ⟨_, by simp only [hBytes, hStop], hNext⟩

theorem Simulates.execute (h : Simulates d d' R) {ops : List (Op P)} {m m₁ : Machine B P}
    (hRun : Xv6Rpi.execute (Console.step d) m ops = some m₁) {b' : B'} (hR : R m.buffer b') :
    ∃ b₁', Xv6Rpi.execute (Console.step d') ⟨b', m.readers⟩ ops = some ⟨b₁', m₁.readers⟩ ∧ R m₁.buffer b₁' := by
  induction ops generalizing m b' with
  | nil =>
    obtain rfl := Option.some.inj hRun
    exact ⟨b', rfl, hR⟩
  | cons op ops ih =>
    obtain ⟨m₂, hStep, hRun⟩ := Option.bind_eq_some_iff.mp hRun
    obtain ⟨b₂', hStep', hNext⟩ := h.step hStep hR
    obtain ⟨b₁', hRun', hEnd⟩ := ih hRun hNext
    exact ⟨b₁', Option.bind_eq_some_iff.mpr ⟨_, hStep', hRun'⟩, hEnd⟩

end Xv6Rpi.Console
