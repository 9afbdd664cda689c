import Mathlib.Data.Finset.Card
import Xv6Rpi.Bio.Runs
import Xv6Rpi.Lib.Run

/-! # Room in the buffer cache

One process at a time is in a transaction; it alone changes buffers, and it passes them to
`log_write`, never to `bwrite`. The others read. A buffer that is dirty and free holds a block
of the transaction that is logged and not yet written home; with the buffers that are busy,
these are all that `bget` cannot take.
-/

namespace Xv6Rpi.Bio

open Fs (Block Disk Log logIndex logsize)

structure Trans (P : Type) where
  m : Machine P
  owner : Option P

def Caller.installed : Caller → Nat
  | .logBuf tail => tail
  | .dstBuf _ tail => tail
  | _ => 0

/-- How many of the logged blocks `install_trans` has written home. -/
def Pc.installed : Pc → Nat
  | .bget _ _ k => k.installed
  | .asleep _ _ _ k => k.installed
  | .bread _ _ _ k => k.installed
  | .bwrite _ (.install _ tail) => tail
  | .install tail => tail
  | .dst _ tail => tail
  | .copy _ _ tail => tail
  | .relseLog _ _ tail => tail + 1
  | .relseDst _ tail => tail + 1
  | _ => 0

def Pc.Reads : Pc → Prop
  | .client => True
  | .bget _ _ k => k = .client
  | .asleep _ _ _ k => k = .client
  | .bread _ _ _ k => k = .client
  | .panic _ => True
  | _ => False

/-- The buffer that a process is just writing to the disk, or was when the kernel panicked. -/
def Pc.Writes : Pc → Ref → Prop
  | .bwrite b _, b' => b' = b
  | .panic _, _ => True
  | _, _ => False

namespace Trans

variable {P : Type} [DecidableEq P]

def allows (t : Trans P) (p : P) (op : Op) : Prop :=
  match t.m.pc p, op with
  | .client, .modify _ _ => t.owner = some p
  | .client, .logWrite _ => t.owner = some p
  | .client, .commitTrans => t.owner = some p
  | .client, .bwrite _ => False
  | _, _ => True

instance (t : Trans P) (p : P) (op : Op) : Decidable (t.allows p op) := by
  unfold allows
  split <;> infer_instance

/-- `begin_trans` makes its caller the owner, and the end of `commit_trans` nobody. -/
def ownerAfter (t : Trans P) (p : P) (op : Op) : Option P :=
  match t.m.pc p, op with
  | .client, .beginTrans => some p
  | .unlock, _ => none
  | _, _ => t.owner

def step (t : Trans P) : P × Op → Option (Trans P)
  | (p, op) => if t.allows p op then (t.m.step p op).map fun m => ⟨m, t.ownerAfter p op⟩ else none

def boot (disk : Disk) (disksize : Nat) (sb : Fs.Superblock) : Trans P :=
  ⟨Machine.boot disk disksize (Fs.logOf sb), none⟩

def installed (t : Trans P) : Nat := t.owner.elim 0 fun p => (t.m.pc p).installed

def busy (t : Trans P) : Finset Ref := Finset.univ.filter fun b => (t.m.buf b).busy = true

/-- The logged blocks that are not yet written home and whose buffers nobody has. -/
def pinned (t : Trans P) : Finset Nat :=
  (Finset.range t.m.log.n).filter fun i =>
    t.installed ≤ i ∧ ∀ b ∈ t.busy, (t.m.buf b).dev = rootdev → (t.m.buf b).sector ≠ t.m.log.sector i

/-- When a process looks for a sector that is not cached, fewer buffers than there are hold a
block that a process has or that waits for its commit. -/
def HasRoom (t : Trans P) (x : P × Op) (_ : Trans P) : Prop :=
  match t.m.pc x.1 with
  | .bget dev sector _ => t.m.cache.lookup dev sector = none → t.busy.card + t.pinned.card < nbuf
  | _ => True

instance (t : Trans P) (x : P × Op) (t' : Trans P) : Decidable (HasRoom t x t') := by
  unfold HasRoom
  split <;> infer_instance

/-- The buffer's sector is that of a logged block that is not yet written home. -/
def Logged (t : Trans P) (b : Ref) : Prop :=
  ∃ i, t.installed ≤ i ∧ i < t.m.log.n ∧ t.m.log.sector i = (t.m.buf b).sector

end Trans

/-! ## The invariant -/

section Facts

variable {P : Type}

/-- What `log_write` found out about the block it logs as number `i`. -/
def LogsAt (m : Machine P) (b : Ref) (i : Nat) : Prop := i ≤ m.log.n ∧ m.log.sector i = (m.buf b).sector

def Caller.Facts (m : Machine P) (sector : Nat) : Caller → Prop
  | .logWrite b i => LogsAt m b i
  | .dstBuf _ tail => sector = m.log.sector tail
  | _ => True

def Writer.Facts (m : Machine P) (b : Ref) : Writer → Prop
  | .logWrite b' i => LogsAt m b' i
  | .install _ tail => (m.buf b).sector = m.log.sector tail
  | _ => True

/-- What the place of a process in the code says about the log. -/
def Pc.Facts (m : Machine P) : Pc → Prop
  | .bget _ sector k => k.Facts m sector
  | .asleep _ _ sector k => k.Facts m sector
  | .bread _ _ sector k => k.Facts m sector
  | .bwrite b k => k.Facts m b
  | .logCopy b _ i => LogsAt m b i
  | .logRelse b _ i => LogsAt m b i
  | .logMark b i => LogsAt m b i
  | .copy _ dbuf tail => (m.buf dbuf).sector = m.log.sector tail
  | _ => True

theorem Pc.Reads.facts {pc : Pc} (h : pc.Reads) (m : Machine P) : pc.Facts m := by
  cases pc with
  | bget dev sector k | asleep b dev sector k | bread b dev sector k =>
    obtain rfl : k = .client := h
    trivial
  | client | panic => trivial
  | _ => exact h.elim

theorem Pc.Reads.wake {pc : Pc} (h : pc.Reads) (b : Ref) : (pc.wake b).Reads := by
  cases pc with
  | asleep b' dev sector k =>
    simp only [Pc.wake]
    split <;> exact h
  | _ => exact h

theorem Pc.Reads.installed {pc : Pc} (h : pc.Reads) : pc.installed = 0 := by
  cases pc with
  | bget dev sector k | asleep b dev sector k | bread b dev sector k =>
    obtain rfl : k = .client := h
    rfl
  | client | panic => rfl
  | _ => exact h.elim

theorem Caller.installed_pc (b : Ref) (k : Caller) : (k.pc b).installed = k.installed := by cases k <;> rfl

theorem Pc.installed_wake (b : Ref) (pc : Pc) : (pc.wake b).installed = pc.installed := by
  cases pc with
  | asleep b' dev sector k =>
    simp only [Pc.wake]
    split <;> rfl
  | _ => rfl

theorem Pc.writes_wake (b : Ref) (pc : Pc) : (pc.wake b).Writes = pc.Writes := by
  cases pc with
  | asleep b' dev sector k =>
    simp only [Pc.wake]
    split <;> rfl
  | _ => rfl

theorem Pc.facts_wake (b : Ref) (pc : Pc) (m : Machine P) : (pc.wake b).Facts m = pc.Facts m := by
  cases pc with
  | asleep b' dev sector k =>
    simp only [Pc.wake]
    split <;> rfl
  | _ => rfl

theorem Pc.wake_eq_panic {b : Ref} {pc : Pc} {e : Panic} (h : pc.wake b = .panic e) : pc = .panic e := by
  cases pc with
  | asleep b' dev sector k =>
    simp only [Pc.wake] at h
    split at h <;> cases h
  | _ => exact h

end Facts

namespace Trans

variable {P : Type} [DecidableEq P] {t : Trans P} {m' : Machine P} {p : P}

structure Pins (t : Trans P) : Prop where
  flag : ∀ p, t.owner = some p → t.m.log.busy = true
  readers : ∀ q, t.owner ≠ some q → (t.m.pc q).Reads
  dirty : ∀ b, (t.m.buf b).dirty = true → t.Logged b ∨
    ∃ p, t.owner = some p ∧ t.m.held p b = true ∧ (t.m.pc p).Writes b
  facts : ∀ p, t.owner = some p → (t.m.pc p).Facts t.m
  found : ∀ q, t.m.pc q ≠ .panic .bgetNoBuffers

structure Others (m : Machine P) (p : P) (m' : Machine P) : Prop where
  pc : ∀ q, q ≠ p → m'.pc q = m.pc q ∨ ∃ b, m'.pc q = (m.pc q).wake b
  held : ∀ q, q ≠ p → m'.held q = m.held q

omit [DecidableEq P] in
theorem facts_congr {m : Machine P} {pc : Pc} (hLog : m'.log = m.log)
    (hSector : ∀ b ∈ pc.uses, (m'.buf b).sector = (m.buf b).sector) (h : pc.Facts m) : pc.Facts m' := by
  have hAt {b : Ref} {i : Nat} (hb : (m'.buf b).sector = (m.buf b).sector) (h : LogsAt m b i) : LogsAt m' b i := by
    rw [LogsAt, hLog, hb]
    exact h
  have hCaller {sector : Nat} {k : Caller} (hk : ∀ b ∈ k.uses, (m'.buf b).sector = (m.buf b).sector)
      (h : k.Facts m sector) : k.Facts m' sector := by
    cases k with
    | logWrite b i => exact hAt (hk b List.mem_cons_self) h
    | dstBuf lbuf tail =>
      rw [Caller.Facts, hLog]
      exact h
    | _ => trivial
  cases pc with
  | bget dev sector k => exact hCaller hSector h
  | asleep b dev sector k => exact hCaller hSector h
  | bread b dev sector k => exact hCaller (fun b hb => hSector b (List.mem_cons_of_mem _ hb)) h
  | bwrite b k =>
    cases k with
    | logWrite b' i => exact hAt (hSector b' (by simp [Pc.uses, Writer.uses])) h
    | install lbuf tail =>
      rw [Pc.Facts, Writer.Facts, hLog, hSector b List.mem_cons_self]
      exact h
    | _ => trivial
  | logCopy b lbuf i => exact hAt (hSector b List.mem_cons_self) h
  | logRelse b lbuf i => exact hAt (hSector b List.mem_cons_self) h
  | logMark b i => exact hAt (hSector b List.mem_cons_self) h
  | copy lbuf dbuf tail =>
    rw [Pc.Facts, hLog, hSector dbuf (by simp [Pc.uses])]
    exact h
  | _ => trivial

omit [DecidableEq P] in
/-- A step of a process without a transaction. -/
theorem Pins.reader (h : Pins t) (hInv : t.m.Inv) (hp : t.owner ≠ some p) (hOthers : Others t.m p m')
    (hLog : m'.log = t.m.log) (hReads : (m'.pc p).Reads) (hFound : m'.pc p ≠ .panic .bgetNoBuffers)
    (hDirty : ∀ b, (m'.buf b).dirty = true → (t.m.buf b).dirty = true ∧ (m'.buf b).sector = (t.m.buf b).sector)
    (hBusy : ∀ b, (t.m.buf b).busy = true → (m'.buf b).sector = (t.m.buf b).sector) : Pins ⟨m', t.owner⟩ where
  flag q hq := by
    rw [hLog]
    exact h.flag q hq
  readers q hq := by
    rcases eq_or_ne q p with rfl | hne
    · exact hReads
    · obtain he | ⟨b, he⟩ := hOthers.pc q hne
      · rw [he]
        exact h.readers q hq
      · rw [he]
        exact (h.readers q hq).wake b
  dirty b hb := by
    obtain ⟨hOld, hSector⟩ := hDirty b hb
    have hInstalled : installed ⟨m', t.owner⟩ = t.installed := by
      rw [Trans.installed, Trans.installed]
      cases ho : t.owner with
      | none => rfl
      | some q =>
        have hne : q ≠ p := fun he => hp (ho.trans (congrArg some he))
        obtain he | ⟨c, he⟩ := hOthers.pc q hne
        · simp [he]
        · simp [he, Pc.installed_wake]
    obtain ⟨i, hi⟩ | ⟨q, ho, hHeld, hWrites⟩ := h.dirty b hOld
    · left
      rw [Logged, hInstalled]
      dsimp only
      rw [hLog, hSector]
      exact ⟨i, hi⟩
    · have hne : q ≠ p := fun he => hp (ho.trans (congrArg some he))
      refine .inr ⟨q, ho, by rw [hOthers.held q hne]; exact hHeld, ?_⟩
      obtain he | ⟨c, he⟩ := hOthers.pc q hne
      · rw [he]
        exact hWrites
      · rw [he, Pc.writes_wake]
        exact hWrites
  facts q hq := by
    have hne : q ≠ p := fun he => hp (hq.trans (congrArg some he))
    have hSame : (t.m.pc q).Facts m' := facts_congr hLog
      (fun b hb => hBusy b ((hInv.busy b).mpr ⟨q, (hInv.frame q).uses b hb⟩)) (h.facts q hq)
    obtain he | ⟨b, he⟩ := hOthers.pc q hne
    · rw [he]
      exact hSame
    · rw [he, Pc.facts_wake]
      exact hSame
  found q := by
    rcases eq_or_ne q p with rfl | hne
    · exact hFound
    · obtain he | ⟨b, he⟩ := hOthers.pc q hne
      · rw [he]
        exact h.found q
      · rw [he]
        exact fun hb => h.found q (Pc.wake_eq_panic hb)

omit [DecidableEq P] in
theorem Pins.owner (h : Pins t) (hp : t.owner = some p) (hOthers : Others t.m p m')
    (hBusy : m'.log.busy = true) (hFacts : (m'.pc p).Facts m') (hFound : m'.pc p ≠ .panic .bgetNoBuffers)
    (hDirty : ∀ b, (m'.buf b).dirty = true →
      (∃ i, (m'.pc p).installed ≤ i ∧ i < m'.log.n ∧ m'.log.sector i = (m'.buf b).sector) ∨
      m'.held p b = true ∧ (m'.pc p).Writes b) : Pins ⟨m', t.owner⟩ where
  flag _ _ := hBusy
  readers q hq := by
    have hne : q ≠ p := fun he => hq (hp.trans (congrArg some he.symm))
    obtain he | ⟨b, he⟩ := hOthers.pc q hne
    · rw [he]
      exact h.readers q hq
    · rw [he]
      exact (h.readers q hq).wake b
  dirty b hb := by
    obtain ⟨i, hi⟩ | hWrites := hDirty b hb
    · left
      rw [Logged, Trans.installed, hp]
      exact ⟨i, hi⟩
    · exact .inr ⟨p, hp, hWrites⟩
  facts q hq := by
    obtain rfl := Option.some.inj (hp.symm.trans hq)
    exact hFacts
  found q := by
    rcases eq_or_ne q p with rfl | hne
    · exact hFound
    · obtain he | ⟨b, he⟩ := hOthers.pc q hne
      · rw [he]
        exact h.found q
      · rw [he]
        exact fun hb => h.found q (Pc.wake_eq_panic hb)

end Trans

end Xv6Rpi.Bio
