import Xv6Rpi.Pipes.Machine

/-! # Pipes are streams that leave nobody asleep

The bytes in the pipe are those stored and not yet read. Whoever sleeps does so with good
reason: each of the loops changes the pipe only if nobody sleeps for that change, or wakes
all who do.
-/

namespace Xv6Rpi.Pipes

open Queue

def Pipe.contents (p : Pipe) : List UInt8 := Queue.contents pipesize p.data p.nread p.nwrite

def Pipe.count (p : Pipe) : Nat := Queue.count p.nread p.nwrite

def Pipe.Full (p : Pipe) : Prop := p.nwrite = p.nread + BitVec.ofNat 32 pipesize

def Pipe.Empty (p : Pipe) : Prop := p.nread = p.nwrite

def Pipe.isOpen (p : Pipe) : Side → Bool
  | .read => p.readopen
  | .write => p.writeopen

section Loops

variable {p : Pipe}

theorem Pipe.full_iff : p.Full ↔ p.count = pipesize := (count_eq_iff (by decide)).symm

theorem Pipe.count_put (hCount : p.count ≤ pipesize) (hRoom : ¬p.Full) (b : UInt8) :
    (p.put b).count = p.count + 1 ∧ p.count < pipesize := by
  have hNe : p.count ≠ pipesize := fun h => hRoom (full_iff.mpr h)
  have hLt : p.count < pipesize := by omega
  have hSmall : p.count < 512 := hLt
  exact ⟨Queue.count_put (show p.count + 1 < 2 ^ 32 by omega), hLt⟩

theorem Pipe.contents_put (hCount : p.count ≤ pipesize) (hRoom : ¬p.Full) (b : UInt8) :
    (p.put b).contents = p.contents ++ [b] :=
  Queue.contents_put (by decide) (count_put hCount hRoom b).2 (by decide) b

structure Pipe.Writes (p : Pipe) (left : List UInt8) (w : Written) (stored : List UInt8) (p' : Pipe) : Prop where
  contents : p'.contents = p.contents ++ stored
  count : p'.count ≤ pipesize
  isOpen : p'.isOpen = p.isOpen
  full : p.Full → p' = p
  sleeps : ∀ rest, w = .sleeps rest → p'.Full ∧ p'.readopen = true
  broken : w = .broken → p'.readopen = false

theorem Pipe.write_spec (hCount : p.count ≤ pipesize) (left : List UInt8) :
    p.Writes left (p.write left).1 (p.write left).2.1 (p.write left).2.2 := by
  induction left generalizing p with
  | nil =>
    refine ⟨?_, hCount, rfl, fun _ => rfl, ?_, ?_⟩ <;> simp [Pipe.write]
  | cons b left ih =>
    by_cases hFull : p.Full
    · have hWrite : p.write (b :: left) = (if p.readopen = false then .broken else .sleeps (b :: left), [], p) :=
        if_pos hFull
      rw [hWrite]
      refine ⟨(List.append_nil _).symm, hCount, rfl, fun _ => rfl, fun rest hw => ⟨hFull, ?_⟩, fun hw => ?_⟩
      · cases hOpen : p.readopen with
        | true => rfl
        | false => simp [hOpen] at hw
      · cases hOpen : p.readopen with
        | true => simp [hOpen] at hw
        | false => rfl
    · obtain ⟨hPut, hLt⟩ := count_put hCount hFull b
      have hWrite : p.write (b :: left) =
          (((p.put b).write left).1, b :: ((p.put b).write left).2.1, ((p.put b).write left).2.2) := if_neg hFull
      obtain ⟨hContents, hCount', hOpen, -, hSleeps, hBroken⟩ := ih (p := p.put b) (by omega)
      rw [hWrite]
      refine ⟨?_, hCount', hOpen, fun h => absurd h hFull, hSleeps, hBroken⟩
      rw [hContents, contents_put hCount hFull]
      simp

structure Pipe.Reads (p : Pipe) (n : Nat) (bs : List UInt8) (p' : Pipe) : Prop where
  contents : p.contents = bs ++ p'.contents
  count : p'.count ≤ p.count
  isOpen : p'.isOpen = p.isOpen
  empty : p.Empty → p' = p
  none : bs = [] → 0 < n → p.Empty

theorem Pipe.read_spec (n : Nat) : p.Reads n (p.read n).1 (p.read n).2 := by
  induction n generalizing p with
  | zero => exact ⟨rfl, le_rfl, rfl, fun _ => rfl, fun _ hn => absurd hn (by simp)⟩
  | succ n ih =>
    by_cases hEmpty : p.Empty
    · have hRead : p.read (n + 1) = ([], p) := if_pos hEmpty
      rw [hRead]
      exact ⟨rfl, le_rfl, rfl, fun _ => rfl, fun _ _ => hEmpty⟩
    · let q : Pipe := { p with nread := p.nread + 1#32 }
      have hRead : p.read (n + 1) = (p.data (p.nread.toNat % pipesize) :: (q.read n).1, (q.read n).2) := if_neg hEmpty
      have hTake : q.count + 1 = p.count := count_take hEmpty
      obtain ⟨hContents, hCount, hOpen, -, -⟩ := ih (p := q)
      rw [hRead]
      refine ⟨?_, hCount.trans (hTake ▸ Nat.le_succ _), hOpen, fun h => absurd h hEmpty, fun h => absurd h (by simp)⟩
      rw [Pipe.contents, contents_take (by decide) hEmpty, List.cons_append]
      exact congrArg _ hContents

end Loops

/-! ## The invariant -/

namespace Machine

variable {P : Type}

structure Inv (m : Machine P) : Prop where
  fifo : m.stored.map Prod.snd = m.delivered.map Prod.snd ++ m.pipe.contents
  count : m.pipe.count ≤ pipesize
  readers : ∀ p n, m.pc p = .readSleep n → m.pipe.Empty ∧ m.pipe.writeopen = true
  writers : ∀ p n left, m.pc p = .writeSleep n left → m.pipe.Full ∧ m.pipe.readopen = true
  reads : ∀ p n, m.pc p = .read n ∨ m.pc p = .readSleep n → p ∈ m.owners .read
  writes : ∀ p n left, m.pc p = .write n left ∨ m.pc p = .writeSleep n left → p ∈ m.owners .write
  closes : ∀ p s, m.pc p = .close s → m.owners s = []
  opens : ∀ s, m.owners s ≠ [] → m.pipe.isOpen s = true

theorem inv_alloc (p : P) (data : Nat → UInt8) : Inv (alloc p data) := by
  constructor
  case fifo =>
    show [] = [] ++ Queue.contents pipesize data 0#32 0#32
    rw [contents_self, List.append_nil]
  case count => simp [alloc, Pipe.count]
  case opens =>
    intro s _
    cases s <;> rfl
  all_goals simp [alloc]

section Steps

variable [DecidableEq P] {p q : P} {m m' : Machine P}

theorem goto_pc (m : Machine P) (p : P) (pc : Pc) (q : P) : (m.goto p pc).pc q = if q = p then pc else m.pc q := by
  simp [goto, Function.update_apply]

/-- What the other processes find at their places is left by a step in which `p` goes on at a
place where it neither sleeps nor calls. -/
theorem Inv.goto (h : Inv m) {pc : Pc} (hRead : ∀ n, pc = .read n ∨ pc = .readSleep n → p ∈ m.owners .read)
    (hReadSleep : ∀ n, pc = .readSleep n → m.pipe.Empty ∧ m.pipe.writeopen = true)
    (hWrite : ∀ n left, pc = .write n left ∨ pc = .writeSleep n left → p ∈ m.owners .write)
    (hWriteSleep : ∀ n left, pc = .writeSleep n left → m.pipe.Full ∧ m.pipe.readopen = true)
    (hClose : ∀ s, pc = .close s → m.owners s = []) : Inv (m.goto p pc) := by
  constructor
  case fifo => exact h.fifo
  case count => exact h.count
  case opens => exact h.opens
  case readers =>
    intro q n hq
    rw [goto_pc] at hq
    split at hq
    · exact hReadSleep n hq
    · exact h.readers q n hq
  case writers =>
    intro q n left hq
    rw [goto_pc] at hq
    split at hq
    · exact hWriteSleep n left hq
    · exact h.writers q n left hq
  case reads =>
    intro q n hq
    rw [goto_pc] at hq
    split at hq
    · next hqp => exact hqp ▸ hRead n hq
    · exact h.reads q n hq
  case writes =>
    intro q n left hq
    rw [goto_pc] at hq
    split at hq
    · next hqp => exact hqp ▸ hWrite n left hq
    · exact h.writes q n left hq
  case closes =>
    intro q s hq
    rw [goto_pc] at hq
    split at hq
    · exact hClose s hq
    · exact h.closes q s hq

theorem Inv.client (h : Inv m) : Inv (m.goto p .client) := by
  refine h.goto ?_ ?_ ?_ ?_ ?_ <;> simp

theorem Inv.returns (h : Inv m) (p : P) (r : Int) : Inv (m.return' p r) := by
  obtain ⟨h1, h2, h3, h4, h5, h6, h7, h8⟩ := h.client (p := p)
  exact ⟨h1, h2, h3, h4, h5, h6, h7, h8⟩

omit [DecidableEq P] in
theorem Inv.change (h : Inv m) (hOwners : m'.owners = m.owners)
    (hFifo : m'.stored.map Prod.snd = m'.delivered.map Prod.snd ++ m'.pipe.contents)
    (hCount : m'.pipe.count ≤ pipesize) (hOpens : ∀ s, m.owners s ≠ [] → m'.pipe.isOpen s = true)
    (hPc : ∀ q, m'.pc q = m.pc q ∨ (∃ n, m.pc q = .readSleep n ∧ m'.pc q = .read n) ∨
      ∃ n left, m.pc q = .writeSleep n left ∧ m'.pc q = .write n left)
    (hReaders : ∀ q n, m'.pc q = .readSleep n → m'.pipe.Empty ∧ m'.pipe.writeopen = true)
    (hWriters : ∀ q n left, m'.pc q = .writeSleep n left → m'.pipe.Full ∧ m'.pipe.readopen = true) : Inv m' := by
  refine ⟨hFifo, hCount, hReaders, hWriters, fun q n hq => ?_, fun q n left hq => ?_, fun q s hq => ?_, ?_⟩
  · rw [hOwners]
    obtain hSame | ⟨k, hk, hk'⟩ | ⟨k, l, -, hk'⟩ := hPc q
    · exact h.reads q n (hSame ▸ hq)
    · exact h.reads q k (.inr hk)
    · simp [hk'] at hq
  · rw [hOwners]
    obtain hSame | ⟨k, -, hk'⟩ | ⟨k, l, hk, -⟩ := hPc q
    · exact h.writes q n left (hSame ▸ hq)
    · simp [hk'] at hq
    · exact h.writes q k l (.inr hk)
  · rw [hOwners]
    obtain hSame | ⟨k, -, hk'⟩ | ⟨k, l, -, hk'⟩ := hPc q
    · exact h.closes q s (hSame ▸ hq)
    · simp [hk'] at hq
    · simp [hk'] at hq
  · rw [hOwners]
    exact hOpens

omit [DecidableEq P] in
theorem wakeRead_pc (m : Machine P) (q : P) : m.wakeRead.pc q = m.pc q ∧ (∀ n, m.pc q ≠ .readSleep n) ∨
    ∃ n, m.pc q = .readSleep n ∧ m.wakeRead.pc q = .read n := by
  cases hq : m.pc q with
  | readSleep n => exact .inr ⟨n, rfl, by simp [Machine.wakeRead, hq, Pc.wakeRead]⟩
  | _ => exact .inl ⟨by simp [Machine.wakeRead, hq, Pc.wakeRead], by simp⟩

omit [DecidableEq P] in
theorem wakeWrite_pc (m : Machine P) (q : P) : m.wakeWrite.pc q = m.pc q ∧ (∀ n left, m.pc q ≠ .writeSleep n left) ∨
    ∃ n left, m.pc q = .writeSleep n left ∧ m.wakeWrite.pc q = .write n left := by
  cases hq : m.pc q with
  | writeSleep n left => exact .inr ⟨n, left, rfl, by simp [Machine.wakeWrite, hq, Pc.wakeWrite]⟩
  | _ => exact .inl ⟨by simp [Machine.wakeWrite, hq, Pc.wakeWrite], by simp⟩

omit [DecidableEq P] in
/-- A change of the pipe that sleeping writers cannot mind, with `wakeup(&p->nread)`. -/
theorem Inv.changeRead (h : Inv m) {pipe : Pipe} {stored delivered : List (P × UInt8)}
    (hFifo : stored.map Prod.snd = delivered.map Prod.snd ++ pipe.contents) (hCount : pipe.count ≤ pipesize)
    (hOpens : ∀ s, m.owners s ≠ [] → pipe.isOpen s = true)
    (hFull : m.pipe.Full → m.pipe.readopen = true → pipe.Full ∧ pipe.readopen = true) :
    Inv { m with pipe := pipe, stored := stored, delivered := delivered }.wakeRead := by
  set m₁ : Machine P := { m with pipe := pipe, stored := stored, delivered := delivered }
  refine h.change rfl hFifo hCount hOpens (fun q => ?_) (fun q n hq => ?_) (fun q n left hq => ?_)
  · obtain ⟨hq, -⟩ | hq := wakeRead_pc m₁ q
    · exact .inl hq
    · exact .inr (.inl hq)
  · obtain ⟨hSame, hNot⟩ | ⟨k, -, hk⟩ := wakeRead_pc m₁ q
    · exact absurd (hSame.symm.trans hq) (hNot n)
    · exact absurd (hk.symm.trans hq) (by simp)
  · obtain ⟨hSame, -⟩ | ⟨k, -, hk⟩ := wakeRead_pc m₁ q
    · obtain ⟨hFull', hOpen'⟩ := h.writers q n left (hSame.symm.trans hq)
      exact hFull hFull' hOpen'
    · exact absurd (hk.symm.trans hq) (by simp)

omit [DecidableEq P] in
/-- A change of the pipe that sleeping readers cannot mind, with `wakeup(&p->nwrite)`. -/
theorem Inv.changeWrite (h : Inv m) {pipe : Pipe} {stored delivered : List (P × UInt8)}
    (hFifo : stored.map Prod.snd = delivered.map Prod.snd ++ pipe.contents) (hCount : pipe.count ≤ pipesize)
    (hOpens : ∀ s, m.owners s ≠ [] → pipe.isOpen s = true)
    (hEmpty : m.pipe.Empty → m.pipe.writeopen = true → pipe.Empty ∧ pipe.writeopen = true) :
    Inv { m with pipe := pipe, stored := stored, delivered := delivered }.wakeWrite := by
  set m₁ : Machine P := { m with pipe := pipe, stored := stored, delivered := delivered }
  refine h.change rfl hFifo hCount hOpens (fun q => ?_) (fun q n hq => ?_) (fun q n left hq => ?_)
  · obtain ⟨hq, -⟩ | hq := wakeWrite_pc m₁ q
    · exact .inl hq
    · exact .inr (.inr hq)
  · obtain ⟨hSame, -⟩ | ⟨k, l, -, hk⟩ := wakeWrite_pc m₁ q
    · obtain ⟨hEmpty', hOpen'⟩ := h.readers q n (hSame.symm.trans hq)
      exact hEmpty hEmpty' hOpen'
    · exact absurd (hk.symm.trans hq) (by simp)
  · obtain ⟨hSame, hNot⟩ | ⟨k, l, -, hk⟩ := wakeWrite_pc m₁ q
    · exact absurd (hSame.symm.trans hq) (hNot n left)
    · exact absurd (hk.symm.trans hq) (by simp)

omit [DecidableEq P] in
theorem map_snd_pair (p : P) (bs : List UInt8) : (bs.map (p, ·)).map Prod.snd = bs := by
  simp [List.map_map, Function.comp_def]

theorem Inv.pipewrite (h : Inv m) {n : Int} {left : List UInt8} (hPc : m.pc p = .write n left) :
    Inv (m.pipewrite p n left) := by
  have hSpec := Pipe.write_spec h.count left
  have hOwn := h.writes p n left (.inl hPc)
  unfold Machine.pipewrite
  generalize m.pipe.write left = r at hSpec
  obtain ⟨w, stored, pipe⟩ := r
  obtain ⟨hContents, hCount, hOpen, hFull, hSleeps, hBroken⟩ := hSpec
  dsimp only at *
  have hFifo : (m.stored ++ stored.map (p, ·)).map Prod.snd = m.delivered.map Prod.snd ++ pipe.contents := by
    rw [List.map_append, map_snd_pair, h.fifo, hContents, List.append_assoc]
  have hOpens (s : Side) (hs : m.owners s ≠ []) : pipe.isOpen s = true := hOpen ▸ h.opens s hs
  have hKeep (hf : m.pipe.Full) (ho : m.pipe.readopen = true) : pipe.Full ∧ pipe.readopen = true := by
    rw [hFull hf]
    exact ⟨hf, ho⟩
  cases w with
  | done => exact (h.changeRead hFifo hCount hOpens hKeep).returns p n
  | sleeps rest =>
    obtain ⟨hFull', hOpen'⟩ := hSleeps rest rfl
    refine (h.changeRead hFifo hCount hOpens hKeep).goto (by simp) (by simp) (fun k l _ => hOwn) (fun k l _ => ?_) (by simp)
    exact ⟨hFull', hOpen'⟩
  | broken =>
    -- nobody can read any more, so nobody sleeps to read
    have hClosed : m.pipe.readopen = false := (congrFun hOpen .read).symm.trans (hBroken rfl)
    have hNone : m.owners .read = [] := by
      by_contra hne
      have hRead : m.pipe.readopen = true := h.opens .read hne
      rw [hClosed] at hRead
      cases hRead
    have hStay : Inv { m with pipe := pipe, stored := m.stored ++ stored.map (p, ·) } := by
      refine h.change rfl hFifo hCount hOpens (fun q => .inl rfl) (fun q k hq => ?_) (fun q k l hq => ?_)
      · have hq := h.reads q k (.inr hq)
        rw [hNone] at hq
        cases hq
      · have hq := (h.writers q k l hq).2
        rw [hClosed] at hq
        cases hq
    exact hStay.returns p (-1)

theorem Inv.piperead (h : Inv m) {n : Int} (hPc : m.pc p = .read n) : Inv (m.piperead p n) := by
  have hOwn := h.reads p n (.inl hPc)
  unfold Machine.piperead
  split
  · next hWait =>
    split
    · exact h.returns p (-1)
    · refine h.goto (fun k _ => hOwn) (fun k _ => hWait) ?_ ?_ ?_ <;> simp
  · next hGo =>
    have hSpec := Pipe.read_spec (p := m.pipe) n.toNat
    generalize m.pipe.read n.toNat = r at hSpec
    obtain ⟨bs, pipe⟩ := r
    obtain ⟨hContents, hCount, hOpen, -, -⟩ := hSpec
    dsimp only at *
    refine Inv.returns (h.changeWrite ?_ (hCount.trans h.count) (fun s hs => hOpen ▸ h.opens s hs) fun he ho => ?_) p _
    · rw [List.map_append, map_snd_pair, h.fifo, hContents, List.append_assoc]
    · exact absurd ⟨he, ho⟩ hGo

theorem Inv.pipeclose (h : Inv m) {s : Side} (hPc : m.pc p = .close s) : Inv (m.pipeclose p s) := by
  have hNone := h.closes p s hPc
  have hOpens (s' : Side) (hs : m.owners s' ≠ []) : (m.pipe.close s).isOpen s' = true := by
    have hOpen := h.opens s' hs
    cases s <;> cases s'
    · exact absurd hNone hs
    · exact hOpen
    · exact hOpen
    · exact absurd hNone hs
  have hEnd : Inv (m.closeEnd s) := by
    cases s with
    | write => exact h.changeRead h.fifo h.count hOpens fun hf ho => ⟨hf, ho⟩
    | read => exact h.changeWrite h.fifo h.count hOpens fun he ho => ⟨he, ho⟩
  have hFree : Inv (m.closeEnd s).freeClosed := by
    unfold freeClosed
    split
    · obtain ⟨h1, h2, h3, h4, h5, h6, h7, h8⟩ := hEnd
      exact ⟨h1, h2, h3, h4, h5, h6, h7, h8⟩
    · exact hEnd
  exact hFree.client

theorem Inv.call (h : Inv m) (hPc : m.pc p = .client) {op : Op P} (hs : m.call p op = some m') : Inv m' := by
  cases op with
  | write n addr =>
    obtain ⟨hOwn, hs⟩ := Option.ite_none_right_eq_some.mp hs
    obtain rfl := Option.some.inj hs
    exact h.goto (by simp) (by simp) (fun _ _ _ => hOwn) (by simp) (by simp)
  | read n =>
    obtain ⟨hOwn, hs⟩ := Option.ite_none_right_eq_some.mp hs
    obtain rfl := Option.some.inj hs
    exact h.goto (fun _ _ => hOwn) (by simp) (by simp) (by simp) (by simp)
  | dup s q =>
    obtain ⟨hOwn, hs⟩ := Option.ite_none_right_eq_some.mp hs
    obtain rfl := Option.some.inj hs
    have hMem {s' : Side} {r : P} (hr : r ∈ m.owners s') : r ∈ Function.update m.owners s (q :: m.owners s) s' := by
      obtain rfl | hne := eq_or_ne s' s
      · simp [hr]
      · simpa [Function.update_of_ne hne] using hr
    refine ⟨h.fifo, h.count, h.readers, h.writers, fun r n hr => hMem (h.reads r n hr),
      fun r n l hr => hMem (h.writes r n l hr), fun r s' hr => ?_, fun s' hs' => ?_⟩
    · have hNone := h.closes r s' hr
      have hne : s' ≠ s := by
        rintro rfl
        rw [hNone] at hOwn
        cases hOwn
      simpa [Function.update_of_ne hne] using hNone
    · obtain rfl | hne := eq_or_ne s' s
      · exact h.opens s' (List.ne_nil_of_mem hOwn)
      · exact h.opens s' (by simpa [Function.update_of_ne hne] using hs')
  | close s =>
    obtain ⟨hOwn, hs⟩ := Option.ite_none_right_eq_some.mp hs
    obtain rfl := Option.some.inj hs
    have hMem {s' : Side} {r : P} (hne : r ≠ p) (hr : r ∈ m.owners s') :
        r ∈ Function.update m.owners s ((m.owners s).erase p) s' := by
      obtain rfl | hs' := eq_or_ne s' s
      · simpa using (List.mem_erase_of_ne hne).mpr hr
      · simpa [Function.update_of_ne hs'] using hr
    have hBusy {r : P} {pc : Pc} (hr : m.pc r = pc) (hpc : pc ≠ .client) : r ≠ p := by
      rintro rfl
      exact hpc (hr.symm.trans hPc)
    have hNil {s' : Side} (hNone : m.owners s' = []) : Function.update m.owners s ((m.owners s).erase p) s' = [] := by
      obtain rfl | hne := eq_or_ne s' s
      · simp [hNone]
      · simpa [Function.update_of_ne hne] using hNone
    have hDrop : Inv { m with owners := Function.update m.owners s ((m.owners s).erase p) } := by
      refine ⟨h.fifo, h.count, h.readers, h.writers, fun r n hr => ?_, fun r n l hr => ?_, fun r s' hr => ?_,
        fun s' hs' => h.opens s' fun hNone => hs' (hNil hNone)⟩
      · exact hMem (hr.elim (hBusy · (by simp)) (hBusy · (by simp))) (h.reads r n hr)
      · exact hMem (hr.elim (hBusy · (by simp)) (hBusy · (by simp))) (h.writes r n l hr)
      · exact hNil (h.closes r s' hr)
    dsimp only
    split
    · next hLast =>
      refine hDrop.goto (by simp) (by simp) (by simp) (by simp) fun s' hs' => ?_
      obtain rfl := Pc.close.inj hs'
      exact hLast
    · exact hDrop
  | kill q =>
    obtain rfl := Option.some.inj hs
    refine h.change rfl h.fifo h.count h.opens (fun r => ?_) (fun r n hr => ?_) (fun r n l hr => ?_)
    all_goals obtain rfl | hne := eq_or_ne r q
    · cases hpc : m.pc r <;> simp [Pc.wakeRead, Pc.wakeWrite]
    · exact .inl (Function.update_of_ne hne ..)
    · cases hpc : m.pc r <;> simp [hpc, Pc.wakeRead, Pc.wakeWrite] at hr
    · exact h.readers r n (by simpa [Function.update_of_ne hne] using hr)
    · cases hpc : m.pc r <;> simp [hpc, Pc.wakeRead, Pc.wakeWrite] at hr
    · exact h.writers r n l (by simpa [Function.update_of_ne hne] using hr)

theorem Inv.step (h : Inv m) {op : Op P} (hs : m.step p op = some m') : Inv m' := by
  unfold Machine.step at hs
  split at hs
  · next hPc => exact h.call hPc hs
  · next hPc =>
    obtain rfl := Option.some.inj hs
    exact h.pipewrite hPc
  · next hPc =>
    obtain rfl := Option.some.inj hs
    exact h.piperead hPc
  · cases hs
  · cases hs
  · next hPc =>
    obtain rfl := Option.some.inj hs
    exact h.pipeclose hPc

/-! ## Runs -/

theorem inv_exec {data : Nat → UInt8} {ops : List (P × Op P)} (hExec : (alloc p data).exec ops = some m) : Inv m :=
  exec_keeps (fun _ _ _ _ hs hm => hm.step hs) hExec (inv_alloc p data)

/-- The bytes stored are those read, in their order, and after them the bytes in the pipe, at
most `PIPESIZE` of them and as many as the counters say. -/
structure Fifo (m : Machine P) : Prop where
  stream : m.stored.map Prod.snd = m.delivered.map Prod.snd ++ m.pipe.contents
  length : m.pipe.contents.length = (m.pipe.nwrite - m.pipe.nread).toNat
  bound : (m.pipe.nwrite - m.pipe.nread).toNat ≤ pipesize

/-- A `piperead` of at least one byte that returns 0 found the pipe empty and its write end
closed. -/
def EndsAtEof (m : Machine P) (p : P) (m' : Machine P) : Prop :=
  ∀ n, m.pc p = .read n → 0 < n → m'.pc p = .client → m'.ret p = 0 →
    m.pipe.Empty ∧ m.pipe.writeopen = false ∧ m'.pipe = m.pipe

theorem endsAtEof {op : Op P} (hs : m.step p op = some m') : EndsAtEof m p m' := by
  intro n hPc hn hDone hRet
  simp only [Machine.step, hPc] at hs
  obtain rfl := Option.some.inj hs
  unfold Machine.piperead at hDone hRet ⊢
  split
  · next hWait =>
    rw [if_pos hWait] at hDone hRet
    split at hRet
    · simp [return'] at hRet
    · next hAlive => simp [hAlive, goto_pc] at hDone
  · next hGo =>
    rw [if_neg hGo] at hRet
    obtain ⟨-, -, -, hEmpty, hNone⟩ := Pipe.read_spec (p := m.pipe) n.toNat
    have hNil : (m.pipe.read n.toNat).1 = [] := by simpa [return'] using hRet
    have hAtEnd : m.pipe.Empty := hNone hNil (by omega)
    refine ⟨hAtEnd, ?_, hEmpty hAtEnd⟩
    cases ho : m.pipe.writeopen with
    | false => rfl
    | true => exact absurd ⟨hAtEnd, ho⟩ hGo

/-- Nobody sleeps to read from a pipe that has bytes or no writer, nor to write to one that has
room or no reader. -/
structure NobodyStuck (m : Machine P) : Prop where
  readers : ∀ p n, m.pc p = .readSleep n → m.pipe.nread = m.pipe.nwrite ∧ m.pipe.writeopen = true
  writers : ∀ p n left, m.pc p = .writeSleep n left →
    m.pipe.nwrite = m.pipe.nread + BitVec.ofNat 32 pipesize ∧ m.pipe.readopen = true

/-- In every interleaving a pipe is a stream, also after its counters have wrapped. -/
theorem pipe_fifo (p : P) (data : Nat → UInt8) (ops : List (P × Op P))
    (hExec : (alloc p data).exec ops = some m) :
    Fifo m ∧ ∀ q op m', m.step q op = some m' → EndsAtEof m q m' := by
  have h := inv_exec hExec
  exact ⟨⟨h.fifo, length_contents, h.count⟩, fun q op m' hs => endsAtEof hs⟩

/-- In every interleaving nobody is left asleep on a pipe that is ready. -/
theorem pipe_nobody_stuck (p : P) (data : Nat → UInt8) (ops : List (P × Op P))
    (hExec : (alloc p data).exec ops = some m) : NobodyStuck m :=
  ⟨(inv_exec hExec).readers, (inv_exec hExec).writers⟩

end Steps

/-- A writer puts three bytes into the pipe and closes its end; a reader takes two bytes and then the last
one, and comes to read again. -/
def writeAndClose : List (Bool × Op Bool) :=
  [(true, .dup .read false), (true, .write 3 fun i => UInt8.ofNat (7 + i)), (true, .kill true), (false, .read 2),
    (false, .read 2), (true, .close .write), (true, .kill true), (false, .read 2), (false, .read 2), (false, .read 2)]

/-- What has been read is what has been written, and now the reader gets 0. -/
theorem pipe_fifo_writeAndClose : ∃ m m', (alloc true fun _ => 0).exec writeAndClose = some m ∧ Fifo m ∧
    m.stored = [(true, 7), (true, 8), (true, 9)] ∧ m.delivered = [(false, 7), (false, 8), (false, 9)] ∧
    m.step false (.read 2) = some m' ∧ m'.ret false = 0 ∧ m.pipe.Empty ∧ m.pipe.writeopen = false := by
  have hResult : ((alloc true fun _ => 0).exec writeAndClose).bind (fun m => (m.step false (.read 2)).map fun m' =>
      (m.stored, m.delivered, m.pc false, m'.pc false, m'.ret false)) =
      some ([(true, 7), (true, 8), (true, 9)], [(false, 7), (false, 8), (false, 9)], .read 2, .client, 0) := by
    decide +kernel
  obtain ⟨m, hm, hNext⟩ := Option.bind_eq_some_iff.mp hResult
  obtain ⟨m', hs, hEq⟩ := Option.map_eq_some_iff.mp hNext
  obtain ⟨hStored, hEq⟩ := Prod.mk.inj hEq
  obtain ⟨hDelivered, hEq⟩ := Prod.mk.inj hEq
  obtain ⟨hPc, hEq⟩ := Prod.mk.inj hEq
  obtain ⟨hDone, hRet⟩ := Prod.mk.inj hEq
  obtain ⟨hFifo, hEnds⟩ := pipe_fifo true _ writeAndClose hm
  obtain ⟨hEmpty, hClosed, -⟩ := hEnds false _ m' hs 2 hPc (by decide) hDone hRet
  exact ⟨m, m', hm, hFifo, hStored, hDelivered, hs, hRet, hEmpty, hClosed⟩

/-! A writer fills the pipe and sleeps. -/

def fill : List (Bool × Op Bool) := [(true, .dup .read false), (true, .write 513 fun _ => 7), (true, .kill true)]

theorem pipe_nobody_stuck_filled : ∃ m, (alloc true fun _ => 0).exec fill = some m ∧
    m.pc true = .writeSleep 513 [7] ∧ NobodyStuck m := by
  have hRun : ((alloc true fun _ => 0).exec fill).any (fun m => m.pc true = .writeSleep 513 [7]) =
      true := by
    decide +kernel
  obtain ⟨m, hm, hPc⟩ := (Option.any_eq_true _ _).mp hRun
  exact ⟨m, hm, by simpa using hPc, pipe_nobody_stuck true _ _ hm⟩

end Machine

end Xv6Rpi.Pipes
