import Xv6Rpi.Bio.Room

/-! # Dirty buffers are pinned by the log

Every step of every process keeps it that a dirty buffer which nobody has holds a logged block
that is not yet home. So `bget` finds a buffer as long as the busy buffers and these blocks are
fewer than the buffers.
-/

namespace Xv6Rpi.Bio

open Fs (Block Disk Log logIndex logsize)

namespace Trans

variable {P : Type} [DecidableEq P] {t : Trans P} {m m' m'' : Machine P} {p : P}

/-! ## What a step leaves to the others -/

theorem others_goto (pc : Pc) (hPc : ∀ q, q ≠ p → m''.pc q = m.pc q ∨ ∃ b, m''.pc q = (m.pc q).wake b)
    (hHeld : ∀ q, q ≠ p → m''.held q = m.held q) : Others m p (m''.goto p pc) where
  pc q hq := by
    rw [Machine.goto_pc_of_ne _ _ hq]
    exact hPc q hq
  held q hq := hHeld q hq

theorem others_bwrite (b : Ref) (k : Writer) (hPc : m''.pc = m.pc) (hHeld : m''.held = m.held) :
    Others m p (m''.bwrite p b k) := by
  rw [Machine.bwrite]
  split
  · exact others_goto _ (fun _ _ => .inl (by rw [hPc])) fun _ _ => by rw [hHeld]
  · exact others_goto _ (fun _ _ => .inl (by rw [← hPc])) fun _ _ => by rw [← hHeld]

theorem others_iderw (b : Ref) (pc : Pc) : Others m p (m.iderw p b pc) := by
  rw [Machine.iderw]
  split
  · exact others_goto _ (fun _ _ => .inl rfl) fun _ _ => rfl
  · split
    · exact others_goto _ (fun _ _ => .inl rfl) fun _ _ => rfl
    · exact others_goto _ (fun _ _ => .inl rfl) fun _ _ => rfl

theorem others_brelse (b : Ref) (pc : Pc) : Others m p (m.brelse p b pc) := by
  rw [Machine.brelse]
  split
  · exact others_goto _ (fun _ _ => .inl rfl) fun _ _ => rfl
  · exact others_goto _ (fun _ _ => .inr ⟨b, rfl⟩) fun _ hq => Function.update_of_ne hq _ _

theorem others_take (b : Ref) (f : Buf → Buf) (pc : Pc) : Others m p (m.take p b f pc) :=
  others_goto _ (fun _ _ => .inl rfl) fun _ hq => Function.update_of_ne hq _ _

theorem others_call {op : Op} (hs : m.call p op = some m') : Others m p m' := by
  cases op with
  | bread dev sector =>
    obtain rfl := Option.some.inj hs
    exact others_goto _ (fun _ _ => .inl rfl) fun _ _ => rfl
  | modify b data =>
    obtain ⟨-, he⟩ := Option.ite_none_right_eq_some.mp hs
    obtain rfl := Option.some.inj he
    exact ⟨fun _ _ => .inl rfl, fun _ _ => rfl⟩
  | bwrite b =>
    obtain ⟨-, he⟩ := Option.ite_none_right_eq_some.mp hs
    obtain rfl := Option.some.inj he
    exact others_bwrite b .client rfl rfl
  | logWrite b =>
    obtain ⟨-, he⟩ := Option.ite_none_right_eq_some.mp hs
    obtain rfl := Option.some.inj he
    rw [Machine.logWrite]
    split
    · exact others_goto _ (fun _ _ => .inl rfl) fun _ _ => rfl
    · split
      · exact others_goto _ (fun _ _ => .inl rfl) fun _ _ => rfl
      · exact others_goto _ (fun _ _ => .inl rfl) fun _ _ => rfl
  | brelse b =>
    obtain ⟨-, he⟩ := Option.ite_none_right_eq_some.mp hs
    obtain rfl := Option.some.inj he
    exact others_brelse b .client
  | beginTrans =>
    obtain ⟨-, he⟩ := Option.ite_none_left_eq_some.mp hs
    obtain rfl := Option.some.inj he
    exact ⟨fun _ _ => .inl rfl, fun _ _ => rfl⟩
  | commitTrans =>
    obtain rfl := Option.some.inj hs
    exact others_goto _ (fun _ _ => .inl rfl) fun _ _ => rfl

theorem others_step {op : Op} (hs : m.step p op = some m') : Others m p m' := by
  cases hPc : m.pc p with
  | client =>
    simp only [Machine.step, hPc] at hs
    exact others_call hs
  | bget dev sector k =>
    simp only [Machine.step, hPc] at hs
    cases hGet : m.cache.bget dev sector with
    | cached b | recycled b =>
      rw [hGet] at hs
      obtain rfl := Option.some.inj hs
      exact others_take b _ _
    | sleeps | noBuffers =>
      rw [hGet] at hs
      obtain rfl := Option.some.inj hs
      exact others_goto _ (fun _ _ => .inl rfl) fun _ _ => rfl
  | bread b dev sector k =>
    simp only [Machine.step, hPc] at hs
    split at hs
    · obtain rfl := Option.some.inj hs
      exact others_goto _ (fun _ _ => .inl rfl) fun _ _ => rfl
    · obtain rfl := Option.some.inj hs
      exact others_iderw b _
  | bwrite b k =>
    simp only [Machine.step, hPc] at hs
    obtain rfl := Option.some.inj hs
    exact others_iderw b _
  | logCopy | headCopy | copy =>
    simp only [Machine.step, hPc] at hs
    obtain rfl := Option.some.inj hs
    exact others_bwrite _ _ rfl rfl
  | logRelse | headRelse | relseLog | relseDst =>
    simp only [Machine.step, hPc] at hs
    obtain rfl := Option.some.inj hs
    exact others_brelse _ _
  | install tail =>
    simp only [Machine.step, hPc] at hs
    split at hs
    · obtain rfl := Option.some.inj hs
      exact others_goto _ (fun _ _ => .inl rfl) fun _ _ => rfl
    · obtain rfl := Option.some.inj hs
      exact others_goto _ (fun _ _ => .inl rfl) fun _ _ => rfl
  | logMark | dst | unlock =>
    simp only [Machine.step, hPc] at hs
    obtain rfl := Option.some.inj hs
    exact others_goto _ (fun _ _ => .inl rfl) fun _ _ => rfl
  | asleep | panic =>
    simp only [Machine.step, hPc] at hs
    cases hs

/-! ## Which buffers become dirty -/

def NoneDirtied (m m' : Machine P) : Prop := ∀ b, (m'.buf b).dirty = true → (m.buf b).dirty = true

omit [DecidableEq P] in
theorem NoneDirtied.set (b : Ref) (f : Buf → Buf) (hCache : m'.cache = m.cache.set b f)
    (hf : (f (m.buf b)).dirty = true → (m.buf b).dirty = true) : NoneDirtied m m' := by
  intro a ha
  simp only [Machine.buf, hCache] at ha ⊢
  rcases eq_or_ne a b with rfl | hne
  · rw [Cache.set_buf_self] at ha
    exact hf ha
  · rwa [Cache.set_buf_of_ne _ _ hne] at ha

theorem noneDirtied_brelse (m : Machine P) (p : P) (b : Ref) (pc : Pc) : NoneDirtied m (m.brelse p b pc) := by
  rw [Machine.brelse]
  split
  · exact fun _ ha => ha
  · intro a ha
    simp only [Machine.buf, Machine.goto, Cache.brelse] at ha ⊢
    rcases eq_or_ne a b with rfl | hne
    · rwa [Cache.set_buf_self] at ha
    · rwa [Cache.set_buf_of_ne _ _ hne] at ha

theorem noneDirtied_iderw (m : Machine P) (p : P) (b : Ref) (pc : Pc) : NoneDirtied m (m.iderw p b pc) := by
  rw [Machine.iderw]
  split
  · exact fun _ ha => ha
  · next d x hi =>
    refine NoneDirtied.set b (fun _ => x) rfl fun hd => ?_
    obtain ⟨-, -, ⟨hOld, -, -⟩ | ⟨-, -, -, rfl⟩⟩ := Machine.iderw_eq_ok hi
    · exact hOld
    · exact hd

/-- `bwrite` makes its buffer dirty and goes on to write it. -/
theorem dirty_rewrite {b c : Ref} {data : Block} {k : Writer} (hBusy : (m.buf b).busy = true)
    (hc : (((m.store b data).bwrite p b k).buf c).dirty = true) : (m.buf c).dirty = true ∨ c = b := by
  have hStill : ((m.store b data).buf b).busy = true := by
    rw [Machine.buf, Machine.store, Cache.set_buf_self]
    exact hBusy
  rw [Machine.bwrite, hStill] at hc
  rcases eq_or_ne c b with rfl | hne
  · exact .inr rfl
  · left
    simpa [Machine.buf, Machine.goto, Machine.store, Cache.set_buf_of_ne _ _ hne] using hc

theorem rewrite_pc {b : Ref} {data : Block} {k : Writer} (hBusy : (m.buf b).busy = true) :
    ((m.store b data).bwrite p b k).pc p = .bwrite b k := by
  have hStill : ((m.store b data).buf b).busy = true := by
    rw [Machine.buf, Machine.store, Cache.set_buf_self]
    exact hBusy
  rw [Machine.bwrite, hStill]
  exact Machine.goto_pc_self _ p _

theorem brelse_pc {b : Ref} (pc : Pc) (hBusy : (m.buf b).busy = true) : (m.brelse p b pc).pc p = pc := by
  rw [Machine.brelse, hBusy]
  exact Machine.goto_pc_self _ p pc

theorem brelse_log (m : Machine P) (p : P) (b : Ref) (pc : Pc) : (m.brelse p b pc).log = m.log := by
  rw [Machine.brelse]
  split <;> rfl

theorem rewrite_log (m : Machine P) (p : P) (b : Ref) (data : Block) (k : Writer) :
    ((m.store b data).bwrite p b k).log = m.log := by
  rw [Machine.bwrite]
  split <;> rfl

theorem iderw_log (m : Machine P) (p : P) (b : Ref) (pc : Pc) : (m.iderw p b pc).log = m.log := by
  rw [Machine.iderw]
  split
  · rfl
  · split <;> rfl

/-! ## Room -/

omit [DecidableEq P] in
theorem Pins.full (h : Pins t) (hInv : t.m.Inv) {dev sector : Nat}
    (hNone : t.m.cache.bget dev sector = .noBuffers) :
    t.m.cache.lookup dev sector = none ∧ nbuf ≤ t.busy.card + t.pinned.card := by
  rw [Cache.bget] at hNone
  cases hLook : t.m.cache.lookup dev sector with
  | some b =>
    rw [hLook] at hNone
    dsimp only at hNone
    split at hNone <;> cases hNone
  | none =>
    rw [hLook] at hNone
    refine ⟨rfl, ?_⟩
    have hFull (b : Ref) (hb : (t.m.buf b).busy = false) : (t.m.buf b).dirty = true := by
      obtain ⟨l, hAll, hl⟩ := hInv.listed
      have hVic : t.m.cache.victim = none := by
        cases hVic : t.m.cache.victim with
        | none => rfl
        | some c =>
          rw [hVic] at hNone
          cases hNone
      rw [Cache.victim, hl.search_prev hl.length_le] at hVic
      have := List.find?_eq_none.mp hVic b (List.mem_reverse.mpr (hAll b))
      have hb' : (t.m.cache.buf b).busy = false := hb
      have hd : (t.m.cache.buf b).dirty = true := by simpa [hb'] using this
      exact hd
    -- a free buffer is dirty, and a dirty free one has a place in the log of its own
    have hPlace : ∀ b ∈ Finset.univ \ t.busy, ∃ i ∈ t.pinned, t.m.log.sector i = (t.m.buf b).sector := by
      intro b hb
      have hFree : (t.m.buf b).busy = false := by
        simpa [busy] using hb
      have hDev := hInv.dev b (hInv.valid b (hFull b hFree))
      obtain ⟨i, hi, hn, hSec⟩ | ⟨p, -, hHeld, -⟩ := h.dirty b (hFull b hFree)
      · refine ⟨i, Finset.mem_filter.mpr ⟨Finset.mem_range.mpr hn, hi, fun c hc hRoot he => ?_⟩, hSec⟩
        obtain rfl := hInv.unique b c (by rw [hDev]; decide) (hDev.trans hRoot.symm) (hSec.symm.trans he.symm)
        simp [busy, hFree] at hc
      · simp [hInv.busy_of_held hHeld] at hFree
    choose! place hIn hSec using hPlace
    have hCard : (Finset.univ \ t.busy).card ≤ t.pinned.card := by
      refine Finset.card_le_card_of_injOn place hIn fun a ha b hb he => ?_
      have hDevOf (c : Ref) (hc : c ∈ Finset.univ \ t.busy) : (t.m.buf c).dev = 1 :=
        hInv.dev c (hInv.valid c (hFull c (by simpa [busy] using hc)))
      have hSame : (t.m.buf a).sector = (t.m.buf b).sector := by rw [← hSec a ha, ← hSec b hb, he]
      exact hInv.unique a b (by rw [hDevOf a ha]; decide) ((hDevOf a ha).trans (hDevOf b hb).symm) hSame
    have hAll : (Finset.univ \ t.busy).card + t.busy.card = nbuf := by
      rw [Finset.card_sdiff_add_card_eq_card (Finset.subset_univ _), Finset.card_univ, Fintype.card_fin]
    omega

/-! ## Steps -/

/-- A step of the owner that changes neither the log nor what it has installed. -/
theorem Pins.quiet (h : Pins t) (hInv : t.m.Inv) {op : Op} (hp : t.owner = some p)
    (hs : t.m.step p op = some m') (hLog : m'.log = t.m.log) (hInst : (m'.pc p).installed ≤ (t.m.pc p).installed)
    (hFacts : (m'.pc p).Facts m') (hFound : m'.pc p ≠ .panic .bgetNoBuffers)
    (hDirty : ∀ b, (m'.buf b).dirty = true →
      ((t.m.buf b).dirty = true ∧ ((t.m.pc p).Writes b → m'.held p b = true ∧ (m'.pc p).Writes b)) ∨
      (m'.held p b = true ∧ (m'.pc p).Writes b)) : Pins ⟨m', t.owner⟩ := by
  refine h.owner hp (others_step hs) (by rw [hLog]; exact h.flag p hp) hFacts hFound fun b hb => ?_
  obtain ⟨hOld, hStill⟩ | hNew := hDirty b hb
  · obtain ⟨i, hi, hn, hSec⟩ | ⟨q, hq, -, hWrites⟩ := h.dirty b hOld
    · left
      rw [hLog, (hInv.pinned hs b hOld).2]
      rw [Trans.installed, hp] at hi
      exact ⟨i, hInst.trans hi, hn, hSec⟩
    · obtain rfl := Option.some.inj (hp.symm.trans hq)
      exact .inr (hStill hWrites)
  · exact .inr hNew

theorem Pins.still (h : Pins t) (hInv : t.m.Inv) {op : Op} (hp : t.owner = some p)
    (hs : t.m.step p op = some m') (hWrites : ∀ b, ¬(t.m.pc p).Writes b) (hLog : m'.log = t.m.log)
    (hInst : (m'.pc p).installed ≤ (t.m.pc p).installed) (hFacts : (m'.pc p).Facts m')
    (hFound : m'.pc p ≠ .panic .bgetNoBuffers) (hDirty : NoneDirtied t.m m') : Pins ⟨m', t.owner⟩ :=
  h.quiet hInv hp hs hLog hInst hFacts hFound fun b hb => .inl ⟨hDirty b hb, fun hw => (hWrites b hw).elim⟩

theorem logAt_logWrite (l : Log) (sector : Nat) :
    logIndex l sector ≤ l.n ∧ ∀ i < l.n, Function.update l.sector (logIndex l sector) sector i = l.sector i := by
  rw [logIndex]
  cases hFind : (List.range l.n).find? fun i => l.sector i = sector with
  | none =>
    refine ⟨le_rfl, fun i hi => ?_⟩
    rw [Option.getD_none, Function.update_of_ne hi.ne]
  | some j =>
    have hj := List.mem_range.mp (List.mem_of_find?_eq_some hFind)
    have hSec : l.sector j = sector := by simpa using List.find?_some hFind
    refine ⟨hj.le, fun i _ => ?_⟩
    rw [Option.getD_some, ← hSec, Function.update_eq_self]

theorem Pins.call (h : Pins t) (hInv : t.m.Inv) {op : Op} (hp : t.owner = some p) (hPc : t.m.pc p = .client)
    (hAllow : t.allows p op) (hs : t.m.step p op = some m') : Pins ⟨m', t.owner⟩ := by
  have hStep := hs
  have hWrites : ∀ b, ¬(t.m.pc p).Writes b := fun b => by
    rw [hPc]
    exact id
  simp only [Machine.step, hPc] at hs
  have hStill (pc : Pc) (hNew : m'.pc p = pc) (hInst : pc.installed = 0) (hFacts : pc.Facts m')
      (hFound : pc ≠ .panic .bgetNoBuffers) (hLog : m'.log = t.m.log) (hDirty : NoneDirtied t.m m') :
      Pins ⟨m', t.owner⟩ := by
    subst hNew
    exact h.still hInv hp hStep hWrites hLog (by rw [hInst]; exact Nat.zero_le _) hFacts hFound hDirty
  cases op with
  | bread dev sector =>
    obtain rfl := Option.some.inj hs
    exact hStill _ (Machine.goto_pc_self _ p _) rfl trivial Pc.noConfusion rfl fun _ hb => hb
  | modify b data =>
    obtain ⟨-, he⟩ := Option.ite_none_right_eq_some.mp hs
    obtain rfl := Option.some.inj he
    exact hStill .client hPc rfl trivial Pc.noConfusion rfl
      (NoneDirtied.set b (fun x => { x with data := data }) rfl id)
  | bwrite b =>
    simp only [allows, hPc] at hAllow
  | logWrite b =>
    obtain ⟨-, he⟩ := Option.ite_none_right_eq_some.mp hs
    obtain rfl := Option.some.inj he
    have hPanic (e : Panic) (he : e ≠ .bgetNoBuffers) (hEq : t.m.logWrite p b = t.m.goto p (.panic e)) :
        Pins ⟨t.m.logWrite p b, t.owner⟩ := by
      rw [hEq] at hStill ⊢
      exact hStill _ (Machine.goto_pc_self _ p _) rfl trivial (fun hb => he (Pc.panic.inj hb)) rfl fun _ hb => hb
    by_cases hBig : logsize ≤ t.m.log.n ∨ t.m.log.size ≤ t.m.log.n + 1
    · exact hPanic .tooBigTrans Panic.noConfusion (if_pos hBig)
    · cases hOpen : t.m.log.busy with
      | false => exact hPanic .outsideTrans Panic.noConfusion (by rw [Machine.logWrite, if_neg hBig, hOpen]; rfl)
      | true =>
        -- a new block goes behind the logged ones, and an old one is logged where it was
        obtain ⟨hLe, hSame⟩ := logAt_logWrite t.m.log (t.m.buf b).sector
        have hEq : t.m.logWrite p b = ({ t.m with log := { t.m.log with
            sector := Function.update t.m.log.sector (logIndex t.m.log (t.m.buf b).sector) (t.m.buf b).sector } }).goto p
              (.bget (t.m.buf b).dev (t.m.log.slot (logIndex t.m.log (t.m.buf b).sector))
                (.logWrite b (logIndex t.m.log (t.m.buf b).sector))) := by
          rw [Machine.logWrite, if_neg hBig, hOpen, Bool.not_true, if_neg Bool.false_ne_true]
        rw [hEq] at hStep ⊢
        refine h.owner hp (others_step hStep) hOpen ?_ ?_ fun c hc => ?_
        · rw [Machine.goto_pc_self]
          exact ⟨hLe, Function.update_self _ _ _⟩
        · rw [Machine.goto_pc_self]
          exact Pc.noConfusion
        · left
          rw [Machine.goto_pc_self]
          obtain ⟨i, -, hn, hSec⟩ | ⟨q, hq, -, hw⟩ := h.dirty c hc
          · exact ⟨i, Nat.zero_le _, hn, (hSame i hn).trans hSec⟩
          · obtain rfl := Option.some.inj (hp.symm.trans hq)
            exact (hWrites c hw).elim
  | brelse b =>
    obtain ⟨⟨hb, -⟩, he⟩ := Option.ite_none_right_eq_some.mp hs
    obtain rfl := Option.some.inj he
    exact hStill .client (brelse_pc .client (hInv.busy_of_held hb)) rfl trivial Pc.noConfusion (brelse_log _ _ _ _)
      (noneDirtied_brelse _ _ _ _)
  | beginTrans =>
    obtain ⟨hNot, -⟩ := Option.ite_none_left_eq_some.mp hs
    exact absurd (h.flag p hp) hNot
  | commitTrans =>
    obtain rfl := Option.some.inj hs
    refine hStill _ (Machine.goto_pc_self _ p _) ?_ ?_ ?_ rfl fun _ hb => hb
    · split <;> rfl
    · split <;> trivial
    · split <;> exact Pc.noConfusion

/-- A process looks for a sector; unless the kernel panics, it comes back to itself, sleeps, or has a buffer. -/
theorem bget_step (hInv : m.Inv) {op : Op} {dev sector : Nat} {k : Caller} (hPc : m.pc p = .bget dev sector k)
    (hs : m.step p op = some m') :
    m'.log = m.log ∧ NoneDirtied m m' ∧
      ((∃ b, m'.pc p = .bread b dev sector k) ∨ (∃ b, m'.pc p = .asleep b dev sector k) ∨
        m.cache.bget dev sector = .noBuffers) := by
  simp only [Machine.step, hPc] at hs
  rcases hInv.toSound.bget_cases dev sector with ⟨b, hGet, -⟩ | ⟨b, hGet⟩ | ⟨b, hGet, -, -, -⟩ | hGet
  · rw [hGet] at hs
    obtain rfl := Option.some.inj hs
    exact ⟨rfl, NoneDirtied.set b (fun x => { x with busy := true }) rfl id, .inl ⟨b, Machine.goto_pc_self _ p _⟩⟩
  · rw [hGet] at hs
    obtain rfl := Option.some.inj hs
    exact ⟨rfl, fun _ hb => hb, .inr (.inl ⟨b, Machine.goto_pc_self _ p _⟩)⟩
  · rw [hGet] at hs
    obtain rfl := Option.some.inj hs
    exact ⟨rfl, NoneDirtied.set b (fun x => ⟨true, false, false, dev, sector, x.data⟩) rfl (fun hb => absurd hb Bool.false_ne_true),
      .inl ⟨b, Machine.goto_pc_self _ p _⟩⟩
  · rw [hGet] at hs
    obtain rfl := Option.some.inj hs
    exact ⟨rfl, fun _ hb => hb, .inr (.inr hGet)⟩

theorem bget_full {op : Op} {dev sector : Nat} {k : Caller} (hPc : m.pc p = .bget dev sector k)
    (hs : m.step p op = some m') (hFull : m.cache.bget dev sector = .noBuffers) :
    m'.pc p = .panic .bgetNoBuffers := by
  simp only [Machine.step, hPc, hFull] at hs
  obtain rfl := Option.some.inj hs
  exact Machine.goto_pc_self _ p _

theorem iderw_pc (m : Machine P) (p : P) (b : Ref) (pc : Pc) :
    (∃ e, (m.iderw p b pc).pc p = .panic e ∧ e ≠ .bgetNoBuffers ∧ (m.iderw p b pc).held = m.held) ∨
      (m.iderw p b pc).pc p = pc ∧ ((m.buf b).dirty = true → ((m.iderw p b pc).buf b).dirty = false) := by
  rw [Machine.iderw]
  split
  · next e hi =>
    refine .inl ⟨e, Machine.goto_pc_self _ p _, ?_, rfl⟩
    rintro rfl
    rw [Bio.iderw] at hi
    repeat' split at hi
    all_goals cases hi
  · next d x hi =>
    refine .inr ⟨Machine.goto_pc_self _ p _, fun hd => ?_⟩
    obtain ⟨-, -, ⟨-, -, rfl⟩ | ⟨hn, -⟩⟩ := Machine.iderw_eq_ok hi
    · simp [Machine.buf, Machine.goto]
    · simp [hd] at hn

/-- Only the search of `bget` panics for want of a buffer. -/
theorem step_found {op : Op} (hs : m.step p op = some m')
    (hGet : ∀ dev sector k, m.pc p = .bget dev sector k → m.cache.bget dev sector ≠ .noBuffers) :
    m'.pc p ≠ .panic .bgetNoBuffers := by
  have hGoto (m'' : Machine P) (pc : Pc) (hNe : pc ≠ .panic .bgetNoBuffers) :
      (m''.goto p pc).pc p ≠ .panic .bgetNoBuffers := by
    rwa [Machine.goto_pc_self]
  have hWrite (m'' : Machine P) (b : Ref) (k : Writer) : (m''.bwrite p b k).pc p ≠ .panic .bgetNoBuffers := by
    rw [Machine.bwrite]
    split <;> exact hGoto _ _ (by simp)
  have hRelse (b : Ref) (pc : Pc) (hNe : pc ≠ .panic .bgetNoBuffers) :
      (m.brelse p b pc).pc p ≠ .panic .bgetNoBuffers := by
    rw [Machine.brelse]
    split
    · exact hGoto _ _ (by simp)
    · exact hGoto _ _ hNe
  have hDisk (b : Ref) (pc : Pc) (hNe : pc ≠ .panic .bgetNoBuffers) :
      (m.iderw p b pc).pc p ≠ .panic .bgetNoBuffers := by
    obtain ⟨e, hNew, he, -⟩ | ⟨hNew, -⟩ := iderw_pc m p b pc
    · rw [hNew]
      exact fun hb => he (Pc.panic.inj hb)
    · rwa [hNew]
  cases hPc : m.pc p with
  | client =>
    simp only [Machine.step, hPc] at hs
    cases op with
    | bread dev sector =>
      obtain rfl := Option.some.inj hs
      exact hGoto _ _ Pc.noConfusion
    | modify b data =>
      obtain ⟨-, he⟩ := Option.ite_none_right_eq_some.mp hs
      obtain rfl := Option.some.inj he
      exact fun hb => Pc.noConfusion (hPc.symm.trans hb)
    | bwrite b =>
      obtain ⟨-, he⟩ := Option.ite_none_right_eq_some.mp hs
      obtain rfl := Option.some.inj he
      exact hWrite _ _ _
    | logWrite b =>
      obtain ⟨-, he⟩ := Option.ite_none_right_eq_some.mp hs
      obtain rfl := Option.some.inj he
      rw [Machine.logWrite]
      split
      · exact hGoto _ _ (by simp)
      · split <;> exact hGoto _ _ (by simp)
    | brelse b =>
      obtain ⟨-, he⟩ := Option.ite_none_right_eq_some.mp hs
      obtain rfl := Option.some.inj he
      exact hRelse _ _ Pc.noConfusion
    | beginTrans =>
      obtain ⟨-, he⟩ := Option.ite_none_left_eq_some.mp hs
      obtain rfl := Option.some.inj he
      exact fun hb => Pc.noConfusion (hPc.symm.trans hb)
    | commitTrans =>
      obtain rfl := Option.some.inj hs
      refine hGoto _ _ ?_
      split <;> exact Pc.noConfusion
  | bget dev sector k =>
    simp only [Machine.step, hPc] at hs
    cases hFind : m.cache.bget dev sector with
    | noBuffers => exact absurd hFind (hGet dev sector k hPc)
    | _ =>
      rw [hFind] at hs
      obtain rfl := Option.some.inj hs
      exact hGoto _ _ Pc.noConfusion
  | bread b dev sector k =>
    simp only [Machine.step, hPc] at hs
    have hBack := Machine.Caller.pc_ne_panic b k .bgetNoBuffers
    split at hs
    · obtain rfl := Option.some.inj hs
      exact hGoto _ _ hBack
    · obtain rfl := Option.some.inj hs
      exact hDisk _ _ hBack
  | bwrite b k =>
    simp only [Machine.step, hPc] at hs
    obtain rfl := Option.some.inj hs
    exact hDisk _ _ (by cases k <;> exact Pc.noConfusion)
  | logCopy | headCopy | copy =>
    simp only [Machine.step, hPc] at hs
    obtain rfl := Option.some.inj hs
    exact hWrite _ _ _
  | logRelse | relseLog | relseDst =>
    simp only [Machine.step, hPc] at hs
    obtain rfl := Option.some.inj hs
    exact hRelse _ _ Pc.noConfusion
  | headRelse b erase =>
    simp only [Machine.step, hPc] at hs
    obtain rfl := Option.some.inj hs
    exact hRelse _ _ (by split <;> exact Pc.noConfusion)
  | install tail =>
    simp only [Machine.step, hPc] at hs
    split at hs
    · obtain rfl := Option.some.inj hs
      exact hGoto _ _ Pc.noConfusion
    · obtain rfl := Option.some.inj hs
      exact hGoto _ _ Pc.noConfusion
  | logMark | dst | unlock =>
    simp only [Machine.step, hPc] at hs
    obtain rfl := Option.some.inj hs
    exact hGoto _ _ Pc.noConfusion
  | asleep | panic =>
    simp only [Machine.step, hPc] at hs
    cases hs

theorem Pins.bread (h : Pins t) (hInv : t.m.Inv) {op : Op} (hp : t.owner = some p) {b : Ref} {dev sector : Nat}
    {k : Caller} (hPc : t.m.pc p = .bread b dev sector k) (hs : t.m.step p op = some m') : Pins ⟨m', t.owner⟩ := by
  have hWrites : ∀ c, ¬(t.m.pc p).Writes c := fun c => by
    rw [hPc]
    exact id
  have hKept := hInv.kept hs
  have hStep := hs
  obtain ⟨-, hUses, -, -, hWanted⟩ := hInv.frame p
  have hOld := h.facts p hp
  rw [hPc] at hOld hUses
  have hSector := (hWanted b dev sector k hPc).2
  have hFacts (hLog : m'.log = t.m.log) : (k.pc b).Facts m' := by
    have hSame (c : Ref) (hc : c ∈ b :: k.uses) : (m'.buf c).sector = (t.m.buf c).sector :=
      (hKept c (.inr (hInv.busy_of_held (hUses c hc)))).2
    have hNow : k.Facts t.m sector := hOld
    cases k with
    | logWrite b' i =>
      refine ⟨hLog ▸ hNow.1, ?_⟩
      rw [hLog, hSame b' (by simp [Caller.uses])]
      exact hNow.2
    | dstBuf lbuf tail =>
      change (m'.buf b).sector = m'.log.sector tail
      rw [hSame b List.mem_cons_self, hSector, hLog]
      exact hNow
    | _ => trivial
  simp only [Machine.step, hPc] at hs
  split at hs
  · obtain rfl := Option.some.inj hs
    refine h.still hInv hp hStep hWrites rfl ?_ ?_ ?_ fun _ hc => hc
    · rw [Machine.goto_pc_self, hPc, Caller.installed_pc]
      rfl
    · rw [Machine.goto_pc_self]
      exact hFacts rfl
    · rw [Machine.goto_pc_self]
      exact Machine.Caller.pc_ne_panic b k _
  · obtain rfl := Option.some.inj hs
    have hLog := iderw_log t.m p b (k.pc b)
    obtain ⟨e, hNew, he, -⟩ | ⟨hNew, -⟩ := iderw_pc t.m p b (k.pc b)
    · refine h.still hInv hp hStep hWrites hLog ?_ ?_ ?_ (noneDirtied_iderw _ _ _ _)
      · rw [hNew]
        exact Nat.zero_le _
      · rw [hNew]
        trivial
      · rw [hNew]
        exact fun hb => he (Pc.panic.inj hb)
    · refine h.still hInv hp hStep hWrites hLog ?_ ?_ ?_ (noneDirtied_iderw _ _ _ _)
      · rw [hNew, hPc, Caller.installed_pc]
        rfl
      · rw [hNew]
        exact hFacts hLog
      · rw [hNew]
        exact Machine.Caller.pc_ne_panic b k _

/-- A buffer goes to the disk; for `install_trans` that is one logged block more that is home. -/
theorem Pins.bwrite (h : Pins t) (hInv : t.m.Inv) {op : Op} (hp : t.owner = some p) {b : Ref} {k : Writer}
    (hPc : t.m.pc p = .bwrite b k) (hs : t.m.step p op = some m') : Pins ⟨m', t.owner⟩ := by
  have hStep := hs
  have hOld := h.facts p hp
  have hUses := (hInv.frame p).uses
  rw [hPc] at hOld hUses
  have hSame (c : Ref) (hc : c ∈ b :: k.uses) : (m'.buf c).sector = (t.m.buf c).sector :=
    (hInv.kept hs c (.inr (hInv.busy_of_held (hUses c hc)))).2
  simp only [Machine.step, hPc] at hs
  obtain rfl := Option.some.inj hs
  have hLog := iderw_log t.m p b (k.pc b)
  obtain ⟨e, hNew, he, hHeld⟩ | ⟨hNew, hClean⟩ := iderw_pc t.m p b (k.pc b)
  · refine h.quiet hInv hp hStep hLog ?_ ?_ ?_ fun c hc => .inl ⟨noneDirtied_iderw _ _ _ _ c hc, fun hw => ?_⟩
    · rw [hNew]
      exact Nat.zero_le _
    · rw [hNew]
      trivial
    · rw [hNew]
      exact fun hb => he (Pc.panic.inj hb)
    · rw [hPc] at hw
      obtain rfl : c = b := hw
      rw [hNew, hHeld]
      exact ⟨hUses c List.mem_cons_self, trivial⟩
  · have hFacts : (k.pc b).Facts (t.m.iderw p b (k.pc b)) := by
      cases k with
      | logWrite b' i =>
        have hNow : LogsAt t.m b' i := hOld
        change LogsAt _ b' i
        rw [LogsAt, hLog, hSame b' (by simp [Writer.uses])]
        exact hNow
      | _ => trivial
    refine h.owner hp (others_step hStep) (by rw [hLog]; exact h.flag p hp) (by rw [hNew]; exact hFacts) ?_
      fun c hc => .inl ?_
    · rw [hNew]
      cases k <;> exact Pc.noConfusion
    · have hDirty := noneDirtied_iderw _ _ _ _ c hc
      have hne : c ≠ b := by
        rintro rfl
        simp [hClean hDirty] at hc
      obtain ⟨i, hi, hn, hSec⟩ | ⟨q, hq, -, hw⟩ := h.dirty c hDirty
      · rw [hLog, (hInv.pinned hStep c hDirty).2, hNew]
        refine ⟨i, ?_, hn, hSec⟩
        rw [Trans.installed, hp, Option.elim, hPc] at hi
        cases k with
        | install lbuf tail =>
          -- the block just written home is that of no other buffer
          have hHome : (t.m.buf b).sector = t.m.log.sector tail := hOld
          refine Nat.lt_of_le_of_ne hi fun hEq => hne ?_
          have hDevC := hInv.dev c (hInv.valid c hDirty)
          have hDevB : (t.m.buf b).dev = 1 := by
            refine hInv.dev b (((hInv.frame p).filled b (hUses b List.mem_cons_self)).resolve_right ?_)
            rw [hPc]
            exact id
          refine hInv.unique c b (by rw [hDevC]; decide) (hDevC.trans hDevB.symm) ?_
          rw [← hSec, hHome, ← hEq]
        | _ => exact Nat.zero_le _
      · obtain rfl := Option.some.inj (hp.symm.trans hq)
        rw [hPc] at hw
        exact (hne hw).elim

theorem Pins.rewrite (h : Pins t) (hInv : t.m.Inv) {op : Op} (hp : t.owner = some p) {b : Ref} {data : Block}
    {k : Writer} (hWrites : ∀ c, ¬(t.m.pc p).Writes c) (hb : t.m.held p b = true)
    (hInst : (Pc.bwrite b k).installed ≤ (t.m.pc p).installed) (hs : t.m.step p op = some ((t.m.store b data).bwrite p b k))
    (hFacts : k.Facts ((t.m.store b data).bwrite p b k) b) : Pins ⟨(t.m.store b data).bwrite p b k, t.owner⟩ := by
  have hBusy := hInv.busy_of_held hb
  have hNew : ((t.m.store b data).bwrite p b k).pc p = .bwrite b k := rewrite_pc hBusy
  have hHeld : ((t.m.store b data).bwrite p b k).held = t.m.held := by
    rw [Machine.bwrite]
    split <;> rfl
  refine h.quiet hInv hp hs (rewrite_log _ _ _ _ _) (by rw [hNew]; exact hInst) (by rw [hNew]; exact hFacts)
    (by rw [hNew]; exact Pc.noConfusion) fun c hc => ?_
  obtain hOld | rfl := dirty_rewrite hBusy hc
  · exact .inl ⟨hOld, fun hw => (hWrites c hw).elim⟩
  · right
    rw [hHeld, hNew]
    exact ⟨hb, rfl⟩

theorem Pins.release (h : Pins t) (hInv : t.m.Inv) {op : Op} (hp : t.owner = some p) {b : Ref} {pc : Pc}
    (hWrites : ∀ c, ¬(t.m.pc p).Writes c) (hb : t.m.held p b = true) (hInst : pc.installed ≤ (t.m.pc p).installed)
    (hs : t.m.step p op = some (t.m.brelse p b pc)) (hFacts : pc.Facts (t.m.brelse p b pc))
    (hFound : pc ≠ .panic .bgetNoBuffers) : Pins ⟨t.m.brelse p b pc, t.owner⟩ := by
  have hNew : (t.m.brelse p b pc).pc p = pc := brelse_pc pc (hInv.busy_of_held hb)
  exact h.still hInv hp hs hWrites (brelse_log _ _ _ _) (by rw [hNew]; exact hInst) (by rw [hNew]; exact hFacts)
    (by rw [hNew]; exact hFound) (noneDirtied_brelse _ _ _ _)

theorem Pins.mark (h : Pins t) {op : Op} (hp : t.owner = some p) {b : Ref} {i : Nat}
    (hPc : t.m.pc p = .logMark b i) (hs : t.m.step p op = some m') : Pins ⟨m', t.owner⟩ := by
  have hStep := hs
  obtain ⟨hLe, hAt⟩ : LogsAt t.m b i := by
    have := h.facts p hp
    rwa [hPc] at this
  simp only [Machine.step, hPc] at hs
  obtain rfl := Option.some.inj hs
  refine h.owner hp (others_step hStep) (h.flag p hp) (by rw [Machine.goto_pc_self]; trivial)
    (by rw [Machine.goto_pc_self]; exact Pc.noConfusion) fun c hc => .inl ?_
  rw [Machine.goto_pc_self]
  have hMore (j : Nat) (hj : j < t.m.log.n ∨ j = i) : j < if i = t.m.log.n then t.m.log.n + 1 else t.m.log.n := by
    split <;> omega
  rcases eq_or_ne c b with rfl | hne
  · refine ⟨i, Nat.zero_le _, hMore i (.inr rfl), ?_⟩
    simpa [Machine.buf, Machine.goto] using hAt
  · have hSelf : t.m.cache.buf c = t.m.buf c := rfl
    have hOld : (t.m.buf c).dirty = true := by
      simpa [Machine.buf, Machine.goto, Cache.set_buf_of_ne _ _ hne] using hc
    obtain ⟨j, -, hn, hSec⟩ | ⟨q, hq, -, hw⟩ := h.dirty c hOld
    · refine ⟨j, Nat.zero_le _, hMore j (.inl hn), ?_⟩
      simpa [Machine.buf, Machine.goto, Cache.set_buf_of_ne _ _ hne] using hSec
    · obtain rfl := Option.some.inj (hp.symm.trans hq)
      rw [hPc] at hw
      exact hw.elim

theorem Pins.own (h : Pins t) (hInv : t.m.Inv) {op : Op} (hp : t.owner = some p) (hAllow : t.allows p op)
    (hOpen : t.m.pc p ≠ .unlock) (hs : t.m.step p op = some m') (hFound : m'.pc p ≠ .panic .bgetNoBuffers) :
    Pins ⟨m', t.owner⟩ := by
  have hStep := hs
  have hUses := (hInv.frame p).uses
  have hKept := hInv.kept hs
  have hOld := h.facts p hp
  cases hPc : t.m.pc p with
  | client => exact h.call hInv hp hPc hAllow hs
  | bget dev sector k =>
    obtain ⟨hLog, hDirty, hNew⟩ := bget_step hInv hPc hs
    have hWrites : ∀ c, ¬(t.m.pc p).Writes c := fun c => by
      rw [hPc]
      exact id
    rw [hPc] at hUses hOld
    have hFacts : Pc.Facts m' (.bget dev sector k) :=
      facts_congr hLog (fun c hc => (hKept c (.inr (hInv.busy_of_held (hUses c hc)))).2) hOld
    obtain ⟨b, hNew⟩ | ⟨b, hNew⟩ | hFull := hNew
    · exact h.still hInv hp hs hWrites hLog (by rw [hNew, hPc]; rfl) (by rw [hNew]; exact hFacts) hFound hDirty
    · exact h.still hInv hp hs hWrites hLog (by rw [hNew, hPc]; rfl) (by rw [hNew]; exact hFacts) hFound hDirty
    · exact absurd (bget_full hPc hs hFull) hFound
  | bread b dev sector k => exact h.bread hInv hp hPc hs
  | bwrite b k => exact h.bwrite hInv hp hPc hs
  | logMark b i => exact h.mark hp hPc hs
  | asleep | panic =>
    simp only [Machine.step, hPc] at hs
    cases hs
  | logCopy b lbuf i =>
    simp only [Machine.step, hPc] at hs
    obtain rfl := Option.some.inj hs
    rw [hPc] at hUses hOld
    have hNow : LogsAt t.m b i := hOld
    refine h.rewrite hInv hp (by rw [hPc]; exact fun _ => id) (hUses lbuf (by simp [Pc.uses])) (Nat.zero_le _) hStep ?_
    change LogsAt _ b i
    rw [LogsAt, rewrite_log, (hKept b (.inr (hInv.busy_of_held (hUses b List.mem_cons_self)))).2]
    exact hNow
  | headCopy b erase =>
    simp only [Machine.step, hPc] at hs
    obtain rfl := Option.some.inj hs
    rw [hPc] at hUses
    exact h.rewrite hInv hp (by rw [hPc]; exact fun _ => id) (hUses b List.mem_cons_self) (Nat.zero_le _) hStep trivial
  | copy lbuf dbuf tail =>
    simp only [Machine.step, hPc] at hs
    obtain rfl := Option.some.inj hs
    rw [hPc] at hUses hOld
    have hHeld := hUses dbuf (by simp [Pc.uses])
    refine h.rewrite hInv hp (by rw [hPc]; exact fun _ => id) hHeld (by rw [hPc]; rfl) hStep ?_
    change _ = Log.sector _ tail
    rw [rewrite_log, (hKept dbuf (.inr (hInv.busy_of_held hHeld))).2]
    exact hOld
  | logRelse b lbuf i =>
    simp only [Machine.step, hPc] at hs
    obtain rfl := Option.some.inj hs
    rw [hPc] at hUses hOld
    have hNow : LogsAt t.m b i := hOld
    refine h.release hInv hp (by rw [hPc]; exact fun _ => id) (hUses lbuf (by simp [Pc.uses])) (Nat.zero_le _) hStep ?_
      Pc.noConfusion
    change LogsAt _ b i
    rw [LogsAt, brelse_log, (hKept b (.inr (hInv.busy_of_held (hUses b List.mem_cons_self)))).2]
    exact hNow
  | headRelse b erase =>
    simp only [Machine.step, hPc] at hs
    obtain rfl := Option.some.inj hs
    rw [hPc] at hUses
    cases erase with
    | false =>
      exact h.release hInv hp (by rw [hPc]; exact fun _ => id) (hUses b List.mem_cons_self) (Nat.zero_le _) hStep trivial
        Pc.noConfusion
    | true =>
      exact h.release hInv hp (by rw [hPc]; exact fun _ => id) (hUses b List.mem_cons_self) (Nat.zero_le _) hStep trivial
        Pc.noConfusion
  | relseLog lbuf dbuf tail =>
    simp only [Machine.step, hPc] at hs
    obtain rfl := Option.some.inj hs
    rw [hPc] at hUses
    exact h.release hInv hp (by rw [hPc]; exact fun _ => id) (hUses lbuf List.mem_cons_self) (by rw [hPc]; rfl) hStep
      trivial Pc.noConfusion
  | relseDst dbuf tail =>
    simp only [Machine.step, hPc] at hs
    obtain rfl := Option.some.inj hs
    rw [hPc] at hUses
    exact h.release hInv hp (by rw [hPc]; exact fun _ => id) (hUses dbuf List.mem_cons_self) (by rw [hPc]; rfl) hStep
      trivial Pc.noConfusion
  | install tail =>
    simp only [Machine.step, hPc] at hs
    split at hs
    · obtain rfl := Option.some.inj hs
      exact h.still hInv hp hStep (by rw [hPc]; exact fun _ => id) rfl (by rw [Machine.goto_pc_self, hPc]; rfl)
        (by rw [Machine.goto_pc_self]; trivial) (by rw [Machine.goto_pc_self]; exact Pc.noConfusion) fun _ hc => hc
    · next hEnd =>
      obtain rfl := Option.some.inj hs
      refine h.owner hp (others_step hStep) (h.flag p hp) (by rw [Machine.goto_pc_self]; trivial)
        (by rw [Machine.goto_pc_self]; exact Pc.noConfusion) fun c hc => ?_
      -- every logged block is home, so that no buffer is dirty
      obtain ⟨i, hi, hn, -⟩ | ⟨q, hq, -, hw⟩ := h.dirty c hc
      · rw [Trans.installed, hp, Option.elim, hPc] at hi
        exact absurd (Nat.lt_of_le_of_lt hi hn) hEnd
      · obtain rfl := Option.some.inj (hp.symm.trans hq)
        rw [hPc] at hw
        exact hw.elim
  | dst lbuf tail =>
    simp only [Machine.step, hPc] at hs
    obtain rfl := Option.some.inj hs
    exact h.still hInv hp hStep (by rw [hPc]; exact fun _ => id) rfl (by rw [Machine.goto_pc_self, hPc]; rfl)
      (by rw [Machine.goto_pc_self]; rfl) (by rw [Machine.goto_pc_self]; exact Pc.noConfusion) fun _ hc => hc
  | unlock => exact absurd hPc hOpen

theorem Pins.read (h : Pins t) (hInv : t.m.Inv) {op : Op} (hp : t.owner ≠ some p) (hAllow : t.allows p op)
    (hs : t.m.step p op = some m') (hFound : m'.pc p ≠ .panic .bgetNoBuffers)
    (hBegin : t.m.pc p = .client → op ≠ .beginTrans) : Pins ⟨m', t.owner⟩ := by
  have hStep := hs
  have hReads := h.readers p hp
  -- what it does to the cache, it does to buffers that are free or its own
  have hRead (hLog : m'.log = t.m.log) (hNew : (m'.pc p).Reads) (hDirty : NoneDirtied t.m m') :
      Pins ⟨m', t.owner⟩ :=
    h.reader hInv hp (others_step hStep) hLog hNew hFound
      (fun b hb => ⟨hDirty b hb, (hInv.pinned hStep b (hDirty b hb)).2⟩)
      fun b hb => (hInv.kept hStep b (.inr hb)).2
  cases hPc : t.m.pc p with
  | client =>
    simp only [allows, hPc] at hAllow
    simp only [Machine.step, hPc] at hs
    cases op with
    | bread dev sector =>
      obtain rfl := Option.some.inj hs
      exact hRead rfl (by rw [Machine.goto_pc_self]; rfl) fun _ hb => hb
    | brelse b =>
      obtain ⟨⟨hb, -⟩, he⟩ := Option.ite_none_right_eq_some.mp hs
      obtain rfl := Option.some.inj he
      have hNew : (t.m.brelse p b .client).pc p = .client := brelse_pc .client (hInv.busy_of_held hb)
      exact hRead (brelse_log _ _ _ _) (by rw [hNew]; trivial) (noneDirtied_brelse _ _ _ _)
    | bwrite b => exact hAllow.elim
    | beginTrans => exact absurd rfl (hBegin hPc)
    | modify | logWrite | commitTrans => exact absurd hAllow hp
  | bget dev sector k =>
    rw [hPc] at hReads
    obtain ⟨hLog, hDirty, ⟨b, hNew⟩ | ⟨b, hNew⟩ | hFull⟩ := bget_step hInv hPc hs
    · exact hRead hLog (by rw [hNew]; exact hReads) hDirty
    · exact hRead hLog (by rw [hNew]; exact hReads) hDirty
    · exact absurd (bget_full hPc hs hFull) hFound
  | bread b dev sector k =>
    rw [hPc] at hReads
    obtain rfl : k = .client := hReads
    simp only [Machine.step, hPc] at hs
    split at hs
    · obtain rfl := Option.some.inj hs
      exact hRead rfl (by rw [Machine.goto_pc_self]; trivial) fun _ hb => hb
    · obtain rfl := Option.some.inj hs
      obtain ⟨e, hNew, he, -⟩ | ⟨hNew, -⟩ := iderw_pc t.m p b (Caller.client.pc b)
      · exact hRead (iderw_log _ _ _ _) (by rw [hNew]; trivial) (noneDirtied_iderw _ _ _ _)
      · exact hRead (iderw_log _ _ _ _) (by rw [hNew]; trivial) (noneDirtied_iderw _ _ _ _)
  | asleep | panic =>
    simp only [Machine.step, hPc] at hs
    cases hs
  | _ =>
    rw [hPc] at hReads
    exact hReads.elim

theorem Pins.begin (h : Pins t) (hPc : t.m.pc p = .client) (hs : t.m.step p .beginTrans = some m') :
    Pins ⟨m', some p⟩ := by
  simp only [Machine.step, hPc] at hs
  obtain ⟨hFree, he⟩ := Option.ite_none_left_eq_some.mp hs
  obtain rfl := Option.some.inj he
  have hNone : t.owner = none := by
    cases ho : t.owner with
    | none => rfl
    | some q => exact absurd (h.flag q ho) hFree
  refine ⟨fun _ _ => rfl, fun q hq => h.readers q (by rw [hNone]; exact (Option.some_ne_none _).symm), fun b hb => ?_, fun q hq => ?_, h.found⟩
  · obtain ⟨i, -, hn, hSec⟩ | ⟨q, hq, -⟩ := h.dirty b hb
    · refine .inl ⟨i, ?_, hn, hSec⟩
      rw [Trans.installed, Option.elim, hPc]
      exact Nat.zero_le _
    · rw [hNone] at hq
      cases hq
  · obtain rfl := Option.some.inj hq
    rw [hPc]
    trivial

theorem Pins.unlock (h : Pins t) {op : Op} (hp : t.owner = some p) (hPc : t.m.pc p = .unlock)
    (hs : t.m.step p op = some m') : Pins ⟨m', none⟩ := by
  have hOthers := others_step hs
  simp only [Machine.step, hPc] at hs
  obtain rfl := Option.some.inj hs
  refine ⟨fun q hq => absurd hq.symm (Option.some_ne_none _), fun q _ => ?_, fun b hb => .inl ?_,
    fun q hq => absurd hq.symm (Option.some_ne_none _), fun q => ?_⟩
  · rcases eq_or_ne q p with rfl | hne
    · rw [Machine.goto_pc_self]
      trivial
    · rw [Machine.goto_pc_of_ne _ _ hne]
      exact h.readers q fun hq => hne (Option.some.inj (hq.symm.trans hp))
  · obtain ⟨i, -, hn, hSec⟩ | ⟨q, hq, -, hw⟩ := h.dirty b hb
    · exact ⟨i, Nat.zero_le _, hn, hSec⟩
    · obtain rfl := Option.some.inj (hp.symm.trans hq)
      rw [hPc] at hw
      exact hw.elim
  · rcases eq_or_ne q p with rfl | hne
    · rw [Machine.goto_pc_self]
      exact Pc.noConfusion
    · rw [Machine.goto_pc_of_ne _ _ hne]
      exact h.found q

omit [DecidableEq P] in
theorem ownerAfter_eq {op : Op} (hBegin : t.m.pc p = .client → op = .beginTrans → t.owner = some p)
    (hUnlock : t.m.pc p ≠ .unlock) : t.ownerAfter p op = t.owner := by
  unfold ownerAfter
  split
  · next hPc => exact (hBegin hPc rfl).symm
  · next hPc => exact absurd hPc hUnlock
  · rfl

theorem Pins.next (h : Pins t) (hInv : t.m.Inv) {x : P × Op} {t' : Trans P} (hs : t.step x = some t')
    (hFound : t'.m.pc x.1 ≠ .panic .bgetNoBuffers) : Pins t' := by
  obtain ⟨p, op⟩ := x
  obtain ⟨hAllow, hMap⟩ := Option.ite_none_right_eq_some.mp hs
  obtain ⟨m', hMachine, rfl⟩ := Option.map_eq_some_iff.mp hMap
  by_cases hp : t.owner = some p
  · by_cases hUnlock : t.m.pc p = .unlock
    · have hNone : t.ownerAfter p op = none := by simp only [ownerAfter, hUnlock]
      rw [hNone]
      exact h.unlock hp hUnlock hMachine
    · rw [ownerAfter_eq (fun _ _ => hp) hUnlock]
      exact h.own hInv hp hAllow hUnlock hMachine hFound
  · by_cases hBegin : t.m.pc p = .client ∧ op = .beginTrans
    · obtain ⟨hPc, rfl⟩ := hBegin
      have hNew : t.ownerAfter p .beginTrans = some p := by simp only [ownerAfter, hPc]
      rw [hNew]
      exact h.begin hPc hMachine
    · have hUnlock : t.m.pc p ≠ .unlock := fun hPc => by
        have := h.readers p hp
        rw [hPc] at this
        exact this
      rw [ownerAfter_eq (fun hPc hOp => (hBegin ⟨hPc, hOp⟩).elim) hUnlock]
      exact h.read hInv hp hAllow hMachine hFound fun hPc hOp => hBegin ⟨hPc, hOp⟩

theorem HasRoom.found (h : Pins t) (hInv : t.m.Inv) {x : P × Op} {t' : Trans P} (hs : t.step x = some t')
    (hRoom : HasRoom t x t') : t'.m.pc x.1 ≠ .panic .bgetNoBuffers := by
  obtain ⟨p, op⟩ := x
  obtain ⟨-, hMap⟩ := Option.ite_none_right_eq_some.mp hs
  obtain ⟨m', hMachine, rfl⟩ := Option.map_eq_some_iff.mp hMap
  exact step_found hMachine fun dev sector k hPc hFull => by
    obtain ⟨hNone, hLe⟩ := h.full hInv hFull
    simp only [HasRoom, hPc] at hRoom
    exact absurd (hRoom hNone) (by omega)

theorem Pins.step (h : Pins t) (hInv : t.m.Inv) {x : P × Op} {t' : Trans P} (hs : t.step x = some t')
    (hRoom : HasRoom t x t') : Pins t' ∧ t'.m.Inv := by
  refine ⟨h.next hInv hs (hRoom.found h hInv hs), ?_⟩
  obtain ⟨p, op⟩ := x
  obtain ⟨-, hMap⟩ := Option.ite_none_right_eq_some.mp hs
  obtain ⟨m', hMachine, rfl⟩ := Option.map_eq_some_iff.mp hMap
  exact hInv.step hMachine

omit [DecidableEq P] in
theorem Pins.boot (disk : Disk) (disksize : Nat) (sb : Fs.Superblock) : Pins (boot disk disksize sb : Trans P) where
  flag _ hp := by cases hp
  readers _ _ := trivial
  dirty b hb := by
    have hBuf : (Trans.boot disk disksize sb : Trans P).m.buf b = ⟨false, false, false, noDev, 0, Fs.zeroBlock⟩ :=
      Cache.binit_buf b
    rw [hBuf] at hb
    cases hb
  facts _ hp := by cases hp
  found _ := Pc.noConfusion

/-- In every run whose processes find fewer than `NBUF` buffers taken or waiting for their commit
whenever they look for a sector that is not cached, `bget` always finds a buffer. -/
theorem bget_finds_buffer (disk : Disk) (disksize : Nat) (sb : Fs.Superblock) (ops : List (P × Op))
    (hRoom : Along step HasRoom (boot disk disksize sb) ops) (hRun : execute step (boot disk disksize sb) ops = some t)
    (q : P) : t.m.pc q ≠ .panic .bgetNoBuffers := by
  have hBoth : Pins t ∧ t.m.Inv :=
    hRoom.keeps (I := fun t => Pins t ∧ t.m.Inv) (fun t x t' hs hP hI => hI.1.step hI.2 hs hP) hRun
      ⟨.boot disk disksize sb, .boot disk disksize (Fs.logOf sb)⟩
  exact hBoth.1.found q

/-! ## A transaction that finds no buffer

Process 0 writes 1536 bytes at offset 11 * 512 + 100 of a file that has its first twelve blocks
and no indirect block, while three others are copying out of the buffers they read.
-/

def callOps (p : Fin 4) (op : Op) (n : Nat) : List (Fin 4 × Op) := (p, op) :: List.replicate n (p, .beginTrans)

/-- `bread`, a store, `log_write` and `brelse`, as in `writei`, `bzero`, `iupdate` and `balloc`. -/
def changeOps (sector : Nat) (b : Ref) : List (Fin 4 × Op) :=
  callOps 0 (.bread rootdev sector) 2 ++ [(0, .modify b fun _ => 1)] ++ callOps 0 (.logWrite b) 6 ++ [(0, .brelse b)]

/-- `balloc` of the block `sector`: the super block, the bitmap, and the new block in `bzero`. -/
def ballocOps (sbBuf : Ref) (sector : Nat) (b : Ref) : List (Fin 4 × Op) :=
  callOps 0 (.bread rootdev 1) 2 ++ [(0, .brelse sbBuf)] ++ changeOps 28 6 ++ changeOps sector b

def bmapOps (sbBuf : Ref) (sector : Nat) (b : Ref) : List (Fin 4 × Op) :=
  callOps 0 (.bread rootdev 41) 2 ++ ballocOps sbBuf sector b ++ [(0, .modify 8 fun _ => 1)] ++
    callOps 0 (.logWrite 8) 6 ++ [(0, .brelse 8)]

/-- Up to `log_write` of the inode's block. -/
def fullChunk : List (Fin 4 × Op) :=
  callOps 1 (.bread rootdev 50) 2 ++ callOps 2 (.bread rootdev 51) 2 ++ callOps 3 (.bread rootdev 52) 2 ++
    [(0, .beginTrans)] ++ changeOps 40 3 ++ ballocOps 5 41 8 ++ bmapOps 5 42 4 ++ changeOps 42 4 ++
    bmapOps 7 43 9 ++ changeOps 43 9 ++ bmapOps 5 44 5 ++ changeOps 44 5 ++
    callOps 0 (.bread rootdev 2) 2 ++ [(0, .modify 7 fun _ => 1)] ++ callOps 0 (.logWrite 7) 1

def smallTrans : List (Fin 4 × Op) :=
  callOps 1 (.bread rootdev 50) 2 ++ callOps 2 (.bread rootdev 51) 2 ++ callOps 3 (.bread rootdev 52) 2 ++
    [(0, .beginTrans)] ++ changeOps 40 3 ++ callOps 0 .commitTrans 22

theorem bget_finds_buffer_smallTrans :
    ∃ t : Trans (Fin 4), execute step (boot (fun _ => Fs.zeroBlock) 1024 ⟨1024, 985, 200, 10⟩) smallTrans = some t ∧
      t.m.pc 0 ≠ .panic .bgetNoBuffers := by
  have hSome : (execute step (boot (fun _ => Fs.zeroBlock) 1024 ⟨1024, 985, 200, 10⟩ : Trans (Fin 4))
      smallTrans).isSome = true := by
    decide +kernel
  obtain ⟨t, ht⟩ := Option.isSome_iff_exists.mp hSome
  exact ⟨t, ht, bget_finds_buffer _ _ _ smallTrans (by decide +kernel) ht 0⟩

def Pc.foundNone : Pc → Bool
  | .panic .bgetNoBuffers => true
  | _ => false

theorem Pc.foundNone_iff (pc : Pc) : Pc.foundNone pc = true ↔ pc = .panic .bgetNoBuffers := by
  cases pc with
  | panic e => cases e <;> simp [Pc.foundNone]
  | _ => exact iff_of_false Bool.false_ne_true Pc.noConfusion

theorem bget_finds_none :
    ∃ t : Trans (Fin 4), execute step (boot (fun _ => Fs.zeroBlock) 1024 ⟨1024, 985, 200, 10⟩) fullChunk = some t ∧
      t.m.pc 0 = .panic .bgetNoBuffers := by
  have hRun : ((execute step (boot (fun _ => Fs.zeroBlock) 1024 ⟨1024, 985, 200, 10⟩ : Trans (Fin 4)) fullChunk).any
      fun t => Pc.foundNone (t.m.pc 0)) = true := by
    decide +kernel
  obtain ⟨t, ht, hFound⟩ := (Option.any_eq_true _ _).mp hRun
  exact ⟨t, ht, (Pc.foundNone_iff _).mp hFound⟩

end Trans

end Xv6Rpi.Bio
