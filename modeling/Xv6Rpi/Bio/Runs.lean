import Xv6Rpi.Bio.Coherence

/-! # Runs of the buffer cache

Every step of every process keeps the invariant, so it holds in every state of a run; the
coherence of the cache is read off it.
-/

namespace Xv6Rpi.Bio

open Fs (Block Disk Log logIndex logsize)

namespace Machine

variable {P : Type} {m m' : Machine P} {p : P} {b : Ref}

theorem Sound.held_of_ne (h : Sound m) {q : P} (hb : m.held p b = true) (hq : q ≠ p) : m.held q b = false := by
  cases hqb : m.held q b with
  | false => rfl
  | true => exact absurd (h.one q p b hqb hb) hq

theorem Sound.held_of_free (h : Sound m) (hb : (m.buf b).busy = false) (q : P) : m.held q b = false := by
  cases hqb : m.held q b with
  | false => rfl
  | true =>
    have := (h.busy b).mpr ⟨q, hqb⟩
    simp [hb] at this

theorem Sound.bget_cases (h : Sound m) (dev sector : Nat) :
    (∃ b, m.cache.bget dev sector = .cached b ∧ (m.buf b).busy = false ∧ (m.buf b).dev = dev ∧
      (m.buf b).sector = sector) ∨
    (∃ b, m.cache.bget dev sector = .sleeps b) ∨
    (∃ b, m.cache.bget dev sector = .recycled b ∧ (m.buf b).busy = false ∧ (m.buf b).dirty = false ∧
      ∀ a, (m.buf a).dev ≠ dev ∨ (m.buf a).sector ≠ sector) ∨
    m.cache.bget dev sector = .noBuffers := by
  obtain ⟨l, hAll, hl⟩ := h.listed
  rw [Cache.bget]
  cases hLook : m.cache.lookup dev sector with
  | some b =>
    rw [Cache.lookup, hl.search_next hl.length_le] at hLook
    have hb := List.find?_some hLook
    simp only [decide_eq_true_eq] at hb
    cases hBusy : (m.cache.buf b).busy with
    | true => exact .inr (.inl ⟨b, by simp [hBusy]⟩)
    | false => exact .inl ⟨b, by simp [hBusy], hBusy, hb.1, hb.2⟩
  | none =>
    rw [Cache.lookup, hl.search_next hl.length_le] at hLook
    have hNone (a : Ref) : (m.buf a).dev ≠ dev ∨ (m.buf a).sector ≠ sector := by
      have := List.find?_eq_none.mp hLook a (hAll a)
      simp only [decide_eq_true_eq] at this
      exact not_and_or.mp this
    cases hVic : m.cache.victim with
    | none => exact .inr (.inr (.inr rfl))
    | some b =>
      rw [Cache.victim, hl.search_prev hl.length_le] at hVic
      have hb := List.find?_some hVic
      simp only [Bool.and_eq_true, Bool.not_eq_true'] at hb
      exact .inr (.inr (.inl ⟨b, rfl, hb.1, hb.2, hNone⟩))

/-- The parts of a frame for a process that goes on at a pc other than in `bread`. -/
structure Ready (m : Machine P) (p : P) (pc : Pc) : Prop where
  plain : pc.Plain
  nodup : pc.uses.Nodup
  uses : ∀ b ∈ pc.uses, m.held p b = true
  clean : ∀ b ∈ pc.clean, m.stale b = false
  filled : ∀ b, m.held p b = true → (m.buf b).valid = true ∨ pc.Fills b

theorem Ready.frame {pc : Pc} (h : Ready m p pc) (hPc : m.pc p = pc) : Frame m p := by
  subst hPc
  exact ⟨h.nodup, h.uses, h.clean, h.filled, fun b dev sector k hk => absurd hk (h.plain b dev sector k)⟩

theorem ready_panic (m : Machine P) (p : P) (e : Panic) : Ready m p (.panic e) where
  plain _ _ _ _ := Pc.noConfusion
  nodup := List.nodup_nil
  uses b hb := by cases hb
  clean b hb := by cases hb
  filled b _ := .inr trivial

/-- Every process but `p` keeps its frame when `b`, which `p` holds, is all that changes. -/
theorem Inv.write (h : Inv m) (hSound : Sound m') (hb : m.held p b = true) (hHeld : m'.held = m.held)
    (hSame : ∀ a, a ≠ b → m'.buf a = m.buf a ∧ m'.stale a = m.stale a) (hPc : ∀ q, q ≠ p → m'.pc q = m.pc q)
    (hFrame : Frame m' p) : Inv m' := by
  refine ⟨hSound, fun q => ?_⟩
  rcases eq_or_ne q p with rfl | hq
  · exact hFrame
  · exact (h.frame q).other b (h.held_of_ne hb hq) (by rw [hHeld]) hSame (.inl (hPc q hq))

theorem Inv.busy_of_held (h : Inv m) (hb : m.held p b = true) : (m.buf b).busy = true := (h.busy b).mpr ⟨p, hb⟩

/-- A process writes a buffer that it holds, which is valid from then on, and goes on at `pc`. -/
theorem Inv.wrote (h : Inv m) (hSound : Sound m') (hb : m.held p b = true) (hHeld : m'.held = m.held)
    (hSame : ∀ a, a ≠ b → m'.buf a = m.buf a ∧ m'.stale a = m.stale a) (hPc : ∀ q, q ≠ p → m'.pc q = m.pc q)
    (hv : (m'.buf b).valid = true) (hPlain : (m'.pc p).Plain) (hNodup : (m'.pc p).uses.Nodup)
    (hUses : ∀ a ∈ (m'.pc p).uses, m.held p a = true) (hClean : ∀ a ∈ (m'.pc p).clean, m'.stale a = false)
    (hFilled : ∀ a, m.held p a = true → a ≠ b → (m.buf a).valid = true) : Inv m' := by
  refine h.write hSound hb hHeld hSame hPc (Ready.frame ⟨hPlain, hNodup, ?_, hClean, fun a ha => .inl ?_⟩ rfl)
  · rwa [hHeld]
  · rw [hHeld] at ha
    rcases eq_or_ne a b with rfl | hne
    · exact hv
    · rw [(hSame a hne).1]
      exact hFilled a ha hne

theorem Inv.store (h : Inv m) (hb : m.held p b = true) (hv : (m.buf b).valid = true)
    (hClean : b ∉ (m.pc p).clean) (data : Block) : Inv (m.store b data) := by
  have hSelf : (m.store b data).buf b = { m.buf b with data := data } := by simp [buf, Machine.store]
  have hOther (a : Ref) (ha : a ≠ b) : (m.store b data).buf a = m.buf a ∧ (m.store b data).stale a = m.stale a := by
    simp [buf, Machine.store, Cache.set_buf_of_ne _ _ ha, ha]
  have hBusy := h.busy_of_held hb
  have hSound : Sound (m.store b data) := by
    refine h.toSound.write { m.buf b with data := data } rfl rfl hBusy hBusy rfl rfl (h.dev b hv) (h.valid b)
      (fun a ha => (hOther a ha).2) (fun _ _ => rfl) (fun _ _ => rfl) ?_ fun hd => ?_
    · intro _ hs
      simp [Machine.store] at hs
    · refine h.disk _ fun a ha hs => ?_
      have hDev := h.dev a (h.valid a ha)
      obtain rfl := h.unique a b (by rw [hDev]; decide) (hDev.trans (h.dev b hv).symm) hs
      simp [ha] at hd
  obtain ⟨hNodup, hUses, hCl, hFilled, hWanted⟩ := h.frame p
  refine h.write hSound hb rfl hOther (fun _ _ => rfl) ⟨hNodup, hUses, fun a ha => ?_, fun a ha => ?_, ?_⟩
  · rw [(hOther a (ne_of_mem_of_not_mem ha hClean)).2]
    exact hCl a ha
  · rcases eq_or_ne a b with rfl | hne
    · rw [hSelf]
      exact .inl hv
    · rw [(hOther a hne).1]
      exact hFilled a ha
  · intro a dev sector k hk
    have := hWanted a dev sector k hk
    rcases eq_or_ne a b with rfl | hne
    · rwa [hSelf]
    · rwa [(hOther a hne).1]

variable [DecidableEq P]

@[simp] theorem goto_pc_self (m : Machine P) (p : P) (pc : Pc) : (m.goto p pc).pc p = pc := by simp [goto]

theorem goto_pc_of_ne (m : Machine P) {p q : P} (pc : Pc) (h : q ≠ p) : (m.goto p pc).pc q = m.pc q := by
  simp [goto, h]

theorem Inv.goto (h : Inv m) {pc : Pc} (l : Log) (hReady : Ready m p pc) : Inv ({ m with log := l }.goto p pc) := by
  refine ⟨h.toSound.congr rfl rfl rfl rfl rfl, fun q => ?_⟩
  rcases eq_or_ne q p with rfl | hq
  · exact Ready.frame ⟨hReady.plain, hReady.nodup, hReady.uses, hReady.clean, hReady.filled⟩ (goto_pc_self _ q pc)
  · obtain ⟨hNodup, hUses, hClean, hFilled, hWanted⟩ := h.frame q
    have hPc : ({ m with log := l }.goto p pc).pc q = m.pc q := goto_pc_of_ne _ pc hq
    constructor
    · rwa [hPc]
    · rwa [hPc]
    · rwa [hPc]
    · rwa [hPc]
    · rwa [hPc]

theorem Inv.panic (h : Inv m) (e : Panic) : Inv (m.goto p (.panic e)) := h.goto m.log (ready_panic m p e)

theorem Inv.take (h : Inv m) {f : Buf → Buf} {dev sector : Nat} {k : Caller} (hPc : m.pc p = .bget dev sector k)
    (hFree : (m.buf b).busy = false) (hBusy : (f (m.buf b)).busy = true)
    (hWant : (f (m.buf b)).dev = dev ∧ (f (m.buf b)).sector = sector)
    (hKey : f (m.buf b) = { m.buf b with busy := true } ∨
      (m.buf b).dirty = false ∧ (f (m.buf b)).dirty = false ∧ (f (m.buf b)).valid = false ∧
        ∀ a, (m.buf a).dev ≠ (f (m.buf b)).dev ∨ (m.buf a).sector ≠ (f (m.buf b)).sector) :
    Inv (m.take p b f (.bread b dev sector k)) := by
  have hSound := h.toSound.take (p := p) (.bread b dev sector k) hFree hBusy hKey
  refine ⟨hSound, fun q => ?_⟩
  have hOther (a : Ref) (ha : a ≠ b) : (m.take p b f (.bread b dev sector k)).buf a = m.buf a := by
    simp [buf, Machine.take, Machine.goto, Cache.set_buf_of_ne _ _ ha]
  rcases eq_or_ne q p with rfl | hq
  · obtain ⟨hNodup, hUses, hClean, hFilled, -⟩ := h.frame q
    rw [hPc] at hNodup hUses hClean hFilled
    have hPc' : (m.take q b f (.bread b dev sector k)).pc q = .bread b dev sector k := goto_pc_self _ q _
    have hSelf : (m.take q b f (.bread b dev sector k)).buf b = f (m.buf b) := by
      simp [buf, Machine.take, Machine.goto]
    have hHeld (a : Ref) : (m.take q b f (.bread b dev sector k)).held q a = if a = b then true else m.held q a := by
      simp [Machine.take, Machine.goto, Function.update_apply]
    have hNot : b ∉ k.uses := fun hb => by simpa [h.held_of_free hFree] using hUses b hb
    constructor
    · rw [hPc']
      exact List.nodup_cons.mpr ⟨hNot, hNodup⟩
    · rw [hPc']
      intro a ha
      rw [hHeld]
      split
      · rfl
      · next hne => exact hUses a ((List.mem_cons.mp ha).resolve_left hne)
    · rw [hPc']
      intro a ha
      rcases List.mem_cons.mp ha with rfl | ha
      · change m.stale a = false
        by_contra hs
        have := h.stale a (by simpa using hs)
        simp [hFree] at this
      · exact hClean a ha
    · rw [hPc']
      intro a ha
      rcases eq_or_ne a b with rfl | hne
      · exact .inr rfl
      · rw [hHeld, if_neg hne] at ha
        rw [hOther a hne]
        exact .inl ((hFilled a ha).resolve_right id)
    · intro a dev' sector' k' hk
      rw [hPc'] at hk
      cases hk
      rw [hSelf]
      exact hWant
  · refine (h.frame q).other b (h.held_of_free hFree q) ?_ (fun a ha => ⟨hOther a ha, rfl⟩) (.inl ?_)
    · simp [Machine.take, Machine.goto, hq]
    · exact goto_pc_of_ne _ _ hq

theorem Inv.bwrite (h : Inv m) (hb : m.held p b = true) (hv : (m.buf b).valid = true) (k : Writer)
    (hNodup : (b :: k.uses).Nodup) (hUses : ∀ a ∈ k.uses, m.held p a = true) (hClean : ∀ a ∈ k.clean, m.stale a = false)
    (hFilled : ∀ a, m.held p a = true → a ≠ b → (m.buf a).valid = true) : Inv (m.bwrite p b k) := by
  have hBusy := h.busy_of_held hb
  rw [Machine.bwrite]
  simp only [hBusy, Bool.not_true, Bool.false_eq_true, if_false]
  set m' := ({ m with cache := m.cache.set b fun x => { x with dirty := true } } : Machine P).goto p (.bwrite b k)
    with hm'
  have hPc : m'.pc p = .bwrite b k := goto_pc_self _ p _
  have hSelf : m'.buf b = { m.buf b with dirty := true } := by simp [hm', buf, Machine.goto]
  have hOther (a : Ref) (ha : a ≠ b) : m'.buf a = m.buf a ∧ m'.stale a = m.stale a := by
    simp [hm', buf, Machine.goto, Cache.set_buf_of_ne _ _ ha]
  have hSound : Sound m' := by
    refine h.toSound.write { m.buf b with dirty := true } rfl rfl hBusy hBusy rfl rfl (h.dev b hv) (fun _ => hv)
      (fun a ha => (hOther a ha).2) (fun _ _ => rfl) (fun _ _ => rfl) (h.current b) fun hd => ?_
    cases hd
  refine h.wrote hSound hb rfl hOther (fun q hq => goto_pc_of_ne _ _ hq) (by rw [hSelf]; exact hv) ?_ ?_ ?_ ?_ hFilled
  · rw [hPc]
    exact fun _ _ _ _ => Pc.noConfusion
  · rwa [hPc]
  · rw [hPc]
    intro a ha
    rcases List.mem_cons.mp ha with rfl | ha
    · exact hb
    · exact hUses a ha
  · rw [hPc]
    exact hClean

theorem Inv.rewrite (h : Inv m) (hb : m.held p b = true) (hNot : b ∉ (m.pc p).clean)
    (hFilled : ∀ a, m.held p a = true → (m.buf a).valid = true) (data : Block) {k : Writer}
    (hNodup : (b :: k.uses).Nodup) (hUses : ∀ a ∈ k.uses, m.held p a = true)
    (hClean : ∀ a ∈ k.clean, m.stale a = false) : Inv ((m.store b data).bwrite p b k) := by
  have hValid (a : Ref) : ((m.store b data).buf a).valid = (m.buf a).valid := by
    rcases eq_or_ne a b with rfl | hne
    · simp [buf, Machine.store]
    · simp [buf, Machine.store, Cache.set_buf_of_ne _ _ hne]
  refine (h.store hb (hFilled b hb) hNot data).bwrite hb (by rw [hValid]; exact hFilled b hb) k hNodup hUses
    (fun a ha => ?_) fun a ha _ => by rw [hValid]; exact hFilled a ha
  have hne : a ≠ b := by
    rintro rfl
    exact (List.nodup_cons.mp hNodup).1 (k.clean_subset a ha)
  simpa [Machine.store, hne] using hClean a ha

/-- `log_write` marks its buffer: the contents are given, and the disk does not have them. -/
theorem Inv.mark (h : Inv m) (hb : m.held p b = true) (hv : (m.buf b).valid = true) (l : Log)
    (hFilled : ∀ a, m.held p a = true → a ≠ b → (m.buf a).valid = true) :
    Inv ({ m.give b with log := l, cache := m.cache.set b fun x => { x with dirty := true } }.goto p .client) := by
  have hBusy := h.busy_of_held hb
  set m' := ({ m.give b with log := l, cache := m.cache.set b fun x => { x with dirty := true } } :
    Machine P).goto p .client with hm'
  have hPc : m'.pc p = .client := goto_pc_self _ p _
  have hSelf : m'.buf b = { m.buf b with dirty := true } := by simp [hm', buf, Machine.goto]
  have hOther (a : Ref) (ha : a ≠ b) : m'.buf a = m.buf a ∧ m'.stale a = m.stale a := by
    simp [hm', buf, Machine.goto, Machine.give, Cache.set_buf_of_ne _ _ ha, ha]
  have hGiven : m'.given = Function.update m.given (m.buf b).sector (m.buf b).data := rfl
  have hSound : Sound m' := by
    refine h.toSound.write { m.buf b with dirty := true } rfl rfl hBusy hBusy rfl rfl (h.dev b hv) (fun _ => hv)
      (fun a ha => (hOther a ha).2) (fun s hs => ?_) (fun _ _ => rfl) (fun _ _ => ?_) fun hd => ?_
    · rw [hGiven, Function.update_of_ne hs]
    · rw [hGiven, Function.update_self]
    · cases hd
  refine h.wrote hSound hb rfl hOther (fun q hq => goto_pc_of_ne _ _ hq) (by rw [hSelf]; exact hv) ?_ ?_ ?_ ?_ hFilled
  · rw [hPc]
    exact fun _ _ _ _ => Pc.noConfusion
  · rw [hPc]
    exact List.nodup_nil
  · rw [hPc]
    exact fun a ha => absurd ha List.not_mem_nil
  · rw [hPc]
    exact fun a ha => absurd ha List.not_mem_nil

theorem iderw_eq_ok {disksize : Nat} {d d' : Disk} {x x' : Buf} (h : Bio.iderw disksize d x = .ok (d', x')) :
    x.busy = true ∧ x.dev = 1 ∧
    ((x.dirty = true ∧ d' = Function.update d x.sector x.data ∧ x' = { x with dirty := false, valid := true }) ∨
      (x.dirty = false ∧ x.valid = false ∧ d' = d ∧ x' = { x with data := d x.sector, valid := true })) := by
  rw [Bio.iderw] at h
  split at h
  · cases h
  · next hBusy =>
    split at h
    · cases h
    · next hTodo =>
      split at h
      · cases h
      · next hDev =>
        split at h
        · cases h
        · split at h
          · next hd =>
            obtain ⟨rfl, rfl⟩ := Prod.mk.inj (Except.ok.inj h)
            exact ⟨by simpa using hBusy, not_not.mp hDev, .inl ⟨hd, rfl, rfl⟩⟩
          · next hd =>
            obtain ⟨rfl, rfl⟩ := Prod.mk.inj (Except.ok.inj h)
            refine ⟨by simpa using hBusy, not_not.mp hDev, .inr ⟨by simpa using hd, ?_, rfl, rfl⟩⟩
            simpa [hd] using hTodo

/-- `iderw`: a dirty buffer goes to the disk, and one that is not valid comes from there. -/
theorem Inv.iderw (h : Inv m) (hb : m.held p b = true) {pc : Pc} (hStale : (m.buf b).valid = false → m.stale b = false)
    (hPlain : pc.Plain) (hNodup : pc.uses.Nodup) (hUses : ∀ a ∈ pc.uses, m.held p a = true)
    (hClean : ∀ a ∈ pc.clean, a = b ∨ m.stale a = false)
    (hFilled : ∀ a, m.held p a = true → a ≠ b → (m.buf a).valid = true) : Inv (m.iderw p b pc) := by
  have hBusy := h.busy_of_held hb
  rw [Machine.iderw]
  split
  · exact h.panic _
  · next d x hi =>
    obtain ⟨-, hDev, ⟨hd, rfl, rfl⟩ | ⟨hd, hv, rfl, rfl⟩⟩ := iderw_eq_ok hi
    · -- written back
      simp only [hd, if_true]
      set m' := ({ m.give b with
        disk := Function.update m.disk (m.buf b).sector (m.buf b).data
        cache := m.cache.set b fun _ => { m.buf b with dirty := false, valid := true } } : Machine P).goto p pc with hm'
      have hPc : m'.pc p = pc := goto_pc_self _ p _
      have hSelf : m'.buf b = { m.buf b with dirty := false, valid := true } := by simp [hm', buf, Machine.goto]
      have hOther (a : Ref) (ha : a ≠ b) : m'.buf a = m.buf a ∧ m'.stale a = m.stale a := by
        simp [hm', buf, Machine.goto, Machine.give, Cache.set_buf_of_ne _ _ ha, ha]
      have hGiven : m'.given = Function.update m.given (m.buf b).sector (m.buf b).data := rfl
      have hDisk : m'.disk = Function.update m.disk (m.buf b).sector (m.buf b).data := rfl
      have hGive : m'.stale b = false := by simp [hm', Machine.goto, Machine.give]
      have hSound : Sound m' := by
        refine h.toSound.write { m.buf b with dirty := false, valid := true } rfl rfl hBusy hBusy rfl rfl hDev
          (fun _ => rfl) (fun a ha => (hOther a ha).2) (fun s hs => ?_) (fun s hs => ?_) (fun _ _ => ?_) fun _ => ?_
        · rw [hGiven, Function.update_of_ne hs]
        · rw [hDisk, Function.update_of_ne hs]
        · rw [hGiven, Function.update_self]
        · rw [hGiven, hDisk, Function.update_self, Function.update_self]
      refine h.wrote hSound hb rfl hOther (fun q hq => goto_pc_of_ne _ _ hq) (by rw [hSelf]) (by rwa [hPc])
        (by rwa [hPc]) (by rwa [hPc]) ?_ hFilled
      rw [hPc]
      intro a ha
      rcases eq_or_ne a b with rfl | hne
      · exact hGive
      · rw [(hOther a hne).2]
        exact (hClean a ha).resolve_left hne
    · -- filled from the disk
      dsimp only
      rw [if_neg (by rw [hd]; exact Bool.false_ne_true)]
      set m' := ({ m with
        cache := m.cache.set b fun _ => { m.buf b with data := m.disk (m.buf b).sector, valid := true } } :
        Machine P).goto p pc with hm'
      change Inv m'
      have hPc : m'.pc p = pc := goto_pc_self _ p _
      have hSelf : m'.buf b = { m.buf b with data := m.disk (m.buf b).sector, valid := true } := by
        simp [hm', buf, Machine.goto]
      have hOther (a : Ref) (ha : a ≠ b) : m'.buf a = m.buf a ∧ m'.stale a = m.stale a := by
        simp [hm', buf, Machine.goto, Cache.set_buf_of_ne _ _ ha]
      -- no other buffer has the sector, so the disk has what was given last
      have hLast : m.disk (m.buf b).sector = m.given (m.buf b).sector := by
        refine h.disk _ fun a ha hs => ?_
        have hDevA := h.dev a (h.valid a ha)
        obtain rfl := h.unique a b (by rw [hDevA]; decide) (hDevA.trans hDev.symm) hs
        simp [ha] at hd
      have hSound : Sound m' := by
        refine h.toSound.write { m.buf b with data := m.disk (m.buf b).sector, valid := true } rfl rfl hBusy hBusy rfl
          rfl hDev (fun _ => rfl) (fun a ha => (hOther a ha).2) (fun _ _ => rfl) (fun _ _ => rfl) (fun _ _ => hLast)
          fun _ => hLast
      refine h.wrote hSound hb rfl hOther (fun q hq => goto_pc_of_ne _ _ hq) (by rw [hSelf]) (by rwa [hPc])
        (by rwa [hPc]) (by rwa [hPc]) ?_ hFilled
      rw [hPc]
      intro a ha
      rcases hClean a ha with rfl | hs
      · exact hStale hv
      · exact hs

theorem Inv.brelse (h : Inv m) (hb : m.held p b = true) (hStale : m.stale b = false) {pc : Pc} (hPlain : pc.Plain)
    (hNodup : pc.uses.Nodup) (hUses : ∀ a ∈ pc.uses, a ≠ b ∧ m.held p a = true)
    (hClean : ∀ a ∈ pc.clean, m.stale a = false) (hFilled : ∀ a, m.held p a = true → (m.buf a).valid = true) :
    Inv (m.brelse p b pc) := by
  have hBusy := h.busy_of_held hb
  rw [Machine.brelse]
  simp only [hBusy, Bool.not_true, Bool.false_eq_true, if_false]
  set m' := ({ m with
      cache := m.cache.brelse b
      held := Function.update m.held p (Function.update (m.held p) b false)
      pc := fun q => (m.pc q).wake b } : Machine P).goto p pc with hm'
  have hPc : m'.pc p = pc := goto_pc_self _ p _
  have hOther (a : Ref) (ha : a ≠ b) : m'.buf a = m.buf a := by
    simp [hm', buf, Machine.goto, Cache.brelse, Cache.set_buf_of_ne _ _ ha]
  have hHeld (a : Ref) (ha : m'.held p a = true) : a ≠ b ∧ m.held p a = true := by
    rcases eq_or_ne a b with rfl | hne
    · simp [hm', Machine.goto] at ha
    · simpa [hm', Machine.goto, hne] using ha
  refine ⟨h.toSound.brelse hb hStale rfl rfl rfl rfl rfl, fun q => ?_⟩
  rcases eq_or_ne q p with rfl | hq
  · refine Ready.frame ⟨hPlain, hNodup, fun a ha => ?_, hClean, fun a ha => .inl ?_⟩ hPc
    · obtain ⟨hne, hh⟩ := hUses a ha
      simpa [hm', Machine.goto, hne] using hh
    · obtain ⟨hne, hh⟩ := hHeld a ha
      rw [hOther a hne]
      exact hFilled a hh
  · refine (h.frame q).other b (h.held_of_ne hb hq) ?_ (fun a ha => ⟨hOther a ha, rfl⟩) (.inr ?_)
    · simp [hm', Machine.goto, hq]
    · exact goto_pc_of_ne _ _ hq

/-! ## Steps -/

theorem Inv.bget (h : Inv m) {op : Op} {dev sector : Nat} {k : Caller} (hPc : m.pc p = .bget dev sector k)
    (hs : m.step p op = some m') : Inv m' := by
  simp only [step, hPc] at hs
  have hFrame := h.frame p
  rcases h.toSound.bget_cases dev sector with ⟨b, hGet, hFree, hDev, hSec⟩ | ⟨b, hGet⟩ | ⟨b, hGet, hFree, hClean, hNone⟩ | hGet
  · rw [hGet] at hs
    obtain rfl := Option.some.inj hs
    exact h.take hPc hFree rfl ⟨hDev, hSec⟩ (.inl rfl)
  · rw [hGet] at hs
    obtain rfl := Option.some.inj hs
    obtain ⟨hNodup, hUses, hCl, hFilled, -⟩ := hFrame
    rw [hPc] at hNodup hUses hCl hFilled
    exact h.goto m.log ⟨fun _ _ _ _ => Pc.noConfusion, hNodup, hUses, hCl, hFilled⟩
  · rw [hGet] at hs
    obtain rfl := Option.some.inj hs
    exact h.take hPc hFree rfl ⟨rfl, rfl⟩ (.inr ⟨hClean, rfl, rfl, hNone⟩)
  · rw [hGet] at hs
    obtain rfl := Option.some.inj hs
    exact h.panic _

theorem Inv.call (h : Inv m) {op : Op} (hPc : m.pc p = .client) (hs : m.call p op = some m') : Inv m' := by
  obtain ⟨-, -, -, hFilled, -⟩ := h.frame p
  rw [hPc] at hFilled
  have hValid (b : Ref) (hb : m.held p b = true) : (m.buf b).valid = true := (hFilled b hb).resolve_right id
  have hBread (l : Log) (dev sector : Nat) (k : Caller) (hUses : ∀ b ∈ k.uses, m.held p b = true)
      (hNodup : k.uses.Nodup) (hClean : k.clean = []) : Inv ({ m with log := l }.goto p (.bget dev sector k)) := by
    refine h.goto l ⟨fun _ _ _ _ => Pc.noConfusion, hNodup, hUses, fun b hb => ?_, fun b hb => .inl (hValid b hb)⟩
    rw [Pc.clean, hClean] at hb
    cases hb
  cases op with
  | bread dev sector =>
    obtain rfl := Option.some.inj hs
    exact hBread m.log dev sector .client (fun b hb => absurd hb List.not_mem_nil) List.nodup_nil rfl
  | modify b data =>
    obtain ⟨hb, he⟩ := Option.ite_none_right_eq_some.mp hs
    obtain rfl := Option.some.inj he
    exact h.store hb (hValid b hb) (by rw [hPc]; exact List.not_mem_nil) data
  | bwrite b =>
    obtain ⟨hb, he⟩ := Option.ite_none_right_eq_some.mp hs
    obtain rfl := Option.some.inj he
    exact h.bwrite hb (hValid b hb) .client (List.nodup_singleton b) (fun a ha => absurd ha List.not_mem_nil)
      (fun a ha => absurd ha List.not_mem_nil) fun a ha _ => hValid a ha
  | logWrite b =>
    obtain ⟨hb, he⟩ := Option.ite_none_right_eq_some.mp hs
    obtain rfl := Option.some.inj he
    rw [logWrite]
    split
    · exact h.panic _
    · split
      · exact h.panic _
      · refine hBread _ _ _ _ (fun a ha => ?_) (List.nodup_singleton b) rfl
        rwa [List.mem_singleton.mp ha]
  | brelse b =>
    obtain ⟨⟨hb, hStale⟩, he⟩ := Option.ite_none_right_eq_some.mp hs
    obtain rfl := Option.some.inj he
    exact h.brelse hb hStale (fun _ _ _ _ => Pc.noConfusion) List.nodup_nil (fun a ha => absurd ha List.not_mem_nil)
      (fun a ha => absurd ha List.not_mem_nil) hValid
  | beginTrans =>
    obtain ⟨-, he⟩ := Option.ite_none_left_eq_some.mp hs
    obtain rfl := Option.some.inj he
    refine ⟨h.toSound.congr rfl rfl rfl rfl rfl, fun q => ?_⟩
    obtain ⟨hNodup, hUses, hClean, hFill, hWanted⟩ := h.frame q
    exact ⟨hNodup, hUses, hClean, hFill, hWanted⟩
  | commitTrans =>
    obtain rfl := Option.some.inj hs
    split
    · exact hBread m.log _ _ _ (fun b hb => absurd hb List.not_mem_nil) List.nodup_nil rfl
    · exact h.goto m.log ⟨fun _ _ _ _ => Pc.noConfusion, List.nodup_nil, fun b hb => absurd hb List.not_mem_nil,
        fun b hb => absurd hb List.not_mem_nil, fun b hb => .inl (hValid b hb)⟩

theorem Inv.step (h : Inv m) {op : Op} (hs : m.step p op = some m') : Inv m' := by
  obtain ⟨hNodup, hUses, hClean, hFilled, -⟩ := h.frame p
  generalize hPc : m.pc p = pc at hNodup hUses hClean hFilled
  have hNil (pc' : Pc) (hPlain : pc'.Plain) (hu : pc'.uses = []) (hf : ∀ b, m.held p b = true → (m.buf b).valid = true)
      (l : Log) : Inv ({ m with log := l }.goto p pc') := by
    refine h.goto l ⟨hPlain, by rw [hu]; exact List.nodup_nil, fun b hb => ?_, fun b hb => ?_, fun b hb => .inl (hf b hb)⟩
    · rw [hu] at hb
      cases hb
    · have := pc'.clean_subset b hb
      rw [hu] at this
      cases this
  cases pc with
  | client =>
    simp only [Machine.step, hPc] at hs
    exact h.call hPc hs
  | bget dev sector k => exact h.bget hPc hs
  | asleep b dev sector k =>
    simp only [Machine.step, hPc] at hs
    cases hs
  | bread b dev sector k =>
    simp only [Machine.step, hPc] at hs
    have hPc' : ∀ a ∈ (k.pc b).uses, a ∈ b :: k.uses := by
      rcases k.uses_pc b with hp | rfl
      · exact fun a ha => hp.mem_iff.mp ha
      · exact fun a ha => absurd ha List.not_mem_nil
    have hNodup' : (k.pc b).uses.Nodup := by
      rcases k.uses_pc b with hp | rfl
      · exact hp.nodup_iff.mpr hNodup
      · exact List.nodup_nil
    split at hs
    · next hv =>
      obtain rfl := Option.some.inj hs
      refine h.goto m.log ⟨k.plain_pc b, hNodup', fun a ha => hUses a (hPc' a ha), fun a ha => ?_, fun a ha => .inl ?_⟩
      · rcases k.clean_pc b a ha with rfl | ha
        · exact hClean a List.mem_cons_self
        · exact hClean a (List.mem_cons_of_mem _ ha)
      · rcases hFilled a ha with hf | rfl
        · exact hf
        · exact hv
    · obtain rfl := Option.some.inj hs
      refine h.iderw (hUses b List.mem_cons_self) (fun _ => hClean b List.mem_cons_self) (k.plain_pc b) hNodup'
        (fun a ha => hUses a (hPc' a ha)) (fun a ha => ?_) fun a ha hne => (hFilled a ha).resolve_right hne
      exact (k.clean_pc b a ha).imp_right fun ha => hClean a (List.mem_cons_of_mem _ ha)
  | bwrite b k =>
    simp only [Machine.step, hPc] at hs
    obtain rfl := Option.some.inj hs
    have hb := hUses b List.mem_cons_self
    have hv : (m.buf b).valid = true := (hFilled b hb).resolve_right id
    refine h.iderw hb (fun hn => by simp [hv] at hn) (k.plain_pc b) ?_ (fun a ha => hUses a ?_) (fun a ha => ?_)
      fun a ha _ => (hFilled a ha).resolve_right id
    · rcases k.uses_pc b with hp | rfl
      · exact hp.nodup_iff.mpr hNodup
      · exact List.nodup_nil
    · rcases k.uses_pc b with hp | rfl
      · exact hp.mem_iff.mp ha
      · exact absurd ha List.not_mem_nil
    · exact (k.clean_pc b a ha).imp_right fun ha => hClean a ha
  | logCopy b lbuf i =>
    simp only [Machine.step, hPc] at hs
    obtain rfl := Option.some.inj hs
    refine h.rewrite (hUses lbuf (by simp [Pc.uses])) (by rw [hPc]; exact List.not_mem_nil)
      (fun a ha => (hFilled a ha).resolve_right id) _ ?_ (fun a ha => hUses a ?_) fun a ha => absurd ha List.not_mem_nil
    · exact (List.Perm.swap b lbuf []).nodup_iff.mpr hNodup
    · rw [List.mem_singleton.mp ha]
      exact List.mem_cons_self
  | logRelse b lbuf i =>
    simp only [Machine.step, hPc] at hs
    obtain rfl := Option.some.inj hs
    refine h.brelse (hUses lbuf (by simp [Pc.uses])) (hClean lbuf List.mem_cons_self) (fun _ _ _ _ => Pc.noConfusion)
      (List.nodup_singleton b) (fun a ha => ?_) (fun a ha => absurd ha List.not_mem_nil)
      fun a ha => (hFilled a ha).resolve_right id
    obtain rfl := List.mem_singleton.mp ha
    refine ⟨?_, hUses a List.mem_cons_self⟩
    rintro rfl
    exact (List.nodup_cons.mp hNodup).1 List.mem_cons_self
  | logMark b i =>
    simp only [Machine.step, hPc] at hs
    obtain rfl := Option.some.inj hs
    have hb := hUses b List.mem_cons_self
    exact h.mark hb ((hFilled b hb).resolve_right id) _ fun a ha _ => (hFilled a ha).resolve_right id
  | headCopy b erase =>
    simp only [Machine.step, hPc] at hs
    obtain rfl := Option.some.inj hs
    exact h.rewrite (hUses b List.mem_cons_self) (by rw [hPc]; exact List.not_mem_nil)
      (fun a ha => (hFilled a ha).resolve_right id) _ (List.nodup_singleton b) (fun a ha => absurd ha List.not_mem_nil)
      fun a ha => absurd ha List.not_mem_nil
  | headRelse b erase =>
    simp only [Machine.step, hPc] at hs
    obtain rfl := Option.some.inj hs
    have hEnd : (if erase = true then Pc.unlock else .install 0).Plain ∧
        (if erase = true then Pc.unlock else .install 0).uses = [] ∧
        (if erase = true then Pc.unlock else .install 0).clean = [] := by
      split <;> exact ⟨fun _ _ _ _ => Pc.noConfusion, rfl, rfl⟩
    refine h.brelse (hUses b List.mem_cons_self) (hClean b List.mem_cons_self) hEnd.1 (by rw [hEnd.2.1]; exact List.nodup_nil)
      (fun a ha => ?_) (fun a ha => ?_) fun a ha => (hFilled a ha).resolve_right id
    · rw [hEnd.2.1] at ha
      cases ha
    · rw [hEnd.2.2] at ha
      cases ha
  | install tail =>
    simp only [Machine.step, hPc] at hs
    split at hs
    · obtain rfl := Option.some.inj hs
      exact hNil _ (fun _ _ _ _ => Pc.noConfusion) rfl (fun a ha => (hFilled a ha).resolve_right id) m.log
    · obtain rfl := Option.some.inj hs
      exact hNil _ (fun _ _ _ _ => Pc.noConfusion) rfl (fun a ha => (hFilled a ha).resolve_right id) _
  | dst lbuf tail =>
    simp only [Machine.step, hPc] at hs
    obtain rfl := Option.some.inj hs
    exact h.goto m.log ⟨fun _ _ _ _ => Pc.noConfusion, hNodup, hUses, hClean, hFilled⟩
  | copy lbuf dbuf tail =>
    simp only [Machine.step, hPc] at hs
    obtain rfl := Option.some.inj hs
    have hne : dbuf ≠ lbuf := by
      rintro rfl
      exact (List.nodup_cons.mp hNodup).1 List.mem_cons_self
    refine h.rewrite (hUses dbuf (by simp [Pc.uses])) (by rw [hPc]; simpa [Pc.clean] using hne)
      (fun a ha => (hFilled a ha).resolve_right id) _ ?_ (fun a ha => hUses a ?_) hClean
    · exact (List.Perm.swap lbuf dbuf []).nodup_iff.mpr hNodup
    · rw [List.mem_singleton.mp ha]
      exact List.mem_cons_self
  | relseLog lbuf dbuf tail =>
    simp only [Machine.step, hPc] at hs
    obtain rfl := Option.some.inj hs
    refine h.brelse (hUses lbuf List.mem_cons_self) (hClean lbuf List.mem_cons_self) (fun _ _ _ _ => Pc.noConfusion)
      (List.nodup_singleton dbuf) (fun a ha => ?_) (fun a ha => hClean a (List.mem_cons_of_mem _ ha))
      fun a ha => (hFilled a ha).resolve_right id
    obtain rfl := List.mem_singleton.mp ha
    refine ⟨?_, hUses a (by simp [Pc.uses])⟩
    rintro rfl
    exact (List.nodup_cons.mp hNodup).1 List.mem_cons_self
  | relseDst dbuf tail =>
    simp only [Machine.step, hPc] at hs
    obtain rfl := Option.some.inj hs
    exact h.brelse (hUses dbuf List.mem_cons_self) (hClean dbuf List.mem_cons_self) (fun _ _ _ _ => Pc.noConfusion)
      List.nodup_nil (fun a ha => absurd ha List.not_mem_nil) (fun a ha => absurd ha List.not_mem_nil)
      fun a ha => (hFilled a ha).resolve_right id
  | unlock =>
    simp only [Machine.step, hPc] at hs
    obtain rfl := Option.some.inj hs
    exact hNil _ (fun _ _ _ _ => Pc.noConfusion) rfl (fun a ha => (hFilled a ha).resolve_right id) _
  | panic e =>
    simp only [Machine.step, hPc] at hs
    cases hs

/-! ## What clients rely on -/

/-- At most one buffer is for a sector, a busy buffer has one holder, a valid buffer that is
neither busy nor dirty has the contents of its sector, and the list is one ring through the
head and all buffers, in both directions. -/
structure Coherent (m : Machine P) : Prop where
  unique : ∀ a b, (m.buf a).dev ≠ noDev → (m.buf a).dev = (m.buf b).dev →
    (m.buf a).sector = (m.buf b).sector → a = b
  holder : ∀ b, (m.buf b).busy = true → ∃! p, m.held p b = true
  busy : ∀ p b, m.held p b = true → (m.buf b).busy = true
  clean : ∀ b, (m.buf b).valid = true → (m.buf b).busy = false → (m.buf b).dirty = false →
    (m.buf b).data = m.disk (m.buf b).sector
  ring : ∃ l : List Ref, (∀ b, b ∈ l) ∧ Ring.IsRing m.cache.next m.cache.prev none (l.map some)

/-- A step gives no dirty buffer to another sector, and when it returns from `bread` it
returns a valid buffer of the wanted sector with the contents given last for it. -/
structure Faithful (m : Machine P) (p : P) (m' : Machine P) : Prop where
  pinned : ∀ b, (m.buf b).dirty = true → (m'.buf b).dev = (m.buf b).dev ∧ (m'.buf b).sector = (m.buf b).sector
  returns : ∀ b dev sector k, m.pc p = .bread b dev sector k → m'.pc p = k.pc b →
    (m'.buf b).valid = true ∧ (m'.buf b).dev = dev ∧ (m'.buf b).sector = sector ∧ (m'.buf b).data = m'.given sector

omit [DecidableEq P] in
theorem Inv.coherent (h : Inv m) : Coherent m where
  unique := h.unique
  holder b hb := by
    obtain ⟨p, hp⟩ := (h.busy b).mp hb
    exact ⟨p, hp, fun q hq => h.one q p b hq hp⟩
  busy p b hb := h.busy_of_held hb
  clean b hv hb hd := by
    have hs : m.stale b = false := by
      by_contra hs
      have := h.stale b (by simpa using hs)
      simp [hb] at this
    rw [h.current b hv hs]
    -- a dirty buffer with newer contents would be this one
    refine (h.disk _ fun a ha he => ?_).symm
    have hDev := h.dev a (h.valid a ha)
    obtain rfl := h.unique a b (by rw [hDev]; decide) (hDev.trans (h.dev b hv).symm) he
    simp [hd] at ha
  ring := h.listed

omit [DecidableEq P] in
theorem Inv.boot (disk : Disk) (disksize : Nat) (log : Log) : Inv (boot disk disksize log : Machine P) := by
  have hBuf (b : Ref) : (Machine.boot disk disksize log : Machine P).buf b = ⟨false, false, false, noDev, 0, Fs.zeroBlock⟩ :=
    Cache.binit_buf b
  constructor
  · constructor
    · exact ⟨(List.finRange nbuf).reverse, fun b => by simp, Cache.binit_listed⟩
    · intro a b ha
      exact absurd (by rw [hBuf]) ha
    · intro b
      rw [hBuf]
      exact iff_of_false Bool.false_ne_true fun hBusy => hBusy.elim fun _ hp => Bool.false_ne_true hp
    · intro p q b hp
      cases hp
    · intro b hb
      rw [hBuf] at hb
      cases hb
    · intro b hb
      rw [hBuf] at hb
      cases hb
    · intro b hb
      cases hb
    · intro b hb
      rw [hBuf] at hb
      cases hb
    · intro s _
      rfl
  · intro p
    refine ⟨List.nodup_nil, fun b hb => absurd hb List.not_mem_nil, fun b hb => absurd hb List.not_mem_nil,
      fun b hb => ?_, fun b dev sector k hk => ?_⟩
    · cases hb
    · cases hk

/-! ## Which sector a buffer is for -/

def Keeps (m m' : Machine P) : Prop :=
  ∀ b, (m'.buf b).dev = (m.buf b).dev ∧ (m'.buf b).sector = (m.buf b).sector

omit [DecidableEq P] in
theorem keeps_of_set (c : Ref) (f : Buf → Buf) (hCache : m'.cache = m.cache.set c f)
    (hf : (f (m.buf c)).dev = (m.buf c).dev ∧ (f (m.buf c)).sector = (m.buf c).sector) : Keeps m m' := by
  intro b
  simp only [buf, hCache]
  rcases eq_or_ne b c with rfl | hne
  · rw [Cache.set_buf_self]
    exact hf
  · rw [Cache.set_buf_of_ne _ _ hne]
    exact ⟨rfl, rfl⟩

theorem keeps_bwrite (m : Machine P) (p : P) (b : Ref) (k : Writer) : Keeps m (m.bwrite p b k) := by
  rw [bwrite]
  split
  · exact fun _ => ⟨rfl, rfl⟩
  · exact keeps_of_set b (fun x => { x with dirty := true }) rfl ⟨rfl, rfl⟩

theorem keeps_rewrite (m : Machine P) (p : P) (b : Ref) (data : Block) (k : Writer) :
    Keeps m ((m.store b data).bwrite p b k) := by
  have hStore : Keeps m (m.store b data) := keeps_of_set b (fun x => { x with data := data }) rfl ⟨rfl, rfl⟩
  intro a
  obtain ⟨hDev, hSec⟩ := keeps_bwrite (m.store b data) p b k a
  exact ⟨hDev.trans (hStore a).1, hSec.trans (hStore a).2⟩

theorem keeps_iderw (m : Machine P) (p : P) (b : Ref) (pc : Pc) : Keeps m (m.iderw p b pc) := by
  rw [iderw]
  split
  · exact fun _ => ⟨rfl, rfl⟩
  · next d x hi =>
    refine keeps_of_set b (fun _ => x) rfl ?_
    obtain ⟨-, -, ⟨-, -, rfl⟩ | ⟨-, -, -, rfl⟩⟩ := iderw_eq_ok hi
    · exact ⟨rfl, rfl⟩
    · exact ⟨rfl, rfl⟩

theorem keeps_brelse (m : Machine P) (p : P) (b : Ref) (pc : Pc) : Keeps m (m.brelse p b pc) := by
  rw [brelse]
  split
  · exact fun _ => ⟨rfl, rfl⟩
  · intro a
    simp only [buf, Machine.goto, Cache.brelse]
    rcases eq_or_ne a b with rfl | hne
    · rw [Cache.set_buf_self]
      exact ⟨rfl, rfl⟩
    · rw [Cache.set_buf_of_ne _ _ hne]
      exact ⟨rfl, rfl⟩

theorem keeps_logWrite (m : Machine P) (p : P) (b : Ref) : Keeps m (m.logWrite p b) := by
  rw [logWrite]
  split
  · exact fun _ => ⟨rfl, rfl⟩
  · split <;> exact fun _ => ⟨rfl, rfl⟩

theorem keeps_call {op : Op} (hs : m.call p op = some m') : Keeps m m' := by
  cases op with
  | bread dev sector =>
    obtain rfl := Option.some.inj hs
    exact fun _ => ⟨rfl, rfl⟩
  | modify b data =>
    obtain ⟨-, he⟩ := Option.ite_none_right_eq_some.mp hs
    obtain rfl := Option.some.inj he
    exact keeps_of_set b (fun x => { x with data := data }) rfl ⟨rfl, rfl⟩
  | bwrite b =>
    obtain ⟨-, he⟩ := Option.ite_none_right_eq_some.mp hs
    obtain rfl := Option.some.inj he
    exact keeps_bwrite m p b .client
  | logWrite b =>
    obtain ⟨-, he⟩ := Option.ite_none_right_eq_some.mp hs
    obtain rfl := Option.some.inj he
    exact keeps_logWrite m p b
  | brelse b =>
    obtain ⟨-, he⟩ := Option.ite_none_right_eq_some.mp hs
    obtain rfl := Option.some.inj he
    exact keeps_brelse m p b .client
  | beginTrans =>
    obtain ⟨-, he⟩ := Option.ite_none_left_eq_some.mp hs
    obtain rfl := Option.some.inj he
    exact fun _ => ⟨rfl, rfl⟩
  | commitTrans =>
    obtain rfl := Option.some.inj hs
    exact fun _ => ⟨rfl, rfl⟩

/-- Only `bget` gives a buffer to another sector, and it takes a clean one that is free. -/
theorem Inv.kept (h : Inv m) {op : Op} (hs : m.step p op = some m') (b : Ref)
    (hb : (m.buf b).dirty = true ∨ (m.buf b).busy = true) :
    (m'.buf b).dev = (m.buf b).dev ∧ (m'.buf b).sector = (m.buf b).sector := by
  cases hPc : m.pc p with
  | client =>
    simp only [Machine.step, hPc] at hs
    exact keeps_call hs b
  | bget dev sector k =>
    simp only [Machine.step, hPc] at hs
    rcases h.toSound.bget_cases dev sector with ⟨c, hGet, -⟩ | ⟨c, hGet⟩ | ⟨c, hGet, hFree, hClean, -⟩ | hGet
    · rw [hGet] at hs
      obtain rfl := Option.some.inj hs
      exact keeps_of_set c (fun x => { x with busy := true }) rfl ⟨rfl, rfl⟩ b
    · rw [hGet] at hs
      obtain rfl := Option.some.inj hs
      exact ⟨rfl, rfl⟩
    · rw [hGet] at hs
      obtain rfl := Option.some.inj hs
      have hne : b ≠ c := by
        rintro rfl
        simp [hClean, hFree] at hb
      simp [buf, Machine.take, Machine.goto, Cache.set_buf_of_ne _ _ hne]
    · rw [hGet] at hs
      obtain rfl := Option.some.inj hs
      exact ⟨rfl, rfl⟩
  | bread c dev sector k =>
    simp only [Machine.step, hPc] at hs
    split at hs
    · obtain rfl := Option.some.inj hs
      exact ⟨rfl, rfl⟩
    · obtain rfl := Option.some.inj hs
      exact keeps_iderw m p c _ b
  | bwrite c k =>
    simp only [Machine.step, hPc] at hs
    obtain rfl := Option.some.inj hs
    exact keeps_iderw m p c _ b
  | logCopy | headCopy | copy =>
    simp only [Machine.step, hPc] at hs
    obtain rfl := Option.some.inj hs
    exact keeps_rewrite m p _ _ _ b
  | logRelse | headRelse | relseLog | relseDst =>
    simp only [Machine.step, hPc] at hs
    obtain rfl := Option.some.inj hs
    exact keeps_brelse m p _ _ b
  | logMark c i =>
    simp only [Machine.step, hPc] at hs
    obtain rfl := Option.some.inj hs
    exact keeps_of_set c (fun x => { x with dirty := true }) rfl ⟨rfl, rfl⟩ b
  | install tail =>
    simp only [Machine.step, hPc] at hs
    split at hs
    · obtain rfl := Option.some.inj hs
      exact ⟨rfl, rfl⟩
    · obtain rfl := Option.some.inj hs
      exact ⟨rfl, rfl⟩
  | dst | unlock =>
    simp only [Machine.step, hPc] at hs
    obtain rfl := Option.some.inj hs
    exact ⟨rfl, rfl⟩
  | asleep | panic =>
    simp only [Machine.step, hPc] at hs
    cases hs

theorem Inv.pinned (h : Inv m) {op : Op} (hs : m.step p op = some m') (b : Ref) (hb : (m.buf b).dirty = true) :
    (m'.buf b).dev = (m.buf b).dev ∧ (m'.buf b).sector = (m.buf b).sector := h.kept hs b (.inl hb)

theorem Caller.pc_ne_panic (b : Ref) (k : Caller) (e : Panic) : k.pc b ≠ .panic e := by
  cases k <;> exact Pc.noConfusion

theorem Inv.returns (h : Inv m) {op : Op} (hs : m.step p op = some m') {b : Ref} {dev sector : Nat} {k : Caller}
    (hPc : m.pc p = .bread b dev sector k) (hRet : m'.pc p = k.pc b) :
    (m'.buf b).valid = true ∧ (m'.buf b).dev = dev ∧ (m'.buf b).sector = sector ∧ (m'.buf b).data = m'.given sector := by
  obtain ⟨-, hUses, hClean, -, hWanted⟩ := h.frame p
  have hStale : m.stale b = false := hClean b (by rw [hPc]; exact List.mem_cons_self)
  obtain ⟨hDev, hSec⟩ := hWanted b dev sector k hPc
  have h' := h.step hs
  simp only [Machine.step, hPc] at hs
  have hData (hk : Keeps m m') (hv : (m'.buf b).valid = true) (hst : m'.stale b = false) :
      (m'.buf b).valid = true ∧ (m'.buf b).dev = dev ∧ (m'.buf b).sector = sector ∧
        (m'.buf b).data = m'.given sector := by
    refine ⟨hv, (hk b).1.trans hDev, (hk b).2.trans hSec, ?_⟩
    rw [h'.current b hv hst, (hk b).2, hSec]
  split at hs
  · next hv =>
    obtain rfl := Option.some.inj hs
    exact hData (fun _ => ⟨rfl, rfl⟩) hv hStale
  · obtain rfl := Option.some.inj hs
    refine hData (keeps_iderw m p b _) ?_ ?_
    · rw [Machine.iderw] at hRet ⊢
      split
      · next hi =>
        rw [hi] at hRet
        exact absurd (hRet.symm.trans (goto_pc_self m p _)) (Caller.pc_ne_panic b k _)
      · next d x hi =>
        obtain ⟨-, -, ⟨-, -, rfl⟩ | ⟨-, -, -, rfl⟩⟩ := iderw_eq_ok hi
        · simp [buf, Machine.goto]
        · simp [buf, Machine.goto]
    · rw [Machine.iderw]
      split
      · exact hStale
      · split
        · simp [Machine.goto, Machine.give]
        · exact hStale

/-- In every interleaving of processes that keep to the buffers they hold and give every
change before they release its buffer, the cache is coherent in every state, and every step
from there is faithful. -/
theorem buffer_cache_coherent (disk : Disk) (disksize : Nat) (log : Log) (ops : List (P × Op))
    (hExec : (boot disk disksize log).exec ops = some m) :
    Coherent m ∧ ∀ p op m', m.step p op = some m' → Faithful m p m' := by
  have h : Inv m := exec_keeps (fun _ _ _ _ hs hm => hm.step hs) hExec (.boot disk disksize log)
  exact ⟨h.coherent, fun p op m' hs => ⟨h.pinned hs, fun b dev sector k hPc hRet => h.returns hs hPc hRet⟩⟩

/-- A process reads a sector, changes it, writes it back and releases it, and it comes to read it again. -/
def writeBack : List (Unit × Op) :=
  [((), .bread 1 7), ((), .beginTrans), ((), .beginTrans), ((), .modify 0 fun _ => 1), ((), .bwrite 0),
    ((), .beginTrans), ((), .brelse 0), ((), .bread 1 7), ((), .beginTrans)]

/-- The step that returns from the second `bread` finds what has been written. -/
theorem buffer_cache_coherent_writeBack :
    ∃ m m', (boot (fun _ => Fs.zeroBlock) 8 ⟨2, 3, false, 0, fun _ => 0⟩).exec writeBack = some m ∧ Coherent m ∧
      m.step () .beginTrans = some m' ∧ (m'.buf 0).valid = true ∧ (m'.buf 0).sector = 7 ∧
        (m'.buf 0).data = m'.given 7 ∧ m'.given 7 0 = 1 := by
  have hResult : ((boot (fun _ => Fs.zeroBlock) 8 ⟨2, 3, false, 0, fun _ => 0⟩).exec writeBack).bind
      (fun m => (m.step () .beginTrans).map fun m' => (m.pc (), m'.pc (), m'.given 7 0)) =
      some (.bread 0 1 7 .client, .client, 1) := by decide +kernel
  obtain ⟨m, hm, hNext⟩ := Option.bind_eq_some_iff.mp hResult
  obtain ⟨m', hs, hEq⟩ := Option.map_eq_some_iff.mp hNext
  obtain ⟨hPc, hEq⟩ := Prod.mk.inj hEq
  obtain ⟨hRet, hGiven⟩ := Prod.mk.inj hEq
  obtain ⟨hCoherent, hFaithful⟩ := buffer_cache_coherent _ _ _ writeBack hm
  obtain ⟨hValid, -, hSector, hData⟩ := (hFaithful () _ m' hs).returns 0 1 7 .client hPc hRet
  exact ⟨m, m', hm, hCoherent, hs, hValid, hSector, hData, hGiven⟩

end Machine

end Xv6Rpi.Bio
