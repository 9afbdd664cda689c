import Xv6Rpi.Bio.Machine

/-! # Coherence of the buffer cache

The invariant says of the buffers what the list, the holders and the disk have to do with
them, and of each process which buffers its code goes on to use. A step changes at most one
buffer: it takes one that is free, writes one that it holds, or releases one.
-/

namespace Xv6Rpi.Bio

open Fs (Block Disk Log logIndex logsize)

/-! ## What the code of a process goes on to use -/

def Caller.uses : Caller → List Ref
  | .logWrite b _ => [b]
  | .dstBuf lbuf _ => [lbuf]
  | _ => []

def Writer.uses : Writer → List Ref
  | .logWrite b _ => [b]
  | .install lbuf _ => [lbuf]
  | _ => []

/-- The buffers that a process still uses inside of `log_write` or `commit_trans`. -/
def Pc.uses : Pc → List Ref
  | .bget _ _ k => k.uses
  | .asleep _ _ _ k => k.uses
  | .bread b _ _ k => b :: k.uses
  | .bwrite b k => b :: k.uses
  | .logCopy b lbuf _ => [b, lbuf]
  | .logRelse b lbuf _ => [b, lbuf]
  | .logMark b _ => [b]
  | .headCopy b _ => [b]
  | .headRelse b _ => [b]
  | .dst lbuf _ => [lbuf]
  | .copy lbuf dbuf _ => [lbuf, dbuf]
  | .relseLog lbuf dbuf _ => [lbuf, dbuf]
  | .relseDst dbuf _ => [dbuf]
  | _ => []

def Caller.clean : Caller → List Ref
  | .dstBuf lbuf _ => [lbuf]
  | _ => []

def Writer.clean : Writer → List Ref
  | .install lbuf _ => [lbuf]
  | _ => []

def Pc.clean : Pc → List Ref
  | .bget _ _ k => k.clean
  | .asleep _ _ _ k => k.clean
  | .bread b _ _ k => b :: k.clean
  | .bwrite _ k => k.clean
  | .logRelse _ lbuf _ => [lbuf]
  | .headRelse b _ => [b]
  | .dst lbuf _ => [lbuf]
  | .copy lbuf _ _ => [lbuf]
  | .relseLog lbuf dbuf _ => [lbuf, dbuf]
  | .relseDst dbuf _ => [dbuf]
  | _ => []

/-- A buffer that the process holds and that `bread` has not filled, and will not fill after a panic. -/
def Pc.Fills : Pc → Ref → Prop
  | .bread b _ _ _, b' => b' = b
  | .panic _, _ => True
  | _, _ => False

@[simp] theorem Pc.wake_uses (b : Ref) (pc : Pc) : (pc.wake b).uses = pc.uses := by
  cases pc with
  | asleep b' dev sector k =>
    simp only [Pc.wake]
    split <;> rfl
  | _ => rfl

@[simp] theorem Pc.wake_clean (b : Ref) (pc : Pc) : (pc.wake b).clean = pc.clean := by
  cases pc with
  | asleep b' dev sector k =>
    simp only [Pc.wake]
    split <;> rfl
  | _ => rfl

@[simp] theorem Pc.wake_fills (b : Ref) (pc : Pc) : (pc.wake b).Fills = pc.Fills := by
  cases pc with
  | asleep b' dev sector k =>
    simp only [Pc.wake]
    split <;> rfl
  | _ => rfl

theorem Pc.wake_bread {b b' : Ref} {pc : Pc} {dev sector : Nat} {k : Caller}
    (h : pc.wake b = .bread b' dev sector k) : pc = .bread b' dev sector k := by
  cases pc with
  | asleep b'' dev' sector' k' =>
    simp only [Pc.wake] at h
    split at h <;> cases h
  | _ => exact h

theorem Caller.uses_pc (b : Ref) (k : Caller) : (k.pc b).uses.Perm (b :: k.uses) ∨ k = .client := by
  cases k with
  | client => exact .inr rfl
  | logWrite b' i => exact .inl (List.Perm.swap b b' [])
  | dstBuf lbuf tail => exact .inl (List.Perm.swap b lbuf [])
  | _ => exact .inl (.refl _)

theorem Caller.clean_pc (b : Ref) (k : Caller) : ∀ x ∈ (k.pc b).clean, x = b ∨ x ∈ k.clean := by
  cases k <;> simp [Caller.pc, Pc.clean, Caller.clean]

theorem Writer.uses_pc (b : Ref) (k : Writer) : (k.pc b).uses.Perm (b :: k.uses) ∨ k = .client := by
  cases k with
  | client => exact .inr rfl
  | logWrite b' i => exact .inl (List.Perm.swap b b' [])
  | install lbuf tail => exact .inl (List.Perm.swap b lbuf [])
  | _ => exact .inl (.refl _)

theorem Writer.clean_pc (b : Ref) (k : Writer) : ∀ x ∈ (k.pc b).clean, x = b ∨ x ∈ k.clean := by
  cases k <;> simp [Writer.pc, Pc.clean, Writer.clean, or_comm]

theorem Caller.clean_subset (k : Caller) : ∀ b ∈ k.clean, b ∈ k.uses := by
  cases k <;> simp [Caller.clean, Caller.uses]

theorem Writer.clean_subset (k : Writer) : ∀ b ∈ k.clean, b ∈ k.uses := by
  cases k <;> simp [Writer.clean, Writer.uses]

theorem Pc.clean_subset (pc : Pc) : ∀ b ∈ pc.clean, b ∈ pc.uses := by
  intro b hb
  cases pc with
  | bget dev sector k => exact k.clean_subset b hb
  | asleep b' dev sector k => exact k.clean_subset b hb
  | bread b' dev sector k =>
    rcases List.mem_cons.mp hb with rfl | hb
    · exact List.mem_cons_self
    · exact List.mem_cons_of_mem _ (k.clean_subset b hb)
  | bwrite b' k => exact List.mem_cons_of_mem _ (k.clean_subset b hb)
  | logRelse _ lbuf _ => exact List.mem_cons_of_mem _ hb
  | copy lbuf dbuf _ => exact List.mem_append_left [dbuf] hb
  | headRelse | dst | relseLog | relseDst => exact hb
  | _ => cases hb

def Pc.Plain (pc : Pc) : Prop := ∀ b dev sector k, pc ≠ .bread b dev sector k

theorem Caller.plain_pc (b : Ref) (k : Caller) : (k.pc b).Plain := by
  cases k <;> exact fun _ _ _ _ => Pc.noConfusion

theorem Writer.plain_pc (b : Ref) (k : Writer) : (k.pc b).Plain := by
  cases k <;> exact fun _ _ _ _ => Pc.noConfusion

namespace Machine

variable {P : Type} {m m' : Machine P} {p : P}

structure Sound (m : Machine P) : Prop where
  listed : ∃ l : List Ref, (∀ b, b ∈ l) ∧ m.cache.Listed l
  unique : ∀ a b, (m.buf a).dev ≠ noDev → (m.buf a).dev = (m.buf b).dev →
    (m.buf a).sector = (m.buf b).sector → a = b
  busy : ∀ b, (m.buf b).busy = true ↔ ∃ p, m.held p b = true
  one : ∀ p q b, m.held p b = true → m.held q b = true → p = q
  dev : ∀ b, (m.buf b).valid = true → (m.buf b).dev = 1
  valid : ∀ b, (m.buf b).dirty = true → (m.buf b).valid = true
  stale : ∀ b, m.stale b = true → (m.buf b).busy = true
  current : ∀ b, (m.buf b).valid = true → m.stale b = false → (m.buf b).data = m.given (m.buf b).sector
  disk : ∀ s, (∀ b, (m.buf b).dirty = true → (m.buf b).sector ≠ s) → m.disk s = m.given s

structure Frame (m : Machine P) (p : P) : Prop where
  nodup : (m.pc p).uses.Nodup
  uses : ∀ b ∈ (m.pc p).uses, m.held p b = true
  clean : ∀ b ∈ (m.pc p).clean, m.stale b = false
  filled : ∀ b, m.held p b = true → (m.buf b).valid = true ∨ (m.pc p).Fills b
  wanted : ∀ b dev sector k, m.pc p = .bread b dev sector k → (m.buf b).dev = dev ∧ (m.buf b).sector = sector

structure Inv (m : Machine P) : Prop extends Sound m where
  frame : ∀ p, Frame m p

/-- The frame of a process that neither moved nor holds a buffer that changed. -/
theorem Frame.other {q : P} (h : Frame m q) (b₀ : Ref) (hFree : m.held q b₀ = false)
    (hHeld : m'.held q = m.held q)
    (hSame : ∀ b, b ≠ b₀ → m'.buf b = m.buf b ∧ m'.stale b = m.stale b)
    (hPc : m'.pc q = m.pc q ∨ m'.pc q = (m.pc q).wake b₀) : Frame m' q := by
  have hNe (b : Ref) (hb : m.held q b = true) : b ≠ b₀ := by
    rintro rfl
    simp [hFree] at hb
  have hUses : (m'.pc q).uses = (m.pc q).uses := by rcases hPc with hPc | hPc <;> simp [hPc]
  have hClean : (m'.pc q).clean = (m.pc q).clean := by rcases hPc with hPc | hPc <;> simp [hPc]
  have hFills : (m'.pc q).Fills = (m.pc q).Fills := by rcases hPc with hPc | hPc <;> simp [hPc]
  refine ⟨hUses ▸ h.nodup, fun b hb => ?_, fun b hb => ?_, fun b hb => ?_, fun b dev sector k hk => ?_⟩
  · rw [hHeld]
    exact h.uses b (hUses ▸ hb)
  · rw [hClean] at hb
    have hOld := h.uses b ((m.pc q).clean_subset b hb)
    rw [(hSame b (hNe b hOld)).2]
    exact h.clean b hb
  · rw [hHeld] at hb
    rw [(hSame b (hNe b hb)).1, hFills]
    exact h.filled b hb
  · have hOld : m.pc q = .bread b dev sector k := by
      rcases hPc with hPc | hPc
      · rw [← hPc, hk]
      · exact Pc.wake_bread (hPc.symm.trans hk)
    have hb : m.held q b = true := h.uses b (by rw [hOld]; exact List.mem_cons_self)
    rw [(hSame b (hNe b hb)).1]
    exact h.wanted b dev sector k hOld

/-! ## The buffers -/

theorem Sound.congr (h : Sound m) (hCache : m'.cache = m.cache) (hHeld : m'.held = m.held)
    (hStale : m'.stale = m.stale) (hGiven : m'.given = m.given) (hDisk : m'.disk = m.disk) : Sound m' := by
  have hBuf : m'.buf = m.buf := by
    funext b
    rw [buf, buf, hCache]
  obtain ⟨hListed, hUnique, hBusy, hOne, hDev, hValid, hSt, hCur, hDk⟩ := h
  constructor
  · rwa [hCache]
  · rwa [hBuf]
  · rwa [hBuf, hHeld]
  · rwa [hHeld]
  · rwa [hBuf]
  · rwa [hBuf]
  · rwa [hBuf, hStale]
  · rwa [hBuf, hStale, hGiven]
  · rwa [hBuf, hGiven, hDisk]

theorem Sound.write (h : Sound m) {b : Ref} (x : Buf) (hCache : m'.cache = m.cache.set b fun _ => x)
    (hHeld : m'.held = m.held) (hb : (m.buf b).busy = true) (hBusy : x.busy = true)
    (hDevice : x.dev = (m.buf b).dev) (hSector : x.sector = (m.buf b).sector) (hOne : (m.buf b).dev = 1)
    (hValid : x.dirty = true → x.valid = true) (hStale : ∀ a, a ≠ b → m'.stale a = m.stale a)
    (hGiven : ∀ s, s ≠ x.sector → m'.given s = m.given s) (hDisk : ∀ s, s ≠ x.sector → m'.disk s = m.disk s)
    (hCur : x.valid = true → m'.stale b = false → x.data = m'.given x.sector)
    (hClean : x.dirty = false → m'.disk x.sector = m'.given x.sector) : Sound m' := by
  have hSelf : m'.buf b = x := by simp [buf, hCache]
  have hOther (a : Ref) (ha : a ≠ b) : m'.buf a = m.buf a := by
    simp [buf, hCache, Cache.set_buf_of_ne _ _ ha]
  have hKey (a : Ref) : (m'.buf a).dev = (m.buf a).dev ∧ (m'.buf a).sector = (m.buf a).sector ∧
      (m'.buf a).busy = (m.buf a).busy := by
    rcases eq_or_ne a b with rfl | ha
    · rw [hSelf]
      exact ⟨hDevice, hSector, hBusy.trans hb.symm⟩
    · rw [hOther a ha]
      exact ⟨rfl, rfl, rfl⟩
  constructor
  · obtain ⟨l, hAll, hl⟩ := h.listed
    refine ⟨l, hAll, ?_⟩
    rw [hCache]
    exact hl
  · intro a c ha hDev hSec
    rw [(hKey a).1] at ha
    rw [(hKey a).1, (hKey c).1] at hDev
    rw [(hKey a).2.1, (hKey c).2.1] at hSec
    exact h.unique a c ha hDev hSec
  · intro a
    rw [(hKey a).2.2, hHeld]
    exact h.busy a
  · rw [hHeld]
    exact h.one
  · intro a ha
    rcases eq_or_ne a b with rfl | hne
    · exact (hKey a).1.trans hOne
    · rw [hOther a hne] at ha ⊢
      exact h.dev a ha
  · intro a ha
    rcases eq_or_ne a b with rfl | hne
    · rw [hSelf] at ha ⊢
      exact hValid ha
    · rw [hOther a hne] at ha ⊢
      exact h.valid a ha
  · intro a ha
    rcases eq_or_ne a b with rfl | hne
    · rwa [(hKey a).2.2]
    · rw [hOther a hne]
      exact h.stale a (hStale a hne ▸ ha)
  · intro a ha hs
    rcases eq_or_ne a b with rfl | hne
    · rw [hSelf] at ha ⊢
      exact hCur ha hs
    · rw [hOther a hne] at ha ⊢
      have hSec : (m.buf a).sector ≠ x.sector := by
        intro he
        have hDev := h.dev a ha
        exact hne (h.unique a b (by rw [hDev]; decide) (hDev.trans hOne.symm) (he.trans hSector))
      rw [hGiven _ hSec]
      exact h.current a ha (hStale a hne ▸ hs)
  · intro s hs
    rcases eq_or_ne s x.sector with rfl | hne
    · refine hClean ?_
      have := hs b
      rw [hSelf] at this
      simpa using this
    · rw [hGiven s hne, hDisk s hne]
      refine h.disk s fun a ha => ?_
      rcases eq_or_ne a b with rfl | hab
      · rw [← hSector]
        exact hne.symm
      · have := hs a
        rw [hOther a hab] at this
        exact this ha

variable [DecidableEq P]

theorem Sound.take (h : Sound m) {b : Ref} {f : Buf → Buf} (pc : Pc) (hFree : (m.buf b).busy = false)
    (hBusy : (f (m.buf b)).busy = true)
    (hKey : f (m.buf b) = { m.buf b with busy := true } ∨
      (m.buf b).dirty = false ∧ (f (m.buf b)).dirty = false ∧ (f (m.buf b)).valid = false ∧
        ∀ a, (m.buf a).dev ≠ (f (m.buf b)).dev ∨ (m.buf a).sector ≠ (f (m.buf b)).sector) :
    Sound (m.take p b f pc) := by
  have hSelf : (m.take p b f pc).buf b = f (m.buf b) := by simp [buf, Machine.take, goto]
  have hOther (a : Ref) (ha : a ≠ b) : (m.take p b f pc).buf a = m.buf a := by
    simp [buf, Machine.take, goto, Cache.set_buf_of_ne _ _ ha]
  have hHeldSelf : (m.take p b f pc).held p b = true := by simp [Machine.take, goto]
  have hHeld (q : P) (a : Ref) (ha : a ≠ b ∨ q ≠ p) : (m.take p b f pc).held q a = m.held q a := by
    rcases eq_or_ne q p with rfl | hq
    · rcases ha with ha | ha
      · simp [Machine.take, goto, ha]
      · exact absurd rfl ha
    · simp [Machine.take, goto, hq]
  have hNone (q : P) : m.held q b = false := by
    cases hq : m.held q b with
    | false => rfl
    | true =>
      have := (h.busy b).mpr ⟨q, hq⟩
      rw [hFree] at this
      cases this
  have hDirty (a : Ref) : ((m.take p b f pc).buf a).dirty = (m.buf a).dirty := by
    rcases eq_or_ne a b with rfl | ha
    · rw [hSelf]
      rcases hKey with he | ⟨hd, hd', -⟩
      · rw [he]
      · rw [hd, hd']
    · rw [hOther a ha]
  constructor
  · obtain ⟨l, hAll, hl⟩ := h.listed
    exact ⟨l, hAll, hl⟩
  · have hNew (a : Ref) (ha : a ≠ b) (hDev : (m.buf a).dev = (f (m.buf b)).dev)
        (hSec : (m.buf a).sector = (f (m.buf b)).sector) (hNo : (m.buf a).dev ≠ noDev) : a = b := by
      rcases hKey with he | ⟨-, -, -, hFresh⟩
      · rw [he] at hDev hSec
        exact h.unique a b hNo hDev hSec
      · rcases hFresh a with hd | hs
        · exact absurd hDev hd
        · exact absurd hSec hs
    intro a c ha hDev hSec
    rcases eq_or_ne a b with rfl | hab
    · rcases eq_or_ne c a with rfl | hcb
      · rfl
      · rw [hSelf] at ha hDev hSec
        rw [hOther c hcb] at hDev hSec
        exact (hNew c hcb hDev.symm hSec.symm (hDev ▸ ha)).symm
    · rcases eq_or_ne c b with rfl | hcb
      · rw [hOther a hab] at ha hDev hSec
        rw [hSelf] at hDev hSec
        exact hNew a hab hDev hSec ha
      · rw [hOther a hab] at ha hDev hSec
        rw [hOther c hcb] at hDev hSec
        exact h.unique a c ha hDev hSec
  · intro a
    rcases eq_or_ne a b with rfl | ha
    · rw [hSelf]
      exact iff_of_true hBusy ⟨p, hHeldSelf⟩
    · rw [hOther a ha, h.busy a]
      exact exists_congr fun q => by rw [hHeld q a (.inl ha)]
  · intro q r a hq hr
    rcases eq_or_ne a b with rfl | ha
    · have hOnly (q : P) (hq : (m.take p a f pc).held q a = true) : q = p := by
        by_contra hne
        rw [hHeld q a (.inr hne), hNone] at hq
        cases hq
      rw [hOnly q hq, hOnly r hr]
    · rw [hHeld q a (.inl ha)] at hq
      rw [hHeld r a (.inl ha)] at hr
      exact h.one q r a hq hr
  · intro a ha
    rcases eq_or_ne a b with rfl | hab
    · rw [hSelf] at ha ⊢
      rcases hKey with he | ⟨-, -, hv, -⟩
      · rw [he] at ha ⊢
        exact h.dev a ha
      · simp [hv] at ha
    · rw [hOther a hab] at ha ⊢
      exact h.dev a ha
  · intro a ha
    rw [hDirty] at ha
    rcases eq_or_ne a b with rfl | hab
    · rw [hSelf]
      rcases hKey with he | ⟨hd, -⟩
      · rw [he]
        exact h.valid a ha
      · simp [hd] at ha
    · rw [hOther a hab]
      exact h.valid a ha
  · intro a ha
    rcases eq_or_ne a b with rfl | hab
    · rwa [hSelf]
    · rw [hOther a hab]
      exact h.stale a ha
  · intro a ha hs
    rcases eq_or_ne a b with rfl | hab
    · rw [hSelf] at ha ⊢
      rcases hKey with he | ⟨-, -, hv, -⟩
      · rw [he] at ha ⊢
        exact h.current a ha hs
      · simp [hv] at ha
    · rw [hOther a hab] at ha ⊢
      exact h.current a ha hs
  · intro s hs
    refine h.disk s fun a ha => ?_
    have hOld := hs a (by rwa [hDirty])
    rcases eq_or_ne a b with rfl | hab
    · rw [hSelf] at hOld
      rcases hKey with he | ⟨hd, -⟩
      · rwa [he] at hOld
      · simp [hd] at ha
    · rwa [hOther a hab] at hOld

theorem Sound.brelse (h : Sound m) {b : Ref} (hb : m.held p b = true) (hStale : m.stale b = false)
    (hCache : m'.cache = m.cache.brelse b)
    (hHeld : m'.held = Function.update m.held p (Function.update (m.held p) b false))
    (hSt : m'.stale = m.stale) (hGiven : m'.given = m.given) (hDisk : m'.disk = m.disk) : Sound m' := by
  have hSelf : m'.buf b = { m.buf b with busy := false } := by simp [buf, hCache, Cache.brelse]
  have hOther (a : Ref) (ha : a ≠ b) : m'.buf a = m.buf a := by
    simp [buf, hCache, Cache.brelse, Cache.set_buf_of_ne _ _ ha]
  have hSame (a : Ref) : (m'.buf a).valid = (m.buf a).valid ∧ (m'.buf a).dirty = (m.buf a).dirty ∧
      (m'.buf a).dev = (m.buf a).dev ∧ (m'.buf a).sector = (m.buf a).sector ∧ (m'.buf a).data = (m.buf a).data := by
    rcases eq_or_ne a b with rfl | ha
    · rw [hSelf]
      exact ⟨rfl, rfl, rfl, rfl, rfl⟩
    · rw [hOther a ha]
      exact ⟨rfl, rfl, rfl, rfl, rfl⟩
  have hNone (q : P) : m'.held q b = false := by
    rw [hHeld]
    rcases eq_or_ne q p with rfl | hq
    · simp
    · rw [Function.update_of_ne hq]
      cases hqb : m.held q b with
      | false => rfl
      | true => exact absurd (h.one q p b hqb hb) hq
  have hRest (q : P) (a : Ref) (ha : a ≠ b) : m'.held q a = m.held q a := by
    rw [hHeld]
    rcases eq_or_ne q p with rfl | hq
    · simp [ha]
    · rw [Function.update_of_ne hq]
  constructor
  · obtain ⟨l, hAll, hl⟩ := h.listed
    refine ⟨b :: l.erase b, fun a => ?_, hCache ▸ hl.brelse (hAll b)⟩
    rcases eq_or_ne a b with rfl | ha
    · exact List.mem_cons_self
    · exact List.mem_cons_of_mem _ ((List.mem_erase_of_ne ha).mpr (hAll a))
  · intro a c ha hDev hSec
    obtain ⟨-, -, hda, hsa, -⟩ := hSame a
    obtain ⟨-, -, hdc, hsc, -⟩ := hSame c
    rw [hda] at ha
    exact h.unique a c ha (by rw [← hda, ← hdc, hDev]) (by rw [← hsa, ← hsc, hSec])
  · intro a
    rcases eq_or_ne a b with rfl | ha
    · rw [hSelf]
      exact iff_of_false (by simp) fun hBusy => hBusy.elim fun q hq => by simp [hNone] at hq
    · rw [hOther a ha, h.busy a]
      exact exists_congr fun q => by rw [hRest q a ha]
  · intro q r a hq hr
    rcases eq_or_ne a b with rfl | ha
    · simp [hNone] at hq
    · rw [hRest _ a ha] at hq hr
      exact h.one q r a hq hr
  · intro a ha
    rw [(hSame a).1] at ha
    rw [(hSame a).2.2.1]
    exact h.dev a ha
  · intro a ha
    rw [(hSame a).2.1] at ha
    rw [(hSame a).1]
    exact h.valid a ha
  · intro a ha
    rw [hSt] at ha
    have hne : a ≠ b := by
      rintro rfl
      simp [hStale] at ha
    rw [hOther a hne]
    exact h.stale a ha
  · intro a ha hs
    obtain ⟨hv, -, -, hsec, hdata⟩ := hSame a
    rw [hv] at ha
    rw [hSt] at hs
    rw [hsec, hdata, hGiven]
    exact h.current a ha hs
  · intro s hs
    rw [hDisk, hGiven]
    refine h.disk s fun a ha => ?_
    obtain ⟨-, hd, -, hsec, -⟩ := hSame a
    rw [← hsec]
    exact hs a (hd.trans ha)

end Machine

end Xv6Rpi.Bio
