import Xv6Rpi.Icache.Machine

/-! # Coherence of the inode cache

`Core` is what holds of the slots, and `PcOk` what a process inside of an inode function
relies on. A process changes a slot that another one has locked only in its `ref`, so what
the other relies on stays (`Others`).
-/

namespace Xv6Rpi.Icache

open Fs (Dinode iblock ndirect)

theorem scan_eq_cached {inode : Nat → Inode} {dev inum i : Nat} (h : scan inode dev inum = .cached i) :
    0 < (inode i).ref ∧ (inode i).dev = dev ∧ (inode i).inum = inum := by
  unfold scan at h
  split at h
  · next j hj =>
    obtain rfl := Scan.cached.inj h
    simpa using List.find?_some hj
  · split at h <;> cases h

theorem scan_eq_empty {inode : Nat → Inode} {dev inum i : Nat} (h : scan inode dev inum = .empty i) :
    i < ninode ∧ (inode i).ref = 0 ∧
      ∀ j < ninode, 0 < (inode j).ref → (inode j).dev = dev → (inode j).inum ≠ inum := by
  unfold scan at h
  split at h
  · cases h
  · next hNone =>
    split at h
    · next j hj =>
      obtain rfl := Scan.empty.inj h
      refine ⟨List.mem_range.mp (List.mem_of_find?_eq_some hj), by simpa using List.find?_some hj, ?_⟩
      intro k hk hRef hDev hInum
      exact List.find?_eq_none.mp hNone k (List.mem_range.mpr hk) (by simp [hRef, hDev, hInum])
    · cases h

namespace Machine

variable {P : Type}

/-- What the claims of the other processes on the slots rest on. -/
structure Core (m : Machine P) : Prop where
  range : ∀ i, m.owners i ≠ [] → i < ninode
  owned : ∀ i, (m.inode i).ref = (m.owners i).length
  unique : ∀ i j, m.owners i ≠ [] → m.owners j ≠ [] → (m.inode i).dev = (m.inode j).dev →
    (m.inode i).inum = (m.inode j).inum → i = j
  holds : ∀ p i, m.locks p i = true → p ∈ m.owners i
  busy : ∀ i, (m.inode i).busy = true ↔ ∃ p, m.locks p i = true
  one : ∀ p q i, m.locks p i = true → m.locks q i = true → p = q
  dirty : ∀ i, m.dirty i = true → ∃ p, m.locks p i = true
  same : ∀ i, m.owners i ≠ [] → (m.inode i).valid = true → m.dirty i = false → (m.inode i).di = m.onDisk i

structure NoLinks (m : Machine P) (i : Nat) : Prop where
  valid : (m.inode i).valid = true
  cached : (m.inode i).di.nlink = 0
  disk : (m.onDisk i).nlink = 0

/-- What process `p` relies on at a place in its code. -/
def PcOk (m : Machine P) (p : P) : Pc → Prop
  | .client => True
  | .ilock i => p ∈ m.owners i
  | .asleep i => p ∈ m.owners i
  | .load i => m.locks p i = true
  | .fill i => m.locks p i = true
  | .filled i => m.locks p i = true ∧ (m.inode i).di = m.onDisk i ∧ m.dirty i = false
  | .update i k => m.locks p i = true ∧ (k ≠ .client → m.NoLinks i)
  | .write i k => m.locks p i = true ∧ (k ≠ .client → m.NoLinks i)
  | .written i k => m.locks p i = true ∧ m.dirty i = false ∧ (k ≠ .client → m.NoLinks i)
  | .itrunc i _ => m.locks p i = true ∧ m.NoLinks i
  | .size i => m.locks p i = true ∧ m.NoLinks i
  | .free i => m.locks p i = true ∧ m.NoLinks i
  | .freed i => m.locks p i = true ∧ m.dirty i = false ∧ m.NoLinks i
  | .panic _ => True

structure Inv (m : Machine P) : Prop extends Core m where
  pcs : ∀ p, m.PcOk p (m.pc p)

structure Others (p : P) (m m' : Machine P) : Prop where
  pc : ∀ q, q ≠ p → m'.pc q = m.pc q ∨ ∃ i, m.pc q = .asleep i ∧ m'.pc q = .ilock i
  owners : ∀ q i, q ≠ p → q ∈ m.owners i → q ∈ m'.owners i
  locks : ∀ q i, q ≠ p → m.locks q i = true → m'.locks q i = true
  slot : ∀ q i, q ≠ p → m.locks q i = true → (m'.inode i).valid = (m.inode i).valid ∧
    (m'.inode i).di = (m.inode i).di ∧ m'.dirty i = m.dirty i ∧ m'.onDisk i = m.onDisk i

section Others

variable {p q : P} {i : Nat} {m m' m'' : Machine P}

theorem Others.refl (p : P) (m : Machine P) : Others p m m :=
  ⟨fun _ _ => .inl rfl, fun _ _ _ h => h, fun _ _ _ h => h, fun _ _ _ _ => ⟨rfl, rfl, rfl, rfl⟩⟩

theorem Others.trans (h : Others p m m') (h' : Others p m' m'') (hPc : m''.pc = m'.pc) : Others p m m'' := by
  refine ⟨fun q hq => hPc ▸ h.pc q hq, fun q i hq hi => h'.owners q i hq (h.owners q i hq hi),
    fun q i hq hl => h'.locks q i hq (h.locks q i hq hl), fun q i hq hl => ?_⟩
  obtain ⟨hv, hd, hc, hD⟩ := h.slot q i hq hl
  obtain ⟨hv', hd', hc', hD'⟩ := h'.slot q i hq (h.locks q i hq hl)
  exact ⟨hv'.trans hv, hd'.trans hd, hc'.trans hc, hD'.trans hD⟩

theorem Others.noLinks (h : Others p m m') (hq : q ≠ p) (hl : m.locks q i = true) (hi : m.NoLinks i) :
    m'.NoLinks i := by
  obtain ⟨hv, hd, -, hD⟩ := h.slot q i hq hl
  exact ⟨hv.trans hi.valid, hd ▸ hi.cached, hD ▸ hi.disk⟩

theorem Others.pcOk (h : Others p m m') (hq : q ≠ p) {pc : Pc} (hpc : m.PcOk q pc) : m'.PcOk q pc := by
  cases pc with
  | client => trivial
  | panic e => trivial
  | ilock i => exact h.owners q i hq hpc
  | asleep i => exact h.owners q i hq hpc
  | load i => exact h.locks q i hq hpc
  | fill i => exact h.locks q i hq hpc
  | filled i =>
    obtain ⟨hl, hd, hc⟩ := hpc
    obtain ⟨-, hd', hc', hD⟩ := h.slot q i hq hl
    exact ⟨h.locks q i hq hl, by rw [hd', hD, hd], hc'.trans hc⟩
  | update i k => exact ⟨h.locks q i hq hpc.1, fun hk => h.noLinks hq hpc.1 (hpc.2 hk)⟩
  | write i k => exact ⟨h.locks q i hq hpc.1, fun hk => h.noLinks hq hpc.1 (hpc.2 hk)⟩
  | written i k =>
    obtain ⟨hl, hc, hn⟩ := hpc
    exact ⟨h.locks q i hq hl, (h.slot q i hq hl).2.2.1.trans hc, fun hk => h.noLinks hq hl (hn hk)⟩
  | itrunc i n => exact ⟨h.locks q i hq hpc.1, h.noLinks hq hpc.1 hpc.2⟩
  | size i => exact ⟨h.locks q i hq hpc.1, h.noLinks hq hpc.1 hpc.2⟩
  | free i => exact ⟨h.locks q i hq hpc.1, h.noLinks hq hpc.1 hpc.2⟩
  | freed i =>
    obtain ⟨hl, hc, hn⟩ := hpc
    exact ⟨h.locks q i hq hl, (h.slot q i hq hl).2.2.1.trans hc, h.noLinks hq hl hn⟩

/-- A step from `m` to `m'` that keeps `Core`, leaves the others what they rely on, and gives
`p` what it relies on next. -/
structure Moves (p : P) (m m' : Machine P) : Prop where
  core : Core m'
  others : Others p m m'
  pcOk : m'.PcOk p (m'.pc p)

theorem Inv.moves (h : Inv m) (hMoves : Moves p m m') : Inv m' := by
  refine ⟨hMoves.core, fun q => ?_⟩
  by_cases hq : q = p
  · exact hq ▸ hMoves.pcOk
  · have hOk : m'.PcOk q (m.pc q) := hMoves.others.pcOk hq (h.pcs q)
    obtain hSame | ⟨i, hi, hi'⟩ := hMoves.others.pc q hq
    · rwa [hSame]
    · rw [hi] at hOk
      rw [hi']
      exact hOk

end Others

section Updates

variable [DecidableEq P] {p : P} {i : Nat} {m : Machine P}

@[simp] theorem goto_pc (m : Machine P) (p : P) (pc : Pc) : (m.goto p pc).pc p = pc := Function.update_self ..

theorem Core.goto (h : Core m) (p : P) (pc : Pc) : Core (m.goto p pc) :=
  ⟨h.range, h.owned, h.unique, h.holds, h.busy, h.one, h.dirty, h.same⟩

omit [DecidableEq P] in
theorem Core.hold (h : Core m) (i : Nat) (t : Bool) : Core (m.hold i t) :=
  ⟨h.range, h.owned, h.unique, h.holds, h.busy, h.one, h.dirty, h.same⟩

theorem Others.goto {m' : Machine P} (h : Others p m m') (pc : Pc) : Others p m (m'.goto p pc) := by
  refine ⟨fun q hq => ?_, h.owners, h.locks, h.slot⟩
  simpa only [Machine.goto, Function.update_of_ne hq] using h.pc q hq

omit [DecidableEq P] in
theorem Others.hold {m' : Machine P} (h : Others p m m') (i : Nat) (t : Bool) : Others p m (m'.hold i t) :=
  ⟨h.pc, h.owners, h.locks, h.slot⟩

/-! ### A slot that the process has locked -/

omit [DecidableEq P] in
theorem Core.store (h : Core m) (hLock : m.locks p i = true) {di : Dinode} {d : Bool}
    (hd : d = false → di = m.onDisk i) : Core (m.store i di d) := by
  have hInode (j : Nat) : ((m.store i di d).inode j).dev = (m.inode j).dev ∧
      ((m.store i di d).inode j).inum = (m.inode j).inum ∧ ((m.store i di d).inode j).ref = (m.inode j).ref ∧
      ((m.store i di d).inode j).busy = (m.inode j).busy ∧ ((m.store i di d).inode j).valid = (m.inode j).valid := by
    obtain rfl | hj := eq_or_ne j i
    · simp [Machine.store]
    · simp [Machine.store, Function.update_of_ne hj]
  constructor
  case range => exact h.range
  case owned => exact fun j => (hInode j).2.2.1.trans (h.owned j)
  case unique =>
    intro j k hj hk hDev hInum
    rw [(hInode j).1, (hInode k).1] at hDev
    rw [(hInode j).2.1, (hInode k).2.1] at hInum
    exact h.unique j k hj hk hDev hInum
  case holds => exact h.holds
  case busy => exact fun j => by rw [(hInode j).2.2.2.1]; exact h.busy j
  case one => exact h.one
  case dirty =>
    intro j hj
    obtain rfl | hne := eq_or_ne j i
    · exact ⟨p, hLock⟩
    · exact h.dirty j (by simpa [Machine.store, Function.update_of_ne hne] using hj)
  case same =>
    intro j hj hv hc
    obtain rfl | hne := eq_or_ne j i
    · simpa [Machine.store, onDisk] using hd (by simpa [Machine.store] using hc)
    · simp only [Machine.store, Function.update_of_ne hne, onDisk] at hv hc ⊢
      exact h.same j hj hv hc

omit [DecidableEq P] in
theorem Core.others_store (h : Core m) (hLock : m.locks p i = true) (di : Dinode) (d : Bool) :
    Others p m (m.store i di d) := by
  refine ⟨fun _ _ => .inl rfl, fun _ _ _ hq => hq, fun _ _ _ hq => hq, fun q j hq hj => ?_⟩
  have hne : j ≠ i := by
    rintro rfl
    exact hq (h.one q p j hj hLock)
  simp [Machine.store, onDisk, Function.update_of_ne hne]

omit [DecidableEq P] in
theorem onDisk_writeBack_self (m : Machine P) (i : Nat) : (m.writeBack i).onDisk i = (m.inode i).di := by
  simp [writeBack, onDisk]

omit [DecidableEq P] in
theorem Core.onDisk_writeBack (h : Core m) (hi : m.owners i ≠ []) {j : Nat} (hj : m.owners j ≠ []) (hne : j ≠ i) :
    (m.writeBack i).onDisk j = m.onDisk j := by
  simp only [writeBack, onDisk, Function.update_apply]
  split
  · next hDev =>
    rw [Function.update_of_ne, hDev]
    exact fun hInum => hne (h.unique j i hj hi hDev hInum)
  · rfl

omit [DecidableEq P] in
theorem Core.writeBack (h : Core m) (hLock : m.locks p i = true) : Core (m.writeBack i) := by
  have hOwn : m.owners i ≠ [] := List.ne_nil_of_mem (h.holds p i hLock)
  refine ⟨h.range, h.owned, h.unique, h.holds, h.busy, h.one, fun j hj => ?_, fun j hj hv hc => ?_⟩
  · obtain rfl | hne := eq_or_ne j i
    · exact ⟨p, hLock⟩
    · exact h.dirty j (by simpa [Machine.writeBack, Function.update_of_ne hne] using hj)
  · obtain rfl | hne := eq_or_ne j i
    · exact (onDisk_writeBack_self m j).symm
    · rw [h.onDisk_writeBack hOwn hj hne]
      exact h.same j hj hv (by simpa [Machine.writeBack, Function.update_of_ne hne] using hc)

omit [DecidableEq P] in
theorem Core.others_writeBack (h : Core m) (hLock : m.locks p i = true) : Others p m (m.writeBack i) := by
  refine ⟨fun _ _ => .inl rfl, fun _ _ _ hq => hq, fun _ _ _ hq => hq, fun q j hq hj => ?_⟩
  have hne : j ≠ i := by
    rintro rfl
    exact hq (h.one q p j hj hLock)
  refine ⟨rfl, rfl, by simp [Machine.writeBack, Function.update_of_ne hne], ?_⟩
  exact h.onDisk_writeBack (List.ne_nil_of_mem (h.holds p i hLock)) (List.ne_nil_of_mem (h.holds q j hj)) hne

/-! ### `I_BUSY` and `I_VALID` -/

theorem locks_lock (m : Machine P) (p : P) (i : Nat) (q : P) (j : Nat) :
    (m.lock p i).locks q j = true ↔ (q = p ∧ j = i) ∨ m.locks q j = true := by
  simp only [Machine.lock, Function.update_apply]
  split
  · next hq =>
    subst hq
    simp only [Function.update_apply]
    split <;> simp [*]
  · next hq => simp [hq]

theorem locks_unlock (m : Machine P) (p : P) (i : Nat) (v : Bool) (q : P) (j : Nat) :
    (m.unlock p i v).locks q j = true ↔ ¬(q = p ∧ j = i) ∧ m.locks q j = true := by
  simp only [Machine.unlock, Function.update_apply]
  split
  · next hq =>
    subst hq
    simp only [Function.update_apply]
    split <;> simp [*]
  · next hq => simp [hq]

theorem Core.lock (h : Core m) (hOwn : p ∈ m.owners i) (hFree : (m.inode i).busy = false) : Core (m.lock p i) := by
  have hNone (q : P) : m.locks q i ≠ true := fun hq => by
    rw [(h.busy i).mpr ⟨q, hq⟩] at hFree
    cases hFree
  have hInode (j : Nat) : ((m.lock p i).inode j).dev = (m.inode j).dev ∧
      ((m.lock p i).inode j).inum = (m.inode j).inum ∧ ((m.lock p i).inode j).ref = (m.inode j).ref ∧
      ((m.lock p i).inode j).di = (m.inode j).di ∧ ((m.lock p i).inode j).valid = (m.inode j).valid := by
    obtain rfl | hj := eq_or_ne j i
    · simp [Machine.lock]
    · simp [Machine.lock, Function.update_of_ne hj]
  constructor
  case range => exact h.range
  case owned => exact fun j => (hInode j).2.2.1.trans (h.owned j)
  case unique =>
    intro j k hj hk hDev hInum
    rw [(hInode j).1, (hInode k).1] at hDev
    rw [(hInode j).2.1, (hInode k).2.1] at hInum
    exact h.unique j k hj hk hDev hInum
  case holds =>
    intro q j hq
    obtain ⟨rfl, rfl⟩ | hq := (locks_lock ..).mp hq
    · exact hOwn
    · exact h.holds q j hq
  case busy =>
    intro j
    simp only [locks_lock]
    obtain rfl | hj := eq_or_ne j i
    · simp [Machine.lock]
    · simpa [Machine.lock, Function.update_of_ne hj, hj] using h.busy j
  case one =>
    intro q r j hq hr
    obtain ⟨rfl, rfl⟩ | hq' := (locks_lock ..).mp hq
    · obtain ⟨rfl, -⟩ | hr' := (locks_lock ..).mp hr
      · rfl
      · exact absurd hr' (hNone r)
    · obtain ⟨rfl, rfl⟩ | hr' := (locks_lock ..).mp hr
      · exact absurd hq' (hNone q)
      · exact h.one q r j hq' hr'
  case dirty =>
    intro j hj
    obtain ⟨q, hq⟩ := h.dirty j hj
    exact ⟨q, (locks_lock ..).mpr (.inr hq)⟩
  case same =>
    intro j hj hv hc
    rw [(hInode j).2.2.2.2] at hv
    rw [(hInode j).2.2.2.1, onDisk, (hInode j).1, (hInode j).2.1]
    exact h.same j hj hv hc

theorem others_lock (m : Machine P) (p : P) (i : Nat) : Others p m (m.lock p i) := by
  refine ⟨fun _ _ => .inl rfl, fun _ _ _ hq => hq, fun q j hq hj => (locks_lock ..).mpr (.inr hj), fun q j hq hj => ?_⟩
  obtain rfl | hne := eq_or_ne j i
  · simp [Machine.lock, onDisk]
  · simp [Machine.lock, onDisk, Function.update_of_ne hne]

theorem Core.unlock (h : Core m) (hLock : m.locks p i = true) (hClean : m.dirty i = false) (v : Bool) :
    Core (m.unlock p i v) := by
  have hInode (j : Nat) : ((m.unlock p i v).inode j).dev = (m.inode j).dev ∧
      ((m.unlock p i v).inode j).inum = (m.inode j).inum ∧ ((m.unlock p i v).inode j).ref = (m.inode j).ref ∧
      ((m.unlock p i v).inode j).di = (m.inode j).di ∧
      (((m.unlock p i v).inode j).valid = true → (m.inode j).valid = true) := by
    obtain rfl | hj := eq_or_ne j i
    · simpa [Machine.unlock] using fun hv _ => hv
    · simp [Machine.unlock, Function.update_of_ne hj]
  constructor
  case range => exact h.range
  case owned => exact fun j => (hInode j).2.2.1.trans (h.owned j)
  case unique =>
    intro j k hj hk hDev hInum
    rw [(hInode j).1, (hInode k).1] at hDev
    rw [(hInode j).2.1, (hInode k).2.1] at hInum
    exact h.unique j k hj hk hDev hInum
  case holds => exact fun q j hq => h.holds q j ((locks_unlock ..).mp hq).2
  case busy =>
    intro j
    simp only [locks_unlock]
    obtain rfl | hj := eq_or_ne j i
    · constructor
      · simp [Machine.unlock]
      · rintro ⟨q, hq, hl⟩
        exact absurd ⟨h.one q p j hl hLock, rfl⟩ hq
    · simpa [Machine.unlock, Function.update_of_ne hj, hj] using h.busy j
  case one => exact fun q r j hq hr => h.one q r j ((locks_unlock ..).mp hq).2 ((locks_unlock ..).mp hr).2
  case dirty =>
    intro j hj
    have hne : j ≠ i := by
      rintro rfl
      exact absurd (hClean.symm.trans hj) (by simp)
    obtain ⟨q, hq⟩ := h.dirty j hj
    exact ⟨q, (locks_unlock ..).mpr ⟨fun hqj => hne hqj.2, hq⟩⟩
  case same =>
    intro j hj hv hc
    rw [(hInode j).2.2.2.1, onDisk, (hInode j).1, (hInode j).2.1]
    exact h.same j hj ((hInode j).2.2.2.2 hv) hc

theorem Core.others_unlock (h : Core m) (hLock : m.locks p i = true) (v : Bool) : Others p m (m.unlock p i v) := by
  have hne {q : P} {j : Nat} (hq : q ≠ p) (hj : m.locks q j = true) : j ≠ i := by
    rintro rfl
    exact hq (h.one q p j hj hLock)
  refine ⟨fun q hq => ?_, fun _ _ _ hq => hq, fun q j hq hj => ?_, fun q j hq hj => ?_⟩
  · cases hPc : m.pc q with
    | asleep j =>
      obtain rfl | hj := eq_or_ne j i
      · exact .inr ⟨j, rfl, by simp [Machine.unlock, hPc, Pc.wake]⟩
      · exact .inl (by simp [Machine.unlock, hPc, Pc.wake, hj])
    | _ => exact .inl (by simp [Machine.unlock, hPc, Pc.wake])
  · exact (locks_unlock ..).mpr ⟨fun hqj => hq hqj.1, hj⟩
  · simp [Machine.unlock, onDisk, Function.update_of_ne (hne hq hj)]

omit [DecidableEq P] in
/-- `ilock` sets `I_VALID` on a copy that it has just read. -/
theorem Core.setValid (h : Core m) (hSame : (m.inode i).di = m.onDisk i) :
    Core { m with inode := Function.update m.inode i { m.inode i with valid := true } } := by
  have hInode (j : Nat) : (Function.update m.inode i { m.inode i with valid := true } j).dev = (m.inode j).dev ∧
      (Function.update m.inode i { m.inode i with valid := true } j).inum = (m.inode j).inum ∧
      (Function.update m.inode i { m.inode i with valid := true } j).ref = (m.inode j).ref ∧
      (Function.update m.inode i { m.inode i with valid := true } j).busy = (m.inode j).busy := by
    obtain rfl | hj := eq_or_ne j i
    · simp
    · simp [Function.update_of_ne hj]
  refine ⟨h.range, fun j => (hInode j).2.2.1.trans (h.owned j), fun j k hj hk hDev hInum => ?_, h.holds,
    fun j => ?_, h.one, h.dirty, fun j hj hv hc => ?_⟩
  · rw [(hInode j).1, (hInode k).1] at hDev
    rw [(hInode j).2.1, (hInode k).2.1] at hInum
    exact h.unique j k hj hk hDev hInum
  · show (Function.update m.inode i _ j).busy = true ↔ _
    rw [(hInode j).2.2.2]
    exact h.busy j
  · obtain rfl | hne := eq_or_ne j i
    · simpa [onDisk] using hSame
    · simp only [Function.update_of_ne hne, onDisk] at hv ⊢
      exact h.same j hj hv hc

omit [DecidableEq P] in
theorem Core.others_setValid (h : Core m) (hLock : m.locks p i = true) :
    Others p m { m with inode := Function.update m.inode i { m.inode i with valid := true } } := by
  refine ⟨fun _ _ => .inl rfl, fun _ _ _ hq => hq, fun _ _ _ hq => hq, fun q j hq hj => ?_⟩
  have hne : j ≠ i := by
    rintro rfl
    exact hq (h.one q p j hj hLock)
  simp [onDisk, Function.update_of_ne hne]

/-! ### References -/

/-- The references to slot `i` change, and nothing else of a slot in use. -/
structure Refs (m m' : Machine P) (i : Nat) : Prop where
  pc : m'.pc = m.pc
  locks : m'.locks = m.locks
  dirty : m'.dirty = m.dirty
  disk : m'.disk = m.disk
  inode : ∀ j, j ≠ i → m'.inode j = m.inode j
  owners : ∀ j, j ≠ i → m'.owners j = m.owners j
  used : m.owners i ≠ [] → m'.owners i ≠ [] → m'.inode i = { m.inode i with ref := (m'.inode i).ref }
  busy : (m'.inode i).busy = (m.inode i).busy
  keeps : ∀ q, m.locks q i = true → q ∈ m'.owners i

omit [DecidableEq P] in
theorem Refs.others {m' : Machine P} (hr : Refs m m' i) (h : Core m) (hOthers : ∀ q, q ≠ p → q ∈ m.owners i → q ∈ m'.owners i) :
    Others p m m' := by
  refine ⟨fun q _ => .inl (by rw [hr.pc]), fun q j hq hj => ?_, fun q j _ hj => hr.locks ▸ hj, fun q j hq hj => ?_⟩
  · obtain rfl | hne := eq_or_ne j i
    · exact hOthers q hq hj
    · rwa [hr.owners j hne]
  · obtain rfl | hne := eq_or_ne j i
    · have hUsed := hr.used (List.ne_nil_of_mem (h.holds q j hj)) (List.ne_nil_of_mem (hr.keeps q hj))
      rw [onDisk, onDisk, hUsed, hr.dirty, hr.disk]
      exact ⟨rfl, rfl, rfl, rfl⟩
    · rw [onDisk, onDisk, hr.inode j hne, hr.dirty, hr.disk]
      exact ⟨rfl, rfl, rfl, rfl⟩

omit [DecidableEq P] in
theorem Refs.core {m' : Machine P} (hr : Refs m m' i) (h : Core m) (hRange : m'.owners i ≠ [] → i < ninode)
    (hOwned : (m'.inode i).ref = (m'.owners i).length)
    (hUnique : m'.owners i ≠ [] → ∀ j, j ≠ i → m.owners j ≠ [] → (m.inode j).dev = (m'.inode i).dev →
      (m.inode j).inum ≠ (m'.inode i).inum)
    (hSame : m'.owners i ≠ [] → (m'.inode i).valid = true → m'.dirty i = false → (m'.inode i).di = m'.onDisk i) :
    Core m' := by
  constructor
  case range =>
    intro j hj
    obtain rfl | hne := eq_or_ne j i
    · exact hRange hj
    · exact h.range j (hr.owners j hne ▸ hj)
  case owned =>
    intro j
    obtain rfl | hne := eq_or_ne j i
    · exact hOwned
    · rw [hr.inode j hne, hr.owners j hne]
      exact h.owned j
  case unique =>
    intro j k hj hk hDev hInum
    obtain rfl | hji := eq_or_ne j i
    · obtain rfl | hki := eq_or_ne k j
      · rfl
      · rw [hr.owners k hki] at hk
        rw [hr.inode k hki] at hDev hInum
        exact absurd hInum.symm (hUnique hj k hki hk hDev.symm)
    · rw [hr.owners j hji] at hj
      rw [hr.inode j hji] at hDev hInum
      obtain rfl | hki := eq_or_ne k i
      · exact absurd hInum (hUnique hk j hji hj hDev)
      · rw [hr.owners k hki] at hk
        rw [hr.inode k hki] at hDev hInum
        exact h.unique j k hj hk hDev hInum
  case holds =>
    intro q j hq
    rw [hr.locks] at hq
    obtain rfl | hne := eq_or_ne j i
    · exact hr.keeps q hq
    · rw [hr.owners j hne]
      exact h.holds q j hq
  case busy =>
    intro j
    rw [hr.locks]
    obtain rfl | hne := eq_or_ne j i
    · rw [hr.busy]
      exact h.busy j
    · rw [hr.inode j hne]
      exact h.busy j
  case one => exact hr.locks ▸ h.one
  case dirty => exact fun j hj => hr.locks ▸ h.dirty j (hr.dirty ▸ hj)
  case same =>
    intro j hj hv hc
    obtain rfl | hne := eq_or_ne j i
    · exact hSame hj hv hc
    · rw [hr.owners j hne] at hj
      rw [onDisk, hr.inode j hne] at *
      rw [hr.dirty] at hc
      rw [hr.disk]
      exact h.same j hj hv hc

omit [DecidableEq P] in
theorem Refs.core_of_used {m' : Machine P} (hr : Refs m m' i) (h : Core m) (hUsed : m.owners i ≠ [])
    (hOwned : (m'.inode i).ref = (m'.owners i).length) : Core m' := by
  refine hr.core h (fun _ => h.range i hUsed) hOwned (fun hOwn j hj hjOwn hDev hInum => ?_) (fun hOwn hv hc => ?_)
  · rw [hr.used hUsed hOwn] at hDev hInum
    exact hj (h.unique j i hjOwn hUsed hDev hInum)
  · rw [hr.used hUsed hOwn] at hv ⊢
    rw [onDisk, hr.used hUsed hOwn, hr.disk]
    exact h.same i hUsed hv (hr.dirty ▸ hc)

omit [DecidableEq P] in
theorem Core.refs_incr (h : Core m) (q : P) (i : Nat) : Refs m (m.incr q i) i := by
  refine ⟨rfl, rfl, rfl, rfl, fun j hj => ?_, fun j hj => ?_, fun _ _ => ?_, ?_, fun r hr => ?_⟩
  · exact Function.update_of_ne hj ..
  · exact Function.update_of_ne hj ..
  · simp [Machine.incr]
  · simp [Machine.incr]
  · simpa [Machine.incr] using .inr (h.holds r i hr)

omit [DecidableEq P] in
theorem Core.incr (h : Core m) {q : P} (hUsed : m.owners i ≠ []) : Core (m.incr q i) := by
  refine (h.refs_incr q i).core_of_used h hUsed ?_
  simp [Machine.incr, h.owned i]

theorem Core.refs_decr (h : Core m) (hKeep : m.locks p i = true → p ∈ (m.owners i).erase p) :
    Refs m (m.decr p i) i := by
  refine ⟨rfl, rfl, rfl, rfl, fun j hj => ?_, fun j hj => ?_, fun _ _ => ?_, ?_, fun r hr => ?_⟩
  · exact Function.update_of_ne hj ..
  · exact Function.update_of_ne hj ..
  · simp [Machine.decr]
  · simp [Machine.decr]
  · simp only [Machine.decr, Function.update_self]
    obtain rfl | hne := eq_or_ne r p
    · exact hKeep hr
    · exact (List.mem_erase_of_ne hne).mpr (h.holds r i hr)

theorem Core.decr (h : Core m) (hOwn : p ∈ m.owners i) (hKeep : m.locks p i = true → p ∈ (m.owners i).erase p) :
    Core (m.decr p i) := by
  refine (h.refs_decr hKeep).core_of_used h (List.ne_nil_of_mem hOwn) ?_
  have hPos := List.length_pos_of_mem hOwn
  simp only [Machine.decr, Function.update_self, h.owned i, List.length_erase_of_mem hOwn]
  omega

theorem spare_keep (hSpare : m.spare p i) (hLock : m.locks p i = true) : p ∈ (m.owners i).erase p := by
  have hCount := hSpare.2 hLock
  rw [← List.count_pos_iff, List.count_erase_self]
  omega

end Updates

end Machine

end Xv6Rpi.Icache
