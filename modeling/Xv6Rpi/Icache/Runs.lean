import Xv6Rpi.Icache.Coherence
import Xv6Rpi.Lib.Run

/-! # Every interleaving of the inode functions

The invariant holds in every state, and whoever frees an inode began to do so in an `iput`
that saw its own reference as the last one and no link.
-/

namespace Xv6Rpi.Icache

open Fs (Dinode iblock ndirect)

def Pc.Frees : Pc → Nat → Prop
  | .itrunc j _, i => j = i
  | .size j, i => j = i
  | .update j k, i => j = i ∧ k ≠ .client
  | .write j k, i => j = i ∧ k ≠ .client
  | .written j k, i => j = i ∧ k ≠ .client
  | .free j, i => j = i
  | .freed j, i => j = i
  | _, _ => False

namespace Machine

variable {P : Type} [DecidableEq P] {p : P} {i : Nat} {m m' : Machine P}

/-! ## One step -/

theorem noLinks_goto (m : Machine P) (p : P) (pc : Pc) (i : Nat) : (m.goto p pc).NoLinks i ↔ m.NoLinks i :=
  ⟨fun h => ⟨h.1, h.2, h.3⟩, fun h => ⟨h.1, h.2, h.3⟩⟩

omit [DecidableEq P] in
theorem noLinks_hold (m : Machine P) (j : Nat) (t : Bool) (i : Nat) : (m.hold j t).NoLinks i ↔ m.NoLinks i :=
  ⟨fun h => ⟨h.1, h.2, h.3⟩, fun h => ⟨h.1, h.2, h.3⟩⟩

theorem pcOk_goto (m : Machine P) (p : P) (pc pc' : Pc) : (m.goto p pc).PcOk p pc' ↔ m.PcOk p pc' := by
  cases pc' <;> simp only [PcOk, noLinks_goto] <;> rfl

/-- Process `p` makes a step and goes on at `pc`. -/
theorem Moves.then (hCore : Core m') (hOthers : Others p m m') {pc : Pc} (hOk : m'.PcOk p pc) :
    Moves p m (m'.goto p pc) := by
  refine ⟨hCore.goto p pc, hOthers.goto pc, ?_⟩
  rwa [goto_pc, pcOk_goto]

theorem Core.moves_goto (h : Core m) {pc : Pc} (hOk : m.PcOk p pc) : Moves p m (m.goto p pc) :=
  .then h (Others.refl p m) hOk

theorem Core.iget (h : Core m) (p : P) (dev inum : Nat) : Core (m.iget p dev inum) := by
  unfold Machine.iget
  split
  · next j hj =>
    have hPos := (scan_eq_cached hj).1
    refine h.incr fun hNil => ?_
    rw [h.owned j, hNil] at hPos
    exact absurd hPos (by simp)
  · next j hj =>
    obtain ⟨hRange, hRef, hNew⟩ := scan_eq_empty hj
    have hNil : m.owners j = [] := List.length_eq_zero_iff.mp (by have := h.owned j; omega)
    have hUnlocked (q : P) : m.locks q j ≠ true := fun hq => by
      have := h.holds q j hq
      rw [hNil] at this
      cases this
    have hFree : (m.inode j).busy = false := by
      by_contra hb
      obtain ⟨q, hq⟩ := (h.busy j).mp (by simpa using hb)
      exact hUnlocked q hq
    have hRefs : Refs m { m with
        inode := Function.update m.inode j ⟨dev, inum, 1, false, false, (m.inode j).di⟩
        owners := Function.update m.owners j [p] } j := by
      refine ⟨rfl, rfl, rfl, rfl, fun k hk => ?_, fun k hk => ?_, fun hUsed => absurd hNil hUsed, ?_,
        fun q hq => absurd hq (hUnlocked q)⟩
      · exact Function.update_of_ne hk ..
      · exact Function.update_of_ne hk ..
      · simp [hFree]
    refine hRefs.core h (fun _ => hRange) (by simp) (fun _ k hk hUsed hDev => ?_) (by simp)
    simp only [Function.update_self] at hDev ⊢
    have hPos : 0 < (m.inode k).ref := by
      rw [h.owned k]
      exact_mod_cast List.length_pos_iff.mpr hUsed
    exact hNew k (h.range k hUsed) hPos hDev
  · exact h.goto p _

theorem Core.others_iget (h : Core m) (p : P) (dev inum : Nat) : Others p m (m.iget p dev inum) := by
  unfold Machine.iget
  split
  · next j hj =>
    exact (h.refs_incr p j).others h fun q _ hq => by simp [Machine.incr, hq]
  · next j hj =>
    have hNil : m.owners j = [] := List.length_eq_zero_iff.mp (by
      have := h.owned j
      have := (scan_eq_empty hj).2.1
      omega)
    have hne {q : P} {k : Nat} (hq : q ∈ m.owners k) : k ≠ j := by
      rintro rfl
      rw [hNil] at hq
      cases hq
    refine ⟨fun _ _ => .inl rfl, fun q k _ hk => ?_, fun _ _ _ hq => hq, fun q k _ hk => ?_⟩
    · simpa [Function.update_of_ne (hne hk)] using hk
    · simp [onDisk, Function.update_of_ne (hne (h.holds q k hk))]
  · exact (Others.refl p m).goto _

/-- The reference of `p` to slot `i` is the last one, nobody has locked the slot, and it
holds an inode without links. -/
structure Sole (m : Machine P) (p : P) (i : Nat) : Prop where
  ref : (m.inode i).ref = 1
  owner : m.owners i = [p]
  unlocked : ∀ q, m.locks q i = false
  noLinks : m.NoLinks i

theorem Core.iput_cases (h : Core m) (hSpare : m.spare p i) :
    (m.Sole p i ∧ m.iput p i = (m.lock p i).goto p (.itrunc i 0)) ∨ m.iput p i = m.goto p (.panic .iputBusy) ∨
      m.iput p i = m.decr p i := by
  unfold Machine.iput
  split
  · next hLast =>
    obtain ⟨hRef, hValid, hLinks⟩ := hLast
    split
    · exact .inr (.inl rfl)
    · next hFree =>
      have hUnlocked (q : P) : m.locks q i = false := by
        by_contra hq
        exact hFree ((h.busy i).mpr ⟨q, by simpa using hq⟩)
      have hClean : m.dirty i = false := by
        by_contra hd
        obtain ⟨q, hq⟩ := h.dirty i (by simpa using hd)
        exact absurd ((hUnlocked q).symm.trans hq) (by simp)
      have hLength : (m.owners i).length = 1 := by
        have := h.owned i
        omega
      obtain ⟨q, hq⟩ := List.length_eq_one_iff.mp hLength
      have hSelf : p = q := by simpa [hq] using hSpare.1
      refine .inl ⟨⟨hRef, hSelf ▸ hq, hUnlocked, hValid, hLinks, ?_⟩, rfl⟩
      rw [← h.same i (List.ne_nil_of_mem hSpare.1) hValid hClean]
      exact hLinks
  · exact .inr (.inr rfl)

theorem Core.call (h : Core m) (hPc : m.pc p = .client) {op : Op P} (hs : m.call p op = some m') : Moves p m m' := by
  cases op with
  | iget dev inum =>
    obtain rfl := Option.some.inj hs
    refine ⟨h.iget p dev inum, h.others_iget p dev inum, ?_⟩
    unfold Machine.iget
    split
    · simp [Machine.incr, hPc, PcOk]
    · simp [hPc, PcOk]
    · simp [PcOk]
  | idup i =>
    obtain ⟨hOwn, hs⟩ := Option.ite_none_right_eq_some.mp hs
    obtain rfl := Option.some.inj hs
    have hOthers : Others p m (m.incr p i) :=
      (h.refs_incr p i).others h fun q _ hq => by simp [Machine.incr, hq]
    refine ⟨h.incr (List.ne_nil_of_mem hOwn), hOthers, ?_⟩
    simp [Machine.incr, hPc, PcOk]
  | pass i q =>
    obtain ⟨hSpare, hs⟩ := Option.ite_none_right_eq_some.mp hs
    obtain rfl := Option.some.inj hs
    have hRefs : Refs m { m with owners := Function.update m.owners i (q :: (m.owners i).erase p) } i := by
      refine ⟨rfl, rfl, rfl, rfl, fun _ _ => rfl, fun j hj => Function.update_of_ne hj .., fun _ _ => rfl, rfl,
        fun r hr => ?_⟩
      simp only [Function.update_self]
      obtain rfl | hne := eq_or_ne r p
      · exact List.mem_cons_of_mem _ (spare_keep hSpare hr)
      · exact List.mem_cons_of_mem _ ((List.mem_erase_of_ne hne).mpr (h.holds r i hr))
    refine ⟨hRefs.core_of_used h (List.ne_nil_of_mem hSpare.1) ?_, hRefs.others h fun r hne hr => ?_, ?_⟩
    · have hPos := List.length_pos_of_mem hSpare.1
      simp only [Function.update_self, List.length_cons, List.length_erase_of_mem hSpare.1, h.owned i]
      omega
    · simp only [Function.update_self]
      exact List.mem_cons_of_mem _ ((List.mem_erase_of_ne hne).mpr hr)
    · simp [hPc, PcOk]
  | ilock i =>
    obtain ⟨hOwn, hs⟩ := Option.ite_none_right_eq_some.mp hs
    obtain rfl := Option.some.inj hs
    refine h.moves_goto ?_
    split
    · trivial
    · exact hOwn
  | modify i di =>
    obtain ⟨hLock, hs⟩ := Option.ite_none_right_eq_some.mp hs
    obtain rfl := Option.some.inj hs
    refine ⟨h.store hLock (by simp), h.others_store hLock di true, ?_⟩
    simp [Machine.store, hPc, PcOk]
  | iupdate i =>
    obtain ⟨hLock, hs⟩ := Option.ite_none_right_eq_some.mp hs
    obtain rfl := Option.some.inj hs
    exact h.moves_goto ⟨hLock, fun hk => absurd rfl hk⟩
  | iunlock i =>
    obtain ⟨⟨hLock, hClean⟩, hs⟩ := Option.ite_none_right_eq_some.mp hs
    obtain rfl := Option.some.inj hs
    split
    · exact h.moves_goto trivial
    · refine ⟨h.unlock hLock hClean true, h.others_unlock hLock true, ?_⟩
      simp [Machine.unlock, hPc, Pc.wake, PcOk]
  | iput i =>
    obtain ⟨hSpare, hs⟩ := Option.ite_none_right_eq_some.mp hs
    obtain rfl := Option.some.inj hs
    obtain ⟨hSole, hPut⟩ | hPut | hPut := h.iput_cases hSpare
    · have hFree : (m.inode i).busy = false := by
        by_contra hb
        obtain ⟨q, hq⟩ := (h.busy i).mp (by simpa using hb)
        exact absurd ((hSole.unlocked q).symm.trans hq) (by simp)
      rw [hPut]
      obtain ⟨hValid, hCached, hDisk⟩ := hSole.noLinks
      refine .then (h.lock hSpare.1 hFree) (others_lock m p i)
        ⟨(locks_lock ..).mpr (.inl ⟨rfl, rfl⟩), ?_, ?_, ?_⟩
      · simpa [Machine.lock] using hValid
      · simpa [Machine.lock] using hCached
      · simpa [Machine.lock, onDisk] using hDisk
    · rw [hPut]
      exact h.moves_goto trivial
    · rw [hPut]
      refine ⟨h.decr hSpare.1 (spare_keep hSpare),
        (h.refs_decr (spare_keep hSpare)).others h fun q hne hq => ?_, ?_⟩
      · simpa [Machine.decr] using (List.mem_erase_of_ne hne).mpr hq
      · simp [Machine.decr, hPc, PcOk]

omit [DecidableEq P] in
theorem NoLinks.store (h : m.NoLinks i) {di : Dinode} (hdi : di.nlink = 0) (d : Bool) : (m.store i di d).NoLinks i := by
  obtain ⟨hValid, -, hDisk⟩ := h
  refine ⟨?_, ?_, ?_⟩
  · simpa [Machine.store] using hValid
  · simpa [Machine.store] using hdi
  · simpa [Machine.store, onDisk] using hDisk

theorem Inv.step_moves (h : Inv m) {op : Op P} (hs : m.step p op = some m') : Moves p m m' := by
  have hOk := h.pcs p
  cases hPc : m.pc p with
  | client =>
    simp only [Machine.step, hPc] at hs
    exact h.toCore.call hPc hs
  | ilock i =>
    rw [hPc] at hOk
    simp only [Machine.step, hPc] at hs
    split at hs
    · obtain rfl := Option.some.inj hs
      exact h.toCore.moves_goto hOk
    · next hBusy =>
      obtain rfl := Option.some.inj hs
      refine .then (h.toCore.lock hOk (by simpa using hBusy)) (others_lock m p i) ?_
      split
      · trivial
      · exact (locks_lock ..).mpr (.inl ⟨rfl, rfl⟩)
  | asleep i =>
    simp only [Machine.step, hPc] at hs
    cases hs
  | load i =>
    rw [hPc] at hOk
    simp only [Machine.step, hPc] at hs
    split at hs
    · cases hs
    · obtain rfl := Option.some.inj hs
      exact .then (h.toCore.hold i true) ((Others.refl p m).hold i true) hOk
  | fill i =>
    rw [hPc] at hOk
    simp only [Machine.step, hPc] at hs
    obtain rfl := Option.some.inj hs
    refine .then ((h.toCore.store hOk fun _ => rfl).hold i false) ((h.toCore.others_store hOk _ false).hold i false)
      ⟨hOk, ?_, ?_⟩
    · simp [Machine.hold, Machine.store, onDisk]
    · simp [Machine.hold, Machine.store]
  | filled i =>
    rw [hPc] at hOk
    obtain ⟨hLock, hSame, -⟩ := hOk
    simp only [Machine.step, hPc] at hs
    obtain rfl := Option.some.inj hs
    refine .then (h.toCore.setValid hSame) (h.toCore.others_setValid hLock) ?_
    split <;> trivial
  | update i k =>
    rw [hPc] at hOk
    simp only [Machine.step, hPc] at hs
    split at hs
    · cases hs
    · obtain rfl := Option.some.inj hs
      exact .then (h.toCore.hold i true) ((Others.refl p m).hold i true)
        ⟨hOk.1, fun hk => (noLinks_hold ..).mpr (hOk.2 hk)⟩
  | write i k =>
    rw [hPc] at hOk
    obtain ⟨hLock, hLinks⟩ := hOk
    simp only [Machine.step, hPc] at hs
    obtain rfl := Option.some.inj hs
    refine .then (h.toCore.writeBack hLock) (h.toCore.others_writeBack hLock)
      ⟨hLock, by simp [Machine.writeBack], fun hk => ⟨(hLinks hk).valid, (hLinks hk).cached, ?_⟩⟩
    rw [onDisk_writeBack_self]
    exact (hLinks hk).cached
  | written i k =>
    rw [hPc] at hOk
    obtain ⟨hLock, hClean, hLinks⟩ := hOk
    simp only [Machine.step, hPc] at hs
    obtain rfl := Option.some.inj hs
    refine .then (h.toCore.hold i false) ((Others.refl p m).hold i false) ?_
    cases k with
    | client => trivial
    | itrunc => exact ⟨hLock, (noLinks_hold ..).mpr (hLinks (by simp))⟩
    | iput => exact ⟨hLock, hClean, (noLinks_hold ..).mpr (hLinks (by simp))⟩
  | itrunc i n =>
    rw [hPc] at hOk
    obtain ⟨hLock, hLinks⟩ := hOk
    simp only [Machine.step, hPc] at hs
    split at hs
    · obtain rfl := Option.some.inj hs
      exact h.toCore.moves_goto ⟨hLock, hLinks⟩
    · split at hs
      · obtain rfl := Option.some.inj hs
        exact h.toCore.moves_goto ⟨hLock, hLinks⟩
      · obtain rfl := Option.some.inj hs
        exact .then (h.toCore.store hLock (by simp)) (h.toCore.others_store hLock _ true)
          ⟨hLock, hLinks.store (by exact hLinks.cached) true⟩
  | size i =>
    rw [hPc] at hOk
    obtain ⟨hLock, hLinks⟩ := hOk
    simp only [Machine.step, hPc] at hs
    obtain rfl := Option.some.inj hs
    exact .then (h.toCore.store hLock (by simp)) (h.toCore.others_store hLock _ true)
      ⟨hLock, fun _ => hLinks.store (by exact hLinks.cached) true⟩
  | free i =>
    rw [hPc] at hOk
    obtain ⟨hLock, hLinks⟩ := hOk
    simp only [Machine.step, hPc] at hs
    obtain rfl := Option.some.inj hs
    exact .then (h.toCore.store hLock (by simp)) (h.toCore.others_store hLock _ true)
      ⟨hLock, fun _ => hLinks.store (by exact hLinks.cached) true⟩
  | freed i =>
    rw [hPc] at hOk
    obtain ⟨hLock, hClean, -⟩ := hOk
    simp only [Machine.step, hPc] at hs
    obtain rfl := Option.some.inj hs
    have hCore := h.toCore.unlock hLock hClean false
    have hKeep (hl : (m.unlock p i false).locks p i = true) : p ∈ ((m.unlock p i false).owners i).erase p :=
      absurd ⟨rfl, rfl⟩ ((locks_unlock ..).mp hl).1
    refine .then (hCore.decr (h.holds p i hLock) hKeep) ?_ trivial
    refine (h.toCore.others_unlock hLock false).trans ((hCore.refs_decr hKeep).others hCore fun q hne hq => ?_) rfl
    simpa [Machine.decr] using (List.mem_erase_of_ne hne).mpr hq
  | panic e =>
    simp only [Machine.step, hPc] at hs
    cases hs

theorem Inv.step (h : Inv m) {op : Op P} (hs : m.step p op = some m') : Inv m' :=
  h.moves (h.step_moves hs)

/-- Only `iupdate` changes a dinode, of an inode that the process has locked. -/
theorem step_disk {op : Op P} (hs : m.step p op = some m') :
    m'.disk = m.disk ∨ ∃ i k, m.pc p = .write i k ∧ m'.disk = (m.writeBack i).disk := by
  cases hPc : m.pc p with
  | client =>
    simp only [Machine.step, hPc] at hs
    left
    cases op with
    | iget dev inum =>
      obtain rfl := Option.some.inj hs
      unfold Machine.iget
      split <;> rfl
    | iput i =>
      obtain ⟨-, hs⟩ := Option.ite_none_right_eq_some.mp hs
      obtain rfl := Option.some.inj hs
      unfold Machine.iput
      split
      · split <;> rfl
      · rfl
    | iunlock i =>
      obtain ⟨-, hs⟩ := Option.ite_none_right_eq_some.mp hs
      obtain rfl := Option.some.inj hs
      split <;> rfl
    | _ =>
      obtain ⟨-, hs⟩ := Option.ite_none_right_eq_some.mp hs
      obtain rfl := Option.some.inj hs
      rfl
  | write i k =>
    simp only [Machine.step, hPc] at hs
    obtain rfl := Option.some.inj hs
    exact .inr ⟨i, k, rfl, rfl⟩
  | _ =>
    left
    simp only [Machine.step, hPc] at hs
    repeat' split at hs
    all_goals cases hs
    all_goals rfl

/-! ## Who frees an inode -/

omit [DecidableEq P] in
theorem PcOk.of_frees {pc : Pc} (h : m.PcOk p pc) (hFrees : pc.Frees i) : m.locks p i = true ∧ m.NoLinks i := by
  cases pc with
  | itrunc | size | free =>
    obtain rfl := hFrees
    exact h
  | update | write =>
    obtain ⟨rfl, hk⟩ := hFrees
    exact ⟨h.1, h.2 hk⟩
  | written =>
    obtain ⟨rfl, hk⟩ := hFrees
    exact ⟨h.1, h.2.2 hk⟩
  | freed =>
    obtain rfl := hFrees
    exact ⟨h.1, h.2.2⟩
  | _ => exact hFrees.elim

theorem Core.step_inode (h : Core m) {op : Op P} (hs : m.step p op = some m') (hUsed : m.owners i ≠ []) :
    (m'.inode i).dev = (m.inode i).dev ∧ (m'.inode i).inum = (m.inode i).inum := by
  have hUpdate {j : Nat} {x : Inode} (hDev : x.dev = (m.inode j).dev) (hInum : x.inum = (m.inode j).inum) :
      (Function.update m.inode j x i).dev = (m.inode i).dev ∧ (Function.update m.inode j x i).inum = (m.inode i).inum := by
    obtain rfl | hne := eq_or_ne i j
    · simpa using ⟨hDev, hInum⟩
    · simp [Function.update_of_ne hne]
  cases hPc : m.pc p with
  | client =>
    simp only [Machine.step, hPc] at hs
    cases op with
    | iget dev inum =>
      obtain rfl := Option.some.inj hs
      unfold Machine.iget
      split
      · exact hUpdate rfl rfl
      · next j hj =>
        have hne : i ≠ j := by
          rintro rfl
          have hLength := h.owned i
          rw [(scan_eq_empty hj).2.1] at hLength
          exact hUsed (List.length_eq_zero_iff.mp (by omega))
        simp [Function.update_of_ne hne]
      · exact ⟨rfl, rfl⟩
    | iput j =>
      obtain ⟨-, hs⟩ := Option.ite_none_right_eq_some.mp hs
      obtain rfl := Option.some.inj hs
      unfold Machine.iput
      split
      · split
        · exact ⟨rfl, rfl⟩
        · exact hUpdate rfl rfl
      · exact hUpdate rfl rfl
    | iunlock j =>
      obtain ⟨-, hs⟩ := Option.ite_none_right_eq_some.mp hs
      obtain rfl := Option.some.inj hs
      split
      · exact ⟨rfl, rfl⟩
      · exact hUpdate rfl rfl
    | _ =>
      obtain ⟨-, hs⟩ := Option.ite_none_right_eq_some.mp hs
      obtain rfl := Option.some.inj hs
      first | exact ⟨rfl, rfl⟩ | exact hUpdate rfl rfl
  | freed j =>
    simp only [Machine.step, hPc] at hs
    obtain rfl := Option.some.inj hs
    obtain rfl | hne := eq_or_ne i j
    · simp [Machine.goto, Machine.decr, Machine.unlock]
    · simp [Machine.goto, Machine.decr, Machine.unlock, Function.update_of_ne hne]
  | _ =>
    simp only [Machine.step, hPc] at hs
    repeat' split at hs
    all_goals cases hs
    all_goals first | exact ⟨rfl, rfl⟩ | exact hUpdate rfl rfl

/-- Freeing goes on, or begins with the last reference to an inode without links. -/
theorem Inv.step_frees (h : Inv m) {op : Op P} (hs : m.step p op = some m') {q : P} (hFrees : (m'.pc q).Frees i) :
    (m.pc q).Frees i ∨ q = p ∧ op = .iput i ∧ m.Sole p i := by
  by_cases hq : q = p
  · subst hq
    cases hPc : m.pc q with
    | client =>
      simp only [Machine.step, hPc] at hs
      have hGoto {pc : Pc} (hm : m' = m.goto q pc) (hpc : ¬pc.Frees i) : False := by
        rw [hm, goto_pc] at hFrees
        exact hpc hFrees
      have hSame (hm : m'.pc = m.pc) : False := by
        rw [hm, hPc] at hFrees
        exact hFrees
      cases op with
      | iget dev inum =>
        obtain rfl := Option.some.inj hs
        refine absurd hFrees ?_
        unfold Machine.iget
        split <;> simp [Machine.incr, hPc, Pc.Frees]
      | iput j =>
        obtain ⟨hSpare, hs⟩ := Option.ite_none_right_eq_some.mp hs
        obtain rfl := Option.some.inj hs
        obtain ⟨hSole, hPut⟩ | hPut | hPut := h.toCore.iput_cases hSpare
        · rw [hPut, goto_pc] at hFrees
          obtain rfl : j = i := hFrees
          exact .inr ⟨rfl, rfl, hSole⟩
        · exact (hGoto hPut id).elim
        · exact (hSame (by rw [hPut]; rfl)).elim
      | iunlock j =>
        obtain ⟨-, hs⟩ := Option.ite_none_right_eq_some.mp hs
        obtain rfl := Option.some.inj hs
        refine absurd hFrees ?_
        split <;> simp [Machine.unlock, hPc, Pc.wake, Pc.Frees]
      | ilock j =>
        obtain ⟨-, hs⟩ := Option.ite_none_right_eq_some.mp hs
        obtain rfl := Option.some.inj hs
        refine (hGoto rfl ?_).elim
        split <;> exact id
      | iupdate j =>
        obtain ⟨-, hs⟩ := Option.ite_none_right_eq_some.mp hs
        obtain rfl := Option.some.inj hs
        exact (hGoto rfl (by simp [Pc.Frees])).elim
      | _ =>
        obtain ⟨-, hs⟩ := Option.ite_none_right_eq_some.mp hs
        obtain rfl := Option.some.inj hs
        exact (hSame rfl).elim
    | written j k =>
      simp only [Machine.step, hPc] at hs
      obtain rfl := Option.some.inj hs
      rw [goto_pc] at hFrees
      cases k with
      | client => exact hFrees.elim
      | itrunc => exact .inl ⟨hFrees, by simp⟩
      | iput => exact .inl ⟨hFrees, by simp⟩
    | _ =>
      left
      simp only [Machine.step, hPc] at hs
      repeat' split at hs
      all_goals cases hs
      all_goals
        rw [goto_pc] at hFrees
        first | exact hFrees | exact hFrees.elim | exact hFrees.1
  · obtain hSame | ⟨j, -, hj⟩ := (h.step_moves hs).others.pc q hq
    · exact .inl (hSame ▸ hFrees)
    · rw [hj] at hFrees
      exact hFrees.elim

/-! ## Slots that nobody uses -/

/-- The life-cycle of an inode clears `I_VALID` when the last reference is put. -/
def Unused (m : Machine P) : Prop := ∀ i, m.owners i = [] → (m.inode i).valid = false

/-- The call is an `iput` that drops the last reference to a valid inode with a link: there the
source leaves `I_VALID` set. -/
def LeavesValid (m : Machine P) (p : P) : Op P → Prop
  | .iput i => m.pc p = .client ∧ (m.inode i).ref = 1 ∧ (m.inode i).valid = true ∧ (m.inode i).di.nlink ≠ 0
  | _ => False

instance (m : Machine P) (p : P) : (op : Op P) → Decidable (m.LeavesValid p op)
  | .iput _ => inferInstanceAs (Decidable (_ ∧ _))
  | .iget .. | .idup _ | .pass .. | .ilock _ | .modify .. | .iupdate _ | .iunlock _ => .isFalse id

omit [DecidableEq P] in
theorem store_valid (m : Machine P) (i : Nat) (di : Dinode) (d : Bool) (j : Nat) :
    ((m.store i di d).inode j).valid = (m.inode j).valid := by
  obtain rfl | hne := eq_or_ne j i
  · simp [Machine.store]
  · simp [Machine.store, Function.update_of_ne hne]

theorem lock_valid (m : Machine P) (p : P) (i j : Nat) : ((m.lock p i).inode j).valid = (m.inode j).valid := by
  obtain rfl | hne := eq_or_ne j i
  · simp [Machine.lock]
  · simp [Machine.lock, Function.update_of_ne hne]

omit [DecidableEq P] in
theorem Unused.of_owners (h : Unused m) (hOwners : m'.owners = m.owners)
    (hValid : ∀ i, m.owners i = [] → (m'.inode i).valid = (m.inode i).valid) : Unused m' := fun i hNil => by
  rw [hOwners] at hNil
  rw [hValid i hNil]
  exact h i hNil

omit [DecidableEq P] in
/-- Only slot `i` gets or loses references. -/
theorem Unused.of_refs (h : Unused m) (hOther : ∀ j, j ≠ i → m'.owners j = m.owners j ∧ m'.inode j = m.inode j)
    (hSlot : m'.owners i = [] → (m'.inode i).valid = false) : Unused m' := fun j hNil => by
  obtain rfl | hne := eq_or_ne j i
  · exact hSlot hNil
  · obtain ⟨hOwners, hInode⟩ := hOther j hne
    rw [hOwners] at hNil
    rw [hInode]
    exact h j hNil

theorem Unused.call (h : Unused m) (hCore : Core m) (hPc : m.pc p = .client) {op : Op P} (hs : m.call p op = some m')
    (hNot : ¬m.LeavesValid p op) : Unused m' := by
  cases op with
  | iget dev inum =>
    obtain rfl := Option.some.inj hs
    unfold Machine.iget
    split
    · next j hj =>
      refine h.of_refs (i := j) (fun k hk => ⟨Function.update_of_ne hk .., Function.update_of_ne hk ..⟩) fun hNil => ?_
      exact absurd hNil (by simp [Machine.incr])
    · next j hj =>
      refine h.of_refs (i := j) (fun k hk => ⟨Function.update_of_ne hk .., Function.update_of_ne hk ..⟩) fun _ => ?_
      simp
    · exact h
  | idup i =>
    obtain ⟨-, hs⟩ := Option.ite_none_right_eq_some.mp hs
    obtain rfl := Option.some.inj hs
    refine h.of_refs (i := i) (fun k hk => ⟨Function.update_of_ne hk .., Function.update_of_ne hk ..⟩) fun hNil => ?_
    exact absurd hNil (by simp [Machine.incr])
  | pass i q =>
    obtain ⟨-, hs⟩ := Option.ite_none_right_eq_some.mp hs
    obtain rfl := Option.some.inj hs
    refine h.of_refs (i := i) (fun k hk => ⟨Function.update_of_ne hk .., rfl⟩) fun hNil => ?_
    exact absurd hNil (by simp)
  | ilock i =>
    obtain ⟨-, hs⟩ := Option.ite_none_right_eq_some.mp hs
    obtain rfl := Option.some.inj hs
    exact h
  | iupdate i =>
    obtain ⟨-, hs⟩ := Option.ite_none_right_eq_some.mp hs
    obtain rfl := Option.some.inj hs
    exact h
  | modify i di =>
    obtain ⟨hLock, hs⟩ := Option.ite_none_right_eq_some.mp hs
    obtain rfl := Option.some.inj hs
    exact h.of_owners rfl fun j _ => store_valid m i di true j
  | iunlock i =>
    obtain ⟨⟨hLock, -⟩, hs⟩ := Option.ite_none_right_eq_some.mp hs
    obtain rfl := Option.some.inj hs
    split
    · exact h
    · exact h.of_owners rfl fun j _ => by
        obtain rfl | hne := eq_or_ne j i
        · simp [Machine.unlock]
        · simp [Machine.unlock, Function.update_of_ne hne]
  | iput i =>
    obtain ⟨hSpare, hs⟩ := Option.ite_none_right_eq_some.mp hs
    obtain rfl := Option.some.inj hs
    unfold Machine.iput
    split
    · split
      · exact h
      · exact h.of_owners rfl fun j _ => lock_valid m p i j
    · next hKeep =>
      refine h.of_refs (i := i) (fun k hk => ⟨Function.update_of_ne hk .., Function.update_of_ne hk ..⟩) fun hNil => ?_
      -- the last reference goes: the inode has a link, or it was not valid
      have hErase : (m.owners i).erase p = [] := by simpa [Machine.decr] using hNil
      have hLength := List.length_erase_of_mem hSpare.1
      have hPos := List.length_pos_of_mem hSpare.1
      rw [hErase, List.length_nil] at hLength
      have hRef : (m.inode i).ref = 1 := by
        have := hCore.owned i
        omega
      have hInvalid : (m.inode i).valid ≠ true := fun hValid =>
        hNot ⟨hPc, hRef, hValid, fun hLinks => hKeep ⟨hRef, hValid, hLinks⟩⟩
      simpa [Machine.decr] using hInvalid

/-- A slot that is left without references is not valid, unless `iput` leaves it valid. -/
theorem Unused.step (h : Unused m) (hInv : Inv m) {op : Op P} (hs : m.step p op = some m') (hNot : ¬m.LeavesValid p op) :
    Unused m' := by
  have hOk := hInv.pcs p
  cases hPc : m.pc p with
  | client =>
    simp only [Machine.step, hPc] at hs
    exact h.call hInv.toCore hPc hs hNot
  | filled i =>
    rw [hPc] at hOk
    simp only [Machine.step, hPc] at hs
    obtain rfl := Option.some.inj hs
    refine h.of_owners rfl fun j hNil => ?_
    have hne : j ≠ i := by
      rintro rfl
      exact List.ne_nil_of_mem (hInv.holds p j hOk.1) hNil
    simp [Machine.goto, Function.update_of_ne hne]
  | freed i =>
    simp only [Machine.step, hPc] at hs
    obtain rfl := Option.some.inj hs
    refine h.of_refs (i := i) (fun k hk => ?_) fun _ => ?_
    · simp [Machine.goto, Machine.decr, Machine.unlock, Function.update_of_ne hk]
    · simp [Machine.goto, Machine.decr, Machine.unlock]
  | ilock i =>
    simp only [Machine.step, hPc] at hs
    split at hs
    · obtain rfl := Option.some.inj hs
      exact h
    · obtain rfl := Option.some.inj hs
      exact h.of_owners rfl fun j _ => lock_valid m p i j
  | fill i =>
    simp only [Machine.step, hPc] at hs
    obtain rfl := Option.some.inj hs
    exact h.of_owners rfl fun j _ => store_valid m i (m.onDisk i) false j
  | itrunc i n =>
    simp only [Machine.step, hPc] at hs
    split at hs
    · obtain rfl := Option.some.inj hs
      exact h
    · split at hs
      · obtain rfl := Option.some.inj hs
        exact h
      · obtain rfl := Option.some.inj hs
        exact h.of_owners rfl fun j _ => store_valid m i _ true j
  | size i =>
    simp only [Machine.step, hPc] at hs
    obtain rfl := Option.some.inj hs
    exact h.of_owners rfl fun j _ => store_valid m i _ true j
  | free i =>
    simp only [Machine.step, hPc] at hs
    obtain rfl := Option.some.inj hs
    exact h.of_owners rfl fun j _ => store_valid m i _ true j
  | _ =>
    simp only [Machine.step, hPc] at hs
    repeat' split at hs
    all_goals cases hs
    all_goals exact h

/-! ## Runs -/

theorem exec_eq_execute (m : Machine P) (ops : List (P × Op P)) :
    m.exec ops = execute (fun m a => m.step a.1 a.2) m ops := by
  induction ops generalizing m with
  | nil => rfl
  | cons a ops ih => exact congrArg (Option.bind (m.step a.1 a.2)) (funext ih)

/-- No `iput` of the run leaves `I_VALID` set in a slot that nobody uses. -/
def ClearsValid (disk : Nat → Nat → Dinode) (ops : List (P × Op P)) : Prop :=
  Along (fun (m : Machine P) a => m.step a.1 a.2) (fun m a _ => ¬m.LeavesValid a.1 a.2) (boot disk) ops

instance (disk : Nat → Nat → Dinode) (ops : List (P × Op P)) : Decidable (ClearsValid disk ops) :=
  Along.decidable _ _ _

theorem exec_append (m : Machine P) (ops₁ ops₂ : List (P × Op P)) :
    m.exec (ops₁ ++ ops₂) = (m.exec ops₁).bind fun m => m.exec ops₂ := by
  induction ops₁ generalizing m with
  | nil => rfl
  | cons a ops ih =>
    obtain ⟨p, op⟩ := a
    cases hs : m.step p op with
    | none => simp [exec, hs]
    | some m' => simpa [exec, hs] using ih m'

theorem exec_concat {ops : List (P × Op P)} {op : Op P} :
    m.exec (ops ++ [(p, op)]) = some m' ↔ ∃ m₁, m.exec ops = some m₁ ∧ m₁.step p op = some m' := by
  rw [exec_append, Option.bind_eq_some_iff]
  simp [exec]

omit [DecidableEq P] in
theorem inv_boot (disk : Nat → Nat → Dinode) : Inv (boot disk : Machine P) := by
  refine ⟨⟨?_, ?_, ?_, ?_, ?_, ?_, ?_, ?_⟩, fun p => trivial⟩ <;> simp [Machine.boot]

theorem inv_exec {disk : Nat → Nat → Dinode} {ops : List (P × Op P)} (hExec : (boot disk).exec ops = some m) :
    Inv m := by
  induction ops using List.reverseRecOn generalizing m with
  | nil => exact Option.some.inj hExec ▸ inv_boot disk
  | append_singleton ops a ih =>
    obtain ⟨m₁, hm₁, hs⟩ := exec_concat.mp hExec
    exact (ih hm₁).step hs

theorem unused_exec {disk : Nat → Nat → Dinode} {ops : List (P × Op P)} (hExec : (boot disk).exec ops = some m)
    (hClears : ClearsValid disk ops) : Unused m := by
  have hKeep : Inv m ∧ Unused m := by
    refine Along.keeps (I := fun m => Inv m ∧ Unused m) (fun m a m' hs hNot h => ?_) hClears
      (by rw [← exec_eq_execute, hExec]) ⟨inv_boot disk, fun i _ => rfl⟩
    exact ⟨h.1.step hs, h.2.step h.1 hs hNot⟩
  exact hKeep.2

/-- At most one slot in use for each inode; at most one process that has set `I_BUSY`; every
valid copy in use is that of the disk, unless the process that has locked it is changing it. -/
structure Coherent (m : Machine P) : Prop where
  unique : ∀ i j, 0 < (m.inode i).ref → 0 < (m.inode j).ref → (m.inode i).dev = (m.inode j).dev →
    (m.inode i).inum = (m.inode j).inum → i = j
  busy : ∀ i, (m.inode i).busy = true ↔ ∃ p, m.locks p i = true
  one : ∀ p q i, m.locks p i = true → m.locks q i = true → p = q
  dirty : ∀ i, m.dirty i = true → ∃ p, m.locks p i = true
  same : ∀ i, 0 < (m.inode i).ref → (m.inode i).valid = true → m.dirty i = false → (m.inode i).di = m.onDisk i

omit [DecidableEq P] in
theorem Core.coherent (h : Core m) : Coherent m := by
  have hUsed {i : Nat} (hRef : 0 < (m.inode i).ref) : m.owners i ≠ [] := by
    intro hNil
    rw [h.owned i, hNil] at hRef
    exact absurd hRef (by simp)
  exact ⟨fun i j hi hj => h.unique i j (hUsed hi) (hUsed hj), h.busy, h.one, h.dirty,
    fun i hi => h.same i (hUsed hi)⟩

/-- Process `p` frees the inode in slot `i` at the end of the run `ops`: since an `iput` of its
reference, when that was the last one and the inode had no links. -/
def FreesSince (disk : Nat → Nat → Dinode) (ops : List (P × Op P)) (m : Machine P) (p : P) (i : Nat) : Prop :=
  ∃ ops₁ ops₂ m₁, ops = ops₁ ++ (p, .iput i) :: ops₂ ∧ (boot disk).exec ops₁ = some m₁ ∧ m₁.Sole p i ∧
    (m₁.inode i).dev = (m.inode i).dev ∧ (m₁.inode i).inum = (m.inode i).inum

theorem freesSince {disk : Nat → Nat → Dinode} {ops : List (P × Op P)} (hExec : (boot disk).exec ops = some m)
    (hFrees : (m.pc p).Frees i) : FreesSince disk ops m p i := by
  induction ops using List.reverseRecOn generalizing m with
  | nil =>
    obtain rfl := Option.some.inj hExec
    exact hFrees.elim
  | append_singleton ops a ih =>
    obtain ⟨q, op⟩ := a
    obtain ⟨m₁, hm₁, hs⟩ := exec_concat.mp hExec
    have hInv : Inv m₁ := inv_exec hm₁
    obtain hFrees₁ | ⟨rfl, rfl, hSole⟩ := hInv.step_frees hs hFrees
    · have hOwn := hInv.holds p i ((hInv.pcs p).of_frees hFrees₁).1
      obtain ⟨hDev, hInum⟩ := hInv.toCore.step_inode hs (List.ne_nil_of_mem hOwn)
      obtain ⟨ops₁, ops₂, m₀, rfl, hm₀, hSole, hDev₀, hInum₀⟩ := ih hm₁ hFrees₁
      exact ⟨ops₁, ops₂ ++ [(q, op)], m₀, by simp, hm₀, hSole, hDev₀.trans hDev.symm, hInum₀.trans hInum.symm⟩
    · obtain ⟨hDev, hInum⟩ := hInv.toCore.step_inode hs (List.ne_nil_of_mem (hSole.owner ▸ List.mem_singleton_self p))
      exact ⟨ops, [], m₁, rfl, hm₁, hSole, hDev.symm, hInum.symm⟩

structure Sound (disk : Nat → Nat → Dinode) (ops : List (P × Op P)) (m : Machine P) : Prop where
  coherent : Coherent m
  frees : ∀ p i, (m.pc p).Frees i → m.locks p i = true ∧ m.NoLinks i ∧ FreesSince disk ops m p i
  writes : ∀ p op m', m.step p op = some m' → m'.disk = m.disk ∨
    ∃ i, m.locks p i = true ∧ (m.pc p = .write i .client ∨ (m.pc p).Frees i) ∧ m'.disk = (m.writeBack i).disk

theorem sound_exec {disk : Nat → Nat → Dinode} {ops : List (P × Op P)} (hExec : (boot disk).exec ops = some m) :
    Sound disk ops m := by
  have h : Inv m := inv_exec hExec
  refine ⟨h.toCore.coherent, fun p i hFrees => ?_, fun p op m' hs => ?_⟩
  · obtain ⟨hLock, hLinks⟩ := (h.pcs p).of_frees hFrees
    exact ⟨hLock, hLinks, freesSince hExec hFrees⟩
  · obtain hSame | ⟨i, k, hPc, hDisk⟩ := step_disk hs
    · exact .inl hSame
    · have hOk := h.pcs p
      rw [hPc] at hOk
      refine .inr ⟨i, hOk.1, ?_, hDisk⟩
      rw [hPc]
      cases k with
      | client => exact .inl rfl
      | itrunc => exact .inr ⟨rfl, by simp⟩
      | iput => exact .inr ⟨rfl, by simp⟩

def oneLink : Dinode := ⟨2, 0, 0, 1, 0, fun _ => 0⟩

def ilockOps (i : Nat) : List (Unit × Op Unit) := List.replicate 5 ((), .ilock i)

def iupdateOps (i : Nat) : List (Unit × Op Unit) := List.replicate 4 ((), .iupdate i)

def dropLast : List (Unit × Op Unit) :=
  [((), .iget 1 5)] ++ ilockOps 0 ++ [((), .modify 0 { oneLink with nlink := 0 })] ++ iupdateOps 0 ++
    [((), .iunlock 0), ((), .iput 0)]

/-- The second slot is read, and put while the inode has a link; then the inode is cached in
the first slot and changed. -/
def leaveBehind : List (Unit × Op Unit) :=
  [((), .iget 1 5), ((), .iget 1 6)] ++ ilockOps 1 ++ [((), .iunlock 1), ((), .iput 0), ((), .iput 1), ((), .iget 1 6)] ++
    ilockOps 0 ++ [((), .modify 0 { oneLink with size := 1 })] ++ iupdateOps 0 ++ [((), .iunlock 0)]

end Machine

end Xv6Rpi.Icache
