import Xv6Rpi.Fs.Crash
import Xv6Rpi.Fs.Inode

/-! # The blocks outside the log

Between `begin_trans` and `commit_trans` every block that was written is in the log and,
with the same contents, in the cache. So a transaction is seen at once, and committing it
changes nothing but the log's own blocks. The file system's blocks are those outside the
log; what a function does to them is said here by one disk before and one after.
-/

namespace Xv6Rpi.Fs

open Prog Writes

instance (l : Log) (x : Nat) : Decidable (l.Holds x) :=
  inferInstanceAs (Decidable (l.start ≤ x ∧ x ≤ l.start + (l.size - 1)))

def outside (l : Log) (d : Disk) : Disk := fun x => if l.Holds x then zeroBlock else d x

def home (s : Kern) : Disk := outside s.log s.disk

structure LogInv (l : Log) (d : Disk) : Prop where
  size : l.n + 1 ≤ l.size ∨ l.n = 0
  out : ∀ i < l.n, ¬l.Holds (l.sector i)
  inj : ∀ i < l.n, ∀ j < l.n, l.sector i = l.sector j → i = j
  same : ∀ i < l.n, d (l.slot i) = d (l.sector i)

section Log

variable {l l' : Log} {d : Disk} {n : Nat} {data : Block}

theorem outside_of_not_holds {x : Nat} (h : ¬l.Holds x) : outside l d x = d x := if_neg h

theorem LogInv.slot_holds (h : LogInv l d) {i : Nat} (hi : i < l.n) : l.Holds (l.slot i) := by
  apply Fs.slot_holds
  have := h.size
  omega

theorem outside_update (hn : ¬l.Holds n) : outside l (Function.update d n data) =
    Function.update (outside l d) n data := by
  funext x
  by_cases hx : x = n
  · rw [hx, Function.update_self, outside_of_not_holds hn, Function.update_self]
  · simp only [outside, Function.update_of_ne hx]

theorem outside_update_holds {x : Nat} (hx : l.Holds x) (b : Block) :
    outside l (Function.update d x b) = outside l d := by
  funext y
  by_cases hy : l.Holds y
  · simp only [outside, if_pos hy]
  · have hne : y ≠ x := by
      rintro rfl
      exact hy hx
    simp only [outside, if_neg hy, Function.update_of_ne hne]

theorem outside_congr (hStart : l'.start = l.start) (hSize : l'.size = l.size) (d : Disk) :
    outside l' d = outside l d := by
  funext x
  have hIff : l'.Holds x ↔ l.Holds x := by rw [Log.Holds, Log.Holds, hStart, hSize]
  simp only [outside, hIff]

theorem LogInv.absorb (h : LogInv l d) (data : Block) {i : Nat} (hi : i < l.n) :
    LogInv l (Function.update (Function.update d (l.sector i) data) (l.slot i) data) := by
  refine ⟨h.size, h.out, h.inj, fun j hj => ?_⟩
  have hne : l.sector j ≠ l.slot i := fun hEq => h.out j hj (hEq ▸ h.slot_holds hi)
  rw [Function.update_of_ne hne]
  by_cases hEq : j = i
  · rw [hEq, Function.update_self, Function.update_self]
  · have hSlot : l.slot j ≠ l.sector i := fun h' => h.out i hi (h' ▸ h.slot_holds hj)
    have hSec : l.sector j ≠ l.sector i := fun h' => hEq (h.inj j hj i hi h')
    rw [Function.update_of_ne (slot_ne hEq), Function.update_of_ne hSlot, Function.update_of_ne hSec]
    exact h.same j hj

theorem LogInv.push (h : LogInv l d) (hn : ¬l.Holds n) (hNew : ¬∃ i < l.n, l.sector i = n)
    (hSize : l.n + 2 ≤ l.size) :
    LogInv { l with sector := Function.update l.sector l.n n, n := l.n + 1 }
      (Function.update (Function.update d n data) (l.slot l.n) data) where
  size := Or.inl hSize
  out i hi := by
    dsimp only at hi ⊢
    by_cases hEq : i = l.n
    · rw [hEq, Function.update_self]
      exact hn
    · rw [Function.update_of_ne hEq]
      exact h.out i (by omega)
  inj i hi j hj hEq := by
    dsimp only at hi hj hEq
    by_cases hin : i = l.n
    · by_cases hjn : j = l.n
      · rw [hin, hjn]
      · rw [hin, Function.update_self, Function.update_of_ne hjn] at hEq
        exact absurd ⟨j, by omega, hEq.symm⟩ hNew
    · by_cases hjn : j = l.n
      · rw [hjn, Function.update_self, Function.update_of_ne hin] at hEq
        exact absurd ⟨i, by omega, hEq⟩ hNew
      · rw [Function.update_of_ne hin, Function.update_of_ne hjn] at hEq
        exact h.inj i (by omega) j (by omega) hEq
  same i hi := by
    have hTop : l.Holds (l.slot l.n) := Fs.slot_holds (by omega)
    have hSlotEq : ∀ j, ({ l with sector := Function.update l.sector l.n n, n := l.n + 1 } : Log).slot j =
        l.slot j := fun _ => rfl
    dsimp only at hi ⊢
    rw [hSlotEq]
    by_cases hin : i = l.n
    · have hne : n ≠ l.slot l.n := fun h' => hn (h' ▸ hTop)
      rw [hin, Function.update_self, Function.update_self, Function.update_of_ne hne, Function.update_self]
    · have hi' : i < l.n := by omega
      have hne : l.sector i ≠ l.slot l.n := fun h' => h.out i hi' (h' ▸ hTop)
      have hne' : l.sector i ≠ n := fun h' => hNew ⟨i, hi', h'⟩
      have hSlot : l.slot i ≠ n := fun h' => hn (h' ▸ h.slot_holds hi')
      rw [Function.update_of_ne (slot_ne hin), Function.update_of_ne hSlot, Function.update_of_ne hin,
        Function.update_of_ne hne, Function.update_of_ne hne']
      exact h.same i hi'

theorem LogInv.logWrite {ws : List Write} (h : LogInv l d) (hn : ¬l.Holds n)
    (hr : logWrite l n data = .ok (l', ws)) :
    LogInv l' (apply ws (Function.update d n data)) ∧
      outside l' (apply ws (Function.update d n data)) = Function.update (outside l d) n data ∧
      l'.start = l.start ∧ l'.size = l.size ∧ l'.busy = l.busy := by
  rw [Fs.logWrite] at hr
  split at hr
  · cases hr
  rename_i hFull
  split at hr
  · cases hr
  obtain ⟨rfl, rfl⟩ := Prod.mk.inj (Except.ok.inj hr)
  rw [apply_cons, apply_nil]
  have hOut : ∀ i, i + 1 < l.size → outside l (Function.update (Function.update d n data) (l.slot i) data) =
      Function.update (outside l d) n data := fun i hi => by
    rw [outside_update_holds (Fs.slot_holds hi), outside_update hn]
  by_cases hOld : ∃ i < l.n, l.sector i = n
  · obtain ⟨hLt, hSec⟩ := logIndex_of_mem hOld
    have hUpd : Function.update l.sector (logIndex l n) n = l.sector := by
      rw [← hSec, hSec, Function.update_eq_self_iff, hSec]
    have hAbs := h.absorb data hLt
    rw [hSec] at hAbs
    simp only [hUpd, if_neg (Nat.ne_of_lt hLt)]
    exact ⟨hAbs, hOut _ (by omega), trivial, trivial, trivial⟩
  · have hIdx := logIndex_of_notMem hOld
    simp only [hIdx, if_true]
    refine ⟨h.push hn hOld (by omega), ?_, trivial, trivial, trivial⟩
    rw [outside_congr rfl rfl]
    exact hOut _ (by omega)

end Log

section Actions

/-- Of all the ways to stop, at most these two are excluded, and nothing is demanded of an
action but the start of a search for a free block and the end of a commit. -/
structure Allows (R : Rely Kern Stop Label) : Prop where
  stop : ∀ e, e ≠ .panic .freeingFree → e ≠ .panic .ilockNoType → R.stop e
  must : ∀ l s, l ≠ .balloc ∧ l ≠ .commitTrans → R.must l s

/-- In a state with the property a transaction may be committed. -/
class CommitsIn (R : Rely Kern Stop Label) (P : Kern → Prop) : Prop where
  commit : ∀ s, P s → R.must .commitTrans s

instance {stop : Stop → Prop} {may : Label → Kern → Prop} (P : Kern → Prop) : CommitsIn ⟨stop, may, fun _ _ => True⟩ P :=
  ⟨fun _ _ => trivial⟩

structure Stores (s s' : Kern) (d : Disk) : Prop where
  inode : s'.inode = s.inode
  file : s'.file = s.file
  proc : s'.proc = s.proc
  devsw : s'.devsw = s.devsw
  start : s'.log.start = s.log.start
  size : s'.log.size = s.log.size
  busy : s'.log.busy = s.log.busy
  log : LogInv s'.log s'.disk
  home : home s' = d

variable {R : Rely Kern Stop Label} {s s₁ s₂ : Kern} {d d' : Disk} {n : Nat}

theorem Stores.trans (h : Stores s s₁ d) (h' : Stores s₁ s₂ d') : Stores s s₂ d' :=
  ⟨h'.inode.trans h.inode, h'.file.trans h.file, h'.proc.trans h.proc, h'.devsw.trans h.devsw,
    h'.start.trans h.start, h'.size.trans h.size, h'.busy.trans h.busy, h'.log, h'.home⟩

theorem Stores.holds (h : Stores s s₁ d) (x : Nat) : s₁.log.Holds x ↔ s.log.Holds x := by
  rw [Log.Holds, Log.Holds, h.start, h.size]

theorem stores_held (h : LogInv s.log s.disk) (held : Nat → Bool) :
    Stores s { s with held := held } (home s) :=
  ⟨rfl, rfl, rfl, rfl, rfl, rfl, rfl, h, rfl⟩

theorem home_of_not_holds (hn : ¬s.log.Holds n) : home s n = s.disk n := outside_of_not_holds hn

/-- A step without a special label. -/
theorem wp_act (hR : Allows R) {α : Type} {f : Kern → Except Stop (α × Kern)} {Q : α → Kern → Prop}
    (h : match f s with
      | .error e => R.stop e
      | .ok (a, s') => Q a s') : wp R (act f) Q s := by
  rw [act, wp_single]
  refine fun _ => ⟨hR.must _ _ ⟨Label.noConfusion, Label.noConfusion⟩, ?_⟩
  revert h
  cases f s with
  | error e => exact id
  | ok r => exact id

theorem wp_breadAs (hR : Allows R) (hLog : LogInv s.log s.disk) (hn : ¬s.log.Holds n) {l : Label}
    (hMust : R.may l s → R.must l s) {Q : Block → Kern → Prop} (h : ∀ s', R.may l s → Stores s s' (home s) → Q (home s n) s') :
    wp R (breadAs l n) Q s := by
  rw [breadAs, wp_single]
  intro hMay
  refine ⟨hMust hMay, ?_⟩
  by_cases hHeld : s.held n
  · rw [if_pos hHeld]
    exact hR.stop _ (by simp) (by simp)
  · rw [if_neg hHeld, ← home_of_not_holds hn]
    exact h _ hMay (stores_held hLog _)

theorem wp_bread (hR : Allows R) (hLog : LogInv s.log s.disk) (hn : ¬s.log.Holds n)
    {Q : Block → Kern → Prop} (h : ∀ s', Stores s s' (home s) → Q (home s n) s') : wp R (bread n) Q s :=
  wp_breadAs hR hLog hn (fun _ => hR.must _ _ ⟨Label.noConfusion, Label.noConfusion⟩) fun s' _ => h s'

theorem wp_brelse (hR : Allows R) (hLog : LogInv s.log s.disk) {Q : Unit → Kern → Prop}
    (h : ∀ s', Stores s s' (home s) → Q () s') : wp R (brelse n) Q s := by
  rw [brelse]
  apply wp_act hR
  by_cases hHeld : s.held n
  · rw [if_pos hHeld]
    exact h _ (stores_held hLog _)
  · rw [if_neg hHeld]
    exact hR.stop _ (by simp) (by simp)

theorem wp_logWriteBuf (hR : Allows R) (hLog : LogInv s.log s.disk) (hn : ¬s.log.Holds n) {data : Block}
    {Q : Unit → Kern → Prop} (h : ∀ s', Stores s s' (Function.update (home s) n data) → Q () s') :
    wp R (logWriteBuf n data) Q s := by
  rw [logWriteBuf, wp_single]
  refine fun _ => ⟨hR.must _ _ ⟨Label.noConfusion, Label.noConfusion⟩, ?_⟩
  cases hWrite : logWrite s.log n data with
  | error p =>
    have hp : p = .tooBigTrans ∨ p = .outsideTrans := by
      rw [logWrite] at hWrite
      split at hWrite
      · exact Or.inl (Except.error.inj hWrite).symm
      split at hWrite
      · exact Or.inr (Except.error.inj hWrite).symm
      · cases hWrite
    rcases hp with rfl | rfl
    · exact hR.stop _ (by simp) (by simp)
    · exact hR.stop _ (by simp) (by simp)
  | ok r =>
    obtain ⟨l, ws⟩ := r
    obtain ⟨hInv, hOut, hStart, hSize, hBusy⟩ := hLog.logWrite hn hWrite
    dsimp only
    by_cases hHeld : ws.any fun w => s.held w.1
    · rw [if_pos hHeld]
      exact hR.stop _ (by simp) (by simp)
    · rw [if_neg hHeld]
      exact h _ ⟨rfl, rfl, rfl, rfl, hStart, hSize, hBusy, hInv, hOut⟩

theorem wp_panic (hR : Allows R) {α : Type} {p : Panic} {Q : α → Kern → Prop} (h1 : p ≠ .freeingFree)
    (h2 : p ≠ .ilockNoType) : wp R (panic p : FsM α) Q s := by
  rw [panic]
  apply wp_act hR
  exact hR.stop _ (fun h => h1 (Stop.panic.inj h)) (fun h => h2 (Stop.panic.inj h))

theorem wp_getK (hR : Allows R) {α : Type} {f : Kern → α} {Q : α → Kern → Prop} (h : Q (f s) s) : wp R (getK f) Q s :=
  wp_act hR h

theorem wp_modifyK (hR : Allows R) {f : Kern → Kern} {Q : Unit → Kern → Prop} (h : Q () (f s)) : wp R (modifyK f) Q s :=
  wp_act hR h

end Actions

section Commit

variable {R : Rely Kern Stop Label} {s : Kern}

structure Commits (s s' : Kern) : Prop where
  inode : s'.inode = s.inode
  file : s'.file = s.file
  proc : s'.proc = s.proc
  devsw : s'.devsw = s.devsw
  start : s'.log.start = s.log.start
  size : s'.log.size = s.log.size
  busy : s'.log.busy = false
  empty : s'.log.n = 0
  log : LogInv s'.log s'.disk
  home : home s' = home s

theorem LogInv.of_empty {l : Log} {d : Disk} (h : l.n = 0) : LogInv l d :=
  ⟨Or.inr h, fun i hi => by omega, fun i hi => by omega, fun i hi => by omega⟩

theorem wp_writeHeadK (hR : Allows R) (hLog : LogInv s.log s.disk) {Q : Unit → Kern → Prop}
    (h : ∀ s', Stores s s' (home s) → s'.log = s.log → Q () s') : wp R writeHeadK Q s := by
  rw [writeHeadK]
  apply wp_act hR
  by_cases hHeld : s.held s.log.start
  · rw [if_pos hHeld]
    exact hR.stop _ (by simp) (by simp)
  · rw [if_neg hHeld]
    refine h _ ⟨rfl, rfl, rfl, rfl, rfl, rfl, rfl, ?_, ?_⟩ rfl
    · refine ⟨hLog.size, hLog.out, hLog.inj, fun i hi => ?_⟩
      have hne : s.log.sector i ≠ s.log.start := fun hEq => hLog.out i hi (hEq ▸ start_holds)
      simp only [writeHead, apply_cons, apply_nil, Function.update_of_ne (slot_ne_start i),
        Function.update_of_ne hne]
      exact hLog.same i hi
    · rw [writeHead, apply_cons, apply_nil]
      exact outside_update_holds start_holds _

theorem wp_installTransK (hR : Allows R) (hLog : LogInv s.log s.disk) {tail k : Nat}
    (hk : tail + k ≤ s.log.n) {Q : Unit → Kern → Prop} (h : Q () s) : wp R (installTransK tail k) Q s := by
  induction k generalizing tail with
  | zero => exact h
  | succ k ih =>
    rw [installTransK, wp_bind, installK]
    apply wp_act hR
    have hSame : Function.update s.disk (s.log.sector tail) (s.disk (s.log.slot tail)) = s.disk := by
      rw [hLog.same tail (by omega), Function.update_eq_self]
    split
    · rename_i e he
      split at he
      · cases he
        exact hR.stop _ (by simp) (by simp)
      · cases he
    · rename_i a s' he
      split at he
      · cases he
      · obtain ⟨rfl, rfl⟩ := Prod.mk.inj (Except.ok.inj he)
        rw [hSame]
        exact ih (by omega)

theorem wp_commitTransK (hR : Allows R) (hLog : LogInv s.log s.disk) (hMust : ∀ s', Stores s s' (home s) → R.must .commitTrans s')
    {Q : Unit → Kern → Prop} (h : ∀ s', Commits s s' → Q () s') : wp R commitTransK Q s := by
  rw [commitTransK, wp_bind]
  apply wp_getK hR
  by_cases hn : 0 < s.log.n
  · rw [if_pos hn, wp_bind]
    apply wp_writeHeadK hR hLog
    intro s₁ h₁ hl₁
    rw [wp_bind]
    apply wp_installTransK hR h₁.log (by rw [hl₁, Nat.zero_add])
    rw [wp_bind]
    apply wp_modifyK hR
    rw [wp_bind]
    apply wp_writeHeadK hR (LogInv.of_empty rfl)
    intro s₂ h₂ hl₂
    rw [wp_single]
    have hStores : Stores s s₂ (home s) := ⟨h₂.inode.trans h₁.inode, h₂.file.trans h₁.file, h₂.proc.trans h₁.proc,
      h₂.devsw.trans h₁.devsw, h₂.start.trans h₁.start, h₂.size.trans h₁.size, h₂.busy.trans h₁.busy, h₂.log,
      h₂.home.trans h₁.home⟩
    refine fun _ => ⟨hMust s₂ hStores, ?_⟩
    have hEmpty : s₂.log.n = 0 := by rw [hl₂]
    refine h _ ⟨h₂.inode.trans h₁.inode, h₂.file.trans h₁.file, h₂.proc.trans h₁.proc,
      h₂.devsw.trans h₁.devsw, h₂.start.trans h₁.start, h₂.size.trans h₁.size, rfl, hEmpty,
      LogInv.of_empty hEmpty, ?_⟩
    exact h₂.home.trans h₁.home
  · rw [if_neg hn, wp_single]
    refine fun _ => ⟨hMust s ⟨rfl, rfl, rfl, rfl, rfl, rfl, rfl, hLog, rfl⟩, ?_⟩
    have hEmpty : s.log.n = 0 := by omega
    exact h _ ⟨rfl, rfl, rfl, rfl, rfl, rfl, rfl, hEmpty, LogInv.of_empty hEmpty, rfl⟩

end Commit

end Xv6Rpi.Fs
