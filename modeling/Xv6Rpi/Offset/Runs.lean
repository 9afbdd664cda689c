import Xv6Rpi.Offset.Machine

/-! # No transfer is lost

Whoever moves the offset has the inode locked, so the ranges of the transfers follow one
another. What is in a range stays there: later transfers lie behind it.
-/

namespace Xv6Rpi.Offset

open Fs

variable {P : Type}

/-- The transfers are of consecutive ranges, from `a` up to `b`. -/
def Chain : Nat → List (Transfer P) → Nat → Prop
  | a, [], b => a = b
  | a, t :: ts, b => t.start = a ∧ Chain (a + t.bytes.length) ts b

def Kept (ip : AFile) (t : Transfer P) : Prop :=
  t.bytes = slice ip.byte t.start t.bytes.length ∧ (t.bytes ≠ [] → t.start + t.bytes.length ≤ ip.size)

/-- All that a call of `filewrite` wrote so far. -/
def written [DecidableEq P] (ts : List (Transfer P)) (p : P) (k : Nat) : List UInt8 :=
  (ts.filter fun t => t.write && decide (t.proc = p ∧ t.call = k)).flatMap (·.bytes)

theorem Chain.append {a b c : Nat} {ts us : List (Transfer P)} (h : Chain a ts b) (h' : Chain b us c) :
    Chain a (ts ++ us) c := by
  induction ts generalizing a with
  | nil =>
    obtain rfl : a = b := h
    exact h'
  | cons t ts ih => exact ⟨h.1, ih h.2⟩

theorem Chain.le {a b : Nat} {ts : List (Transfer P)} (h : Chain a ts b) :
    a ≤ b ∧ ∀ t ∈ ts, t.start + t.bytes.length ≤ b := by
  induction ts generalizing a with
  | nil => exact ⟨le_of_eq h, by simp⟩
  | cons t ts ih =>
    obtain ⟨hLe, hAll⟩ := ih h.2
    have hStart := h.1
    refine ⟨by omega, fun u hu => ?_⟩
    cases hu with
    | head => omega
    | tail _ hu => exact hAll u hu

def Pc.holds : Pc → Bool
  | .locked _ _ | .writei _ _ _ _ | .wrote _ _ _ | .readLocked _ | .readi _ _ _ | .didRead _ => true
  | _ => false

def At (off : Nat) (ip : AFile) : Pc → Prop
  | .writei src i off' tot => off' = off + tot ∧ tot ≤ chunk src i ∧ off ≤ ip.size ∧
      off + chunk src i ≤ maxfile * bsize ∧ slice ip.byte off tot = (src.drop i).take tot
  | .wrote src i (some r) => r = chunk src i ∧ (0 < r → off + r ≤ ip.size) ∧
      off + r ≤ maxfile * bsize ∧ slice ip.byte off r = (src.drop i).take r
  | .readi n off' dst => off' = off + dst.length ∧ dst.length ≤ n ∧ off + n ≤ ip.size ∧
      dst = slice ip.byte off dst.length
  | .didRead (some dst) => off + dst.length ≤ ip.size ∧ dst = slice ip.byte off dst.length
  | _ => True

/-- What a place in the code says about the bytes `w` that the call wrote so far. -/
def Progress (w : List UInt8) : Pc → Prop
  | .loop src i | .begun src i | .locked src i | .writei src i _ _ | .wrote src i _ =>
    i ≤ src.length ∧ w = src.take i
  | .commit src i r => i + r.getD 0 ≤ src.length ∧ w = src.take (i + r.getD 0) ∧ ∀ k, r = some k → k = chunk src i
  | .panic => False
  | _ => w = []

structure Inv [DecidableEq P] (off₀ : Nat) (m : Machine P) : Prop where
  size : m.ip.size < 2 ^ 32
  chain : Chain off₀ m.transfers m.off
  kept : ∀ t ∈ m.transfers, Kept m.ip t
  holder : ∀ p, (m.pc p).holds = true → m.busy = some p
  file : ∀ p, At m.off m.ip (m.pc p)
  progress : ∀ p, Progress (written m.transfers p (m.call p)) (m.pc p)
  call : ∀ t ∈ m.transfers, t.call ≤ m.call t.proc
  returned : ∀ r ∈ m.returned, r.call < m.call r.proc ∧
    (r.r = r.src.length → written m.transfers r.proc r.call = r.src)

/-! ## Slices and chunks -/

theorem chunk_le (src : List UInt8) (i : Nat) : chunk src i ≤ src.length - i := Nat.min_le_left ..

theorem turn_le (n tot off : Nat) : turn n tot off ≤ n - tot := Nat.min_le_left ..

theorem slice_add (b : Block) (off n k : Nat) : slice b off (n + k) = slice b off n ++ slice b (off + n) k := by
  simp only [slice, List.range_add, List.map_append, List.map_map]
  congr 1
  exact List.map_congr_left fun j _ => congrArg b (Nat.add_assoc ..).symm

theorem slice_congr {b c : Block} {off n : Nat} (h : ∀ j, off ≤ j → j < off + n → b j = c j) :
    slice b off n = slice c off n :=
  List.map_congr_left fun j hj => h _ (by omega) (by have := List.mem_range.mp hj; omega)

theorem slice_patch_self (b : Block) (off : Nat) (src : List UInt8) :
    slice (patch b off src) off src.length = src := by
  apply List.ext_getElem
  · simp [slice]
  · intro j h1 h2
    simp [slice, patch, h2]

theorem slice_patch_before (b : Block) (off n off' : Nat) (src : List UInt8) (h : off + n ≤ off') :
    slice (patch b off' src) off n = slice b off n :=
  slice_congr fun j _ hj => by rw [patch, if_neg (by omega)]

theorem take_add_drop (src : List UInt8) (i n k : Nat) :
    (src.drop i).take (n + k) = (src.drop i).take n ++ (src.drop (i + n)).take k := by
  rw [List.take_add, List.drop_drop]

/-! ## Transfers and pcs -/

theorem Kept.of_before {ip ip' : AFile} {t : Transfer P} (h : Kept ip t) (hSize : ip.size ≤ ip'.size)
    (hByte : ∀ j < t.start + t.bytes.length, ip'.byte j = ip.byte j) : Kept ip' t := by
  refine ⟨?_, fun hne => (h.2 hne).trans hSize⟩
  rw [slice_congr fun j _ hj => hByte j hj]
  exact h.1

theorem at_of_not_holds {off : Nat} {ip : AFile} {pc : Pc} (h : pc.holds = false) : At off ip pc := by
  cases pc with
  | writei => cases h
  | wrote => cases h
  | readi => cases h
  | didRead => cases h
  | _ => trivial

section Written

variable [DecidableEq P] {ts : List (Transfer P)} {t : Transfer P} {p : P} {k : Nat}

theorem written_append_of_ne (h : t.write = true → ¬(t.proc = p ∧ t.call = k)) :
    written (ts ++ [t]) p k = written ts p k := by
  have hNone : (t.write && decide (t.proc = p ∧ t.call = k)) = false := by
    cases hw : t.write with
    | false => rfl
    | true => simpa [hw] using h hw
  simp only [written, List.filter_append, List.filter_cons, hNone, List.filter_nil, List.append_nil,
    Bool.false_eq_true, if_false]

theorem written_append_self (h : t.write = true) (hp : t.proc = p) (hk : t.call = k) :
    written (ts ++ [t]) p k = written ts p k ++ t.bytes := by
  simp [written, List.filter_append, h, hp, hk]

end Written

/-! ## Steps -/

section Steps

variable [DecidableEq P] {off₀ : Nat} {m m' : Machine P} {p : P} {pc : Pc}

/-- While `p` has the lock nobody else does. -/
theorem Inv.alone (h : Inv off₀ m) (hp : (m.pc p).holds = true) {q : P} (hq : q ≠ p) : (m.pc q).holds = false := by
  by_contra hHolds
  have hBusy := h.holder q (by simpa using hHolds)
  rw [h.holder p hp] at hBusy
  exact hq (Option.some.inj hBusy).symm

theorem Inv.goto (h : Inv off₀ m) {b t : Option P} (hOthers : ∀ q, q ≠ p → (m.pc q).holds = true → b = some q)
    (hp : pc.holds = true → b = some p) (hFile : At m.off m.ip pc)
    (hProgress : Progress (written m.transfers p (m.call p)) pc) :
    Inv off₀ { m.goto p pc with busy := b, trans := t } where
  size := h.size
  chain := h.chain
  kept := h.kept
  holder q := by
    intro hq
    rcases eq_or_ne q p with rfl | hne
    · simp only [Machine.goto, Function.update_self] at hq
      exact hp hq
    · simp only [Machine.goto, Function.update_of_ne hne] at hq
      exact hOthers q hne hq
  file q := by
    rcases eq_or_ne q p with rfl | hne
    · simpa [Machine.goto] using hFile
    · simpa [Machine.goto, Function.update_of_ne hne] using h.file q
  progress q := by
    rcases eq_or_ne q p with rfl | hne
    · simpa [Machine.goto] using hProgress
    · simpa [Machine.goto, Function.update_of_ne hne] using h.progress q
  call := h.call
  returned := h.returned

theorem Inv.stay (h : Inv off₀ m) {t : Option P} (hHolds : pc.holds = true → (m.pc p).holds = true)
    (hFile : At m.off m.ip pc) (hProgress : Progress (written m.transfers p (m.call p)) pc) :
    Inv off₀ { m.goto p pc with trans := t } :=
  h.goto (fun q _ hq => h.holder q hq) (fun hp => h.holder p (hHolds hp)) hFile hProgress

/-- The holder of the lock changes the file behind the offset. -/
theorem Inv.store (h : Inv off₀ m) (hp : (m.pc p).holds = true) {ip : AFile} (hSize : ip.size < 2 ^ 32)
    (hGrow : m.ip.size ≤ ip.size) (hByte : ∀ j < m.off, ip.byte j = m.ip.byte j)
    (hFile : At m.off ip pc) (hProgress : Progress (written m.transfers p (m.call p)) pc) :
    Inv off₀ { m.goto p pc with ip := ip } where
  size := hSize
  chain := h.chain
  kept t ht := (h.kept t ht).of_before hGrow fun j hj => hByte j (by have := h.chain.le.2 t ht; omega)
  holder q := by
    intro hq
    rcases eq_or_ne q p with rfl | hne
    · exact h.holder q hp
    · simp only [Machine.goto, Function.update_of_ne hne, h.alone hp hne] at hq
      cases hq
  file q := by
    rcases eq_or_ne q p with rfl | hne
    · simpa [Machine.goto] using hFile
    · simpa [Machine.goto, Function.update_of_ne hne] using at_of_not_holds (h.alone hp hne)
  progress q := by
    rcases eq_or_ne q p with rfl | hne
    · simpa [Machine.goto] using hProgress
    · simpa [Machine.goto, Function.update_of_ne hne] using h.progress q
  call := h.call
  returned := h.returned

/-- The call of `p` ends; all that it wrote is written. -/
theorem Inv.leave (h : Inv off₀ m) {b t : Option P} (hOthers : ∀ q, q ≠ p → (m.pc q).holds = true → b = some q)
    (src : List UInt8) (r : Int) {rs : List (Return P)}
    (hReturned : rs = m.returned ∨ rs = ⟨p, m.call p, src, r⟩ :: m.returned ∧
      (r = src.length → written m.transfers p (m.call p) = src)) :
    Inv off₀ { m.leave p with busy := b, trans := t, returned := rs } where
  size := h.size
  chain := h.chain
  kept := h.kept
  holder q := by
    intro hq
    rcases eq_or_ne q p with rfl | hne
    · simp [Machine.leave, Machine.goto, Pc.holds] at hq
    · simp only [Machine.leave, Machine.goto, Function.update_of_ne hne] at hq
      exact hOthers q hne hq
  file q := by
    rcases eq_or_ne q p with rfl | hne
    · simp [Machine.leave, Machine.goto, At]
    · simpa [Machine.leave, Machine.goto, Function.update_of_ne hne] using h.file q
  progress q := by
    rcases eq_or_ne q p with rfl | hne
    · have hNil : written m.transfers q (m.call q + 1) = [] := by
        rw [written, List.flatMap_eq_nil_iff]
        intro t ht
        obtain ⟨ht, hw⟩ := List.mem_filter.mp ht
        simp only [Bool.and_eq_true, decide_eq_true_eq] at hw
        have := h.call t ht
        rw [hw.2.1] at this
        omega
      simpa [Machine.leave, Machine.goto, Progress] using hNil
    · simpa [Machine.leave, Machine.goto, Function.update_of_ne hne] using h.progress q
  call u hu := by
    have := h.call u hu
    rcases eq_or_ne u.proc p with he | hne
    · simp only [Machine.leave, Machine.goto, he, Function.update_self]
      rw [he] at this
      omega
    · simpa [Machine.leave, Machine.goto, Function.update_of_ne hne] using this
  returned x hx := by
    have hOld (x : Return P) (hx : x ∈ m.returned) : x.call < Function.update m.call p (m.call p + 1) x.proc ∧
        (x.r = x.src.length → written m.transfers x.proc x.call = x.src) := by
      obtain ⟨hLt, hAll⟩ := h.returned x hx
      refine ⟨?_, hAll⟩
      rcases eq_or_ne x.proc p with he | hne
      · rw [he, Function.update_self]
        rw [he] at hLt
        omega
      · rwa [Function.update_of_ne hne]
    rcases hReturned with rfl | ⟨rfl, hAll⟩
    · exact hOld x hx
    · cases hx with
      | head =>
        refine ⟨?_, hAll⟩
        simp [Machine.leave, Machine.goto]
      | tail _ hx => exact hOld x hx

/-- The holder of the lock moves the offset over what it transferred, and gives the lock back. -/
theorem Inv.moveOff (h : Inv off₀ m) (hp : (m.pc p).holds = true) {w : Bool} {bytes : List UInt8}
    (hKept : bytes = slice m.ip.byte m.off bytes.length) (hSize : bytes ≠ [] → m.off + bytes.length ≤ m.ip.size)
    (hWrap : bytes ≠ [] → m.off + bytes.length < 2 ^ 32) (hHolds : pc.holds = false)
    (hProgress : Progress (written (m.transfers ++ [⟨p, m.call p, w, m.off, bytes⟩]) p (m.call p)) pc) :
    Inv off₀ (m.moveOff p w bytes pc) := by
  have hOff : (m.moveOff p w bytes pc).off = m.off + bytes.length := by
    simp only [Machine.moveOff]
    split
    · exact Nat.mod_eq_of_lt (hWrap (List.ne_nil_of_length_pos ‹_›))
    · omega
  refine ⟨h.size, ?_, fun t ht => ?_, fun q hq => ?_, fun q => ?_, fun q => ?_, fun t ht => ?_, fun r hr => ?_⟩
  · rw [hOff]
    exact h.chain.append ⟨rfl, rfl⟩
  · obtain ht | ht := List.mem_append.mp ht
    · exact h.kept t ht
    · obtain rfl := List.mem_singleton.mp ht
      exact ⟨hKept, hSize⟩
  · rcases eq_or_ne q p with rfl | hne
    · simp [Machine.moveOff, Machine.goto, hHolds] at hq
    · simp [Machine.moveOff, Machine.goto, hne, h.alone hp hne] at hq
  · rcases eq_or_ne q p with rfl | hne
    · have hPc : (m.moveOff q w bytes pc).pc q = pc := by simp [Machine.moveOff, Machine.goto]
      rw [hPc]
      exact at_of_not_holds hHolds
    · have hPc : (m.moveOff p w bytes pc).pc q = m.pc q := by simp [Machine.moveOff, Machine.goto, hne]
      rw [hPc]
      exact at_of_not_holds (h.alone hp hne)
  · rcases eq_or_ne q p with rfl | hne
    · simpa [Machine.moveOff, Machine.goto] using hProgress
    · have hOld := h.progress q
      simp only [Machine.moveOff, Machine.goto, Function.update_of_ne hne]
      rwa [written_append_of_ne fun _ he => hne he.1.symm]
  · obtain ht | ht := List.mem_append.mp ht
    · exact h.call t ht
    · obtain rfl := List.mem_singleton.mp ht
      exact le_rfl
  · obtain ⟨hLt, hAll⟩ := h.returned r hr
    refine ⟨hLt, ?_⟩
    simp only [Machine.moveOff, Machine.goto]
    rwa [written_append_of_ne]
    rintro - ⟨he, hk⟩
    dsimp only at he hk
    rw [← he, ← hk] at hLt
    omega

theorem Inv.writeTurn (h : Inv off₀ m) {src : List UInt8} {i off tot : Nat} (hpc : m.pc p = .writei src i off tot) :
    Inv off₀ (m.writeTurn p src i off tot) := by
  have hp : (m.pc p).holds = true := by rw [hpc, Pc.holds]
  have hFile := h.file p
  have hProgress := h.progress p
  rw [hpc] at hFile hProgress
  obtain ⟨rfl, hTot, hOff, hMax, hSlice⟩ := hFile
  have hChunk := chunk_le src i
  rw [Machine.writeTurn]
  split
  · rename_i hMore
    have hTurn := turn_le (chunk src i) tot (m.off + tot)
    have hLen : ((src.drop (i + tot)).take (turn (chunk src i) tot (m.off + tot))).length =
        turn (chunk src i) tot (m.off + tot) := by
      rw [List.length_take, List.length_drop]
      omega
    refine h.store hp h.size le_rfl (fun j hj => ?_) ⟨by omega, by omega, hOff, hMax, ?_⟩ hProgress
    · exact if_neg (by omega)
    · rw [slice_add, slice_patch_before _ _ _ _ _ le_rfl, hSlice, take_add_drop]
      congr 1
      have hSelf := slice_patch_self m.ip.byte (m.off + tot)
        ((src.drop (i + tot)).take (turn (chunk src i) tot (m.off + tot)))
      rwa [hLen] at hSelf
  · obtain rfl : tot = chunk src i := by omega
    have hMaxfile : maxfile * bsize < 2 ^ 32 := by decide
    have hSize := h.size
    refine h.store hp ?_ ?_ (fun _ _ => rfl) ⟨rfl, fun hPos => ?_, hMax, hSlice⟩ hProgress
    · dsimp only
      split
      · omega
      · exact hSize
    · dsimp only
      split
      · omega
      · exact le_rfl
    · dsimp only
      split <;> omega

theorem Inv.readTurn (h : Inv off₀ m) {n off : Nat} {dst : List UInt8} (hpc : m.pc p = .readi n off dst) :
    Inv off₀ (m.readTurn p n off dst) := by
  have hp : (m.pc p).holds = true := by rw [hpc, Pc.holds]
  have hFile := h.file p
  have hProgress := h.progress p
  rw [hpc] at hFile hProgress
  obtain ⟨rfl, hLen, hSize, hDst⟩ := hFile
  rw [Machine.readTurn]
  split
  · have hTurn := turn_le n dst.length (m.off + dst.length)
    refine h.stay (fun _ => hp) ⟨?_, ?_, hSize, ?_⟩ hProgress
    · simp only [List.length_append, List.length_map, List.length_range]
      omega
    · simp only [List.length_append, List.length_map, List.length_range]
      omega
    · rw [List.length_append, List.length_map, List.length_range, slice_add, ← hDst]
      rfl
  · exact h.stay (fun _ => hp) ⟨by omega, hDst⟩ hProgress

theorem Inv.writei (h : Inv off₀ m) {src : List UInt8} {i : Nat} (hpc : m.pc p = .locked src i) :
    Inv off₀ (m.writei p src i) := by
  have hp : (m.pc p).holds = true := by rw [hpc, Pc.holds]
  have hProgress := h.progress p
  rw [hpc] at hProgress
  rw [Machine.writei]
  split
  · exact h.stay (fun _ => hp) trivial hProgress
  · split
    · exact h.stay (fun _ => hp) trivial hProgress
    · exact h.stay (fun _ => hp) ⟨rfl, Nat.zero_le _, by omega, by omega, by simp [slice]⟩ hProgress

theorem Inv.readi (h : Inv off₀ m) {n : Nat} (hpc : m.pc p = .readLocked n) : Inv off₀ (m.readi p n) := by
  have hp : (m.pc p).holds = true := by rw [hpc, Pc.holds]
  have hProgress := h.progress p
  rw [hpc] at hProgress
  rw [Machine.readi]
  split
  · exact h.stay (fun _ => hp) trivial hProgress
  · refine h.stay (fun _ => hp) ⟨rfl, Nat.zero_le _, ?_, by simp [slice]⟩ hProgress
    split <;> omega

theorem Inv.wrote (h : Inv off₀ m) {src : List UInt8} {i r : Nat} (hpc : m.pc p = .wrote src i (some r)) :
    Inv off₀ (m.moveOff p true ((src.drop i).take r) (.commit src i (some r))) := by
  have hFile := h.file p
  have hProgress := h.progress p
  rw [hpc] at hFile hProgress
  obtain ⟨rfl, hSize, hMax, hSlice⟩ := hFile
  obtain ⟨hi, hWritten⟩ := hProgress
  have hChunk := chunk_le src i
  have hLen : ((src.drop i).take (chunk src i)).length = chunk src i := by
    rw [List.length_take, List.length_drop]
    omega
  have hMaxfile : maxfile * bsize < 2 ^ 32 := by decide
  refine h.moveOff (by rw [hpc, Pc.holds]) (by rw [hLen, hSlice]) (fun hne => ?_) (fun _ => by omega) rfl
    ⟨by simp only [Option.getD_some]; omega, ?_, fun k hk => (Option.some.inj hk).symm⟩
  · rw [hLen]
    exact hSize (by have := List.length_pos_iff.mpr hne; omega)
  · rw [written_append_self rfl rfl rfl, hWritten, Option.getD_some, List.take_add]

theorem Inv.didRead (h : Inv off₀ m) {dst : List UInt8} (hpc : m.pc p = .didRead (some dst)) :
    Inv off₀ { m.moveOff p false dst .user with call := Function.update m.call p (m.call p + 1) } := by
  have hp : (m.pc p).holds = true := by rw [hpc, Pc.holds]
  have hFile := h.file p
  have hProgress := h.progress p
  have hSize := h.size
  rw [hpc] at hFile hProgress
  have hMoved : Inv off₀ (m.moveOff p false dst .user) := by
    refine h.moveOff hp hFile.2 (fun _ => hFile.1) (fun _ => by have := hFile.1; omega) rfl ?_
    rw [written_append_of_ne (by simp)]
    exact hProgress
  have hOthers (q : P) (hq : q ≠ p) (hHolds : ((m.moveOff p false dst .user).pc q).holds = true) :
      (none : Option P) = some q := by
    simp [Machine.moveOff, Machine.goto, hq, h.alone hp hq] at hHolds
  have hLeft := hMoved.leave (t := m.trans) hOthers [] 0 (.inl rfl)
  simpa [Machine.leave, Machine.moveOff, Machine.goto] using hLeft

/-- Nobody but `p` has the lock that `p` gives back. -/
theorem Inv.others (h : Inv off₀ m) (hp : (m.pc p).holds = true) (q : P) (hq : q ≠ p)
    (hHolds : (m.pc q).holds = true) : (none : Option P) = some q := by
  simp [h.alone hp hq] at hHolds

theorem Inv.step (h : Inv off₀ m) {x : P × Op} (hs : m.step x = some m') : Inv off₀ m' := by
  obtain ⟨p, op⟩ := x
  have hProgress := h.progress p
  have hKeep (q : P) (_ : q ≠ p) (hq : (m.pc q).holds = true) : m.busy = some q := h.holder q hq
  have hFree (hb : m.busy = none) (q : P) (_ : q ≠ p) (hq : (m.pc q).holds = true) : some p = some q := by
    have := h.holder q hq
    rw [hb] at this
    cases this
  simp only [Machine.step] at hs
  split at hs
  case h_1 hpc =>
    rw [hpc] at hProgress
    cases op with
    | write src =>
      dsimp only at hs
      split at hs
      · obtain rfl := Option.some.inj hs
        exact h.stay (by simp [Pc.holds]) trivial ⟨Nat.zero_le _, hProgress⟩
      · obtain rfl := Option.some.inj hs
        exact h.leave hKeep _ _ (.inr ⟨rfl, fun hr => by omega⟩)
    | read n =>
      dsimp only at hs
      split at hs
      · obtain rfl := Option.some.inj hs
        exact h.stay (by simp [Pc.holds]) trivial hProgress
      · obtain rfl := Option.some.inj hs
        exact h.leave hKeep [] 0 (.inl rfl)
  case h_2 src i hpc =>
    rw [hpc] at hProgress
    split at hs
    · obtain ⟨-, he⟩ := Option.ite_none_right_eq_some.mp hs
      obtain rfl := Option.some.inj he
      exact h.stay (by simp [Pc.holds]) trivial hProgress
    · obtain rfl := Option.some.inj hs
      refine h.leave hKeep _ _ (.inr ⟨rfl, fun _ => ?_⟩)
      rw [hProgress.2, List.take_of_length_le (by omega)]
  case h_3 src i hpc =>
    rw [hpc] at hProgress
    obtain ⟨hb, he⟩ := Option.ite_none_right_eq_some.mp hs
    obtain rfl := Option.some.inj he
    exact h.goto (hFree hb) (fun _ => rfl) trivial hProgress
  case h_4 src i hpc =>
    obtain rfl := Option.some.inj hs
    exact h.writei hpc
  case h_5 src i off tot hpc =>
    obtain rfl := Option.some.inj hs
    exact h.writeTurn hpc
  case h_6 src i hpc =>
    obtain rfl := Option.some.inj hs
    rw [hpc] at hProgress
    exact h.goto (h.others (by rw [hpc, Pc.holds])) (by simp [Pc.holds]) trivial
      ⟨by simpa using hProgress.1, by simpa using hProgress.2, by simp⟩
  case h_7 src i r hpc =>
    obtain rfl := Option.some.inj hs
    exact h.wrote hpc
  case h_8 src i hpc =>
    obtain rfl := Option.some.inj hs
    exact h.leave hKeep _ _ (.inr ⟨rfl, fun hr => by omega⟩)
  case h_9 src i r hpc =>
    obtain rfl := Option.some.inj hs
    rw [hpc] at hProgress
    obtain ⟨hi, hWritten, hr⟩ := hProgress
    rw [if_pos (hr r rfl)]
    exact h.stay (by simp [Pc.holds]) trivial ⟨hi, hWritten⟩
  case h_10 n hpc =>
    rw [hpc] at hProgress
    obtain ⟨hb, he⟩ := Option.ite_none_right_eq_some.mp hs
    obtain rfl := Option.some.inj he
    exact h.goto (hFree hb) (fun _ => rfl) trivial hProgress
  case h_11 n hpc =>
    obtain rfl := Option.some.inj hs
    exact h.readi hpc
  case h_12 n off dst hpc =>
    obtain rfl := Option.some.inj hs
    exact h.readTurn hpc
  case h_13 hpc =>
    obtain rfl := Option.some.inj hs
    exact h.leave (h.others (by rw [hpc, Pc.holds])) [] 0 (.inl rfl)
  case h_14 dst hpc =>
    obtain rfl := Option.some.inj hs
    exact h.didRead hpc
  case h_15 => cases hs

theorem inv_opened (readable writable : Bool) (off : Nat) {ip : AFile} (hSize : ip.size < 2 ^ 32) :
    Inv off (Machine.opened readable writable off ip : Machine P) where
  size := hSize
  chain := rfl
  kept _ ht := by cases ht
  holder _ hp := by cases hp
  file _ := trivial
  progress _ := rfl
  call _ ht := by cases ht
  returned _ hr := by cases hr

/-- In every interleaving of calls of `fileread` and `filewrite` on one open file, the transfers
follow one another from the first offset to the present one, the file has in every range that
was transferred the bytes that were, and a `filewrite` that returned its length has written
all its bytes. -/
theorem shared_offset {off : Nat} {ip : AFile} (readable writable : Bool) (hSize : ip.size < 2 ^ 32)
    {ops : List (P × Op)} (hRun : execute Machine.step (Machine.opened readable writable off ip) ops = some m) :
    Chain off m.transfers m.off ∧ (∀ t ∈ m.transfers, Kept m.ip t) ∧
      ∀ r ∈ m.returned, r.r = r.src.length → written m.transfers r.proc r.call = r.src := by
  have h : Inv off m := execute_keeps (fun _ _ _ hs hm => hm.step hs) hRun (inv_opened readable writable off hSize)
  exact ⟨h.chain, h.kept, fun r hr => (h.returned r hr).2⟩

end Steps

/-- Two processes write to an empty file; the second waits in `begin_trans`. -/
def twoWriters : List (Fin 2 × Op) :=
  (0, .write [1, 2]) :: List.replicate 3 (0, .read 0) ++ (1, .write [3]) :: List.replicate 4 (0, .read 0) ++
    List.replicate 7 (1, .read 0) ++ [(0, .read 0), (1, .read 0)]

theorem shared_offset_twoWriters : ∃ m : Machine (Fin 2),
    execute Machine.step (Machine.opened true true 0 AFile.free) twoWriters = some m ∧
      (m.off = 3 ∧ m.transfers.map (·.bytes) = [[1, 2], [3]]) ∧
      Chain 0 m.transfers m.off ∧ (∀ t ∈ m.transfers, Kept m.ip t) ∧
      ∀ r ∈ m.returned, r.r = r.src.length → written m.transfers r.proc r.call = r.src := by
  have hRun : ((execute Machine.step (Machine.opened true true 0 AFile.free) twoWriters).any fun m =>
      decide (m.off = 3 ∧ m.transfers.map (·.bytes) = [[1, 2], [3]])) = true := by
    decide +kernel
  obtain ⟨m, hm, hEnd⟩ := (Option.any_eq_true _ _).mp hRun
  exact ⟨m, hm, of_decide_eq_true hEnd, shared_offset true true (by decide) hm⟩

end Xv6Rpi.Offset
