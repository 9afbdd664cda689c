import Xv6Rpi.Kstring.Memmove

/-! # memset of string.c and ulib.c

The two functions differ in the type of `n` alone. Bytes are set one by one up to an address that is
a multiple of four, then four at a time, then the rest.
-/

namespace Xv6Rpi.Kstring

/-- `*p4 = val;`, the lowest byte first. -/
def storeWord (m : Bytes) (p4 val : BitVec 32) : Bytes :=
  Function.update (Function.update (Function.update (Function.update m p4 (val.extractLsb' 0 8)) (p4 + 1) (val.extractLsb' 8 8))
    (p4 + 2) (val.extractLsb' 16 8)) (p4 + 3) (val.extractLsb' 24 8)

/-- `for (; (n > 0) && ((uint)p % 4); n--, p++) *p = c;` -/
def setHead (m : Bytes) (p : BitVec 32) (c : BitVec 8) : Nat → Bytes × BitVec 32 × Nat
  | 0 => (m, p, 0)
  | n + 1 => if p % 4 ≠ 0 then setHead (Function.update m p c) (p + 1) c n else (m, p, n + 1)

def setWords (m : Bytes) (p4 val : BitVec 32) : Nat → Bytes × BitVec 32 × Nat
  | n + 4 => setWords (storeWord m p4 val) (p4 + 4) val n
  | n => (m, p4, n)

def setTail (m : Bytes) (p : BitVec 32) (c : BitVec 8) : Nat → Bytes
  | 0 => m
  | n + 1 => setTail (Function.update m p c) (p + 1) c n

def fillByte (v : BitVec 32) : BitVec 8 := (v &&& 0xff).setWidth 8

def fillWord (c : BitVec 8) : BitVec 32 :=
  c.setWidth 32 <<< 24 ||| c.setWidth 32 <<< 16 ||| c.setWidth 32 <<< 8 ||| c.setWidth 32

/-- The three loops, for as many bytes as `n` is above zero. -/
def fillRange (m : Bytes) (dst v : BitVec 32) (n : Nat) : Bytes :=
  let c := fillByte v
  let (m, p, n) := setHead m dst c n
  let (m, p, n) := setWords m p (fillWord c) n
  setTail m p c n

/-- The kernel's, for a signed `n`. Returns `dst` beside the new memory. -/
def memset (m : Bytes) (dst v n : BitVec 32) : Bytes × BitVec 32 := (fillRange m dst v n.toInt.toNat, dst)

/-- The user library's, for an unsigned `n`. -/
def Ulib.memset (m : Bytes) (dst v n : BitVec 32) : Bytes × BitVec 32 := (fillRange m dst v n.toNat, dst)

/-- The bytes of the range are all `c`, and nothing else changed. -/
def Filled (m m' : Bytes) (p : BitVec 32) (n : Nat) (c : BitVec 8) : Prop :=
  ∀ a, m' a = if p.toNat ≤ a.toNat ∧ a.toNat < p.toNat + n then c else m a

section Ranges

variable {m m₁ m₂ : Bytes} {p p₁ : BitVec 32} {n n₁ n₂ : Nat} {c : BitVec 8}

theorem Filled.refl (m : Bytes) (p : BitVec 32) (c : BitVec 8) : Filled m m p 0 c := fun a => by
  rw [if_neg (by omega)]

theorem Filled.of_zero (h : Filled m m₁ p n c) (hn : n = 0) : m₁ = m := by
  funext a
  rw [h a, if_neg (by omega)]

theorem Filled.append (h₁ : Filled m m₁ p n₁ c) (hp : n₂ ≠ 0 → p₁.toNat = p.toNat + n₁) (h₂ : Filled m₁ m₂ p₁ n₂ c) :
    Filled m m₂ p (n₁ + n₂) c := by
  intro a
  by_cases hn : n₂ = 0
  · rw [h₂.of_zero hn, h₁ a, hn, Nat.add_zero]
  · have hNext := hp hn
    rw [h₂ a, h₁ a]
    by_cases hHigh : p₁.toNat ≤ a.toNat ∧ a.toNat < p₁.toNat + n₂
    · rw [if_pos hHigh, if_pos (by omega)]
    · rw [if_neg hHigh]
      by_cases hLow : p.toNat ≤ a.toNat ∧ a.toNat < p.toNat + n₁
      · rw [if_pos hLow, if_pos (by omega)]
      · rw [if_neg hLow, if_neg (by omega)]

theorem filled_update (m : Bytes) (p : BitVec 32) (c : BitVec 8) : Filled m (Function.update m p c) p 1 c := by
  intro a
  by_cases ha : a = p
  · rw [ha, Function.update_self, if_pos (by omega)]
  · have hNe : a.toNat ≠ p.toNat := fun hEq => ha (BitVec.eq_of_toNat_eq hEq)
    rw [Function.update_of_ne ha, if_neg (by omega)]

theorem fillWord_byte (c : BitVec 8) : (fillWord c).extractLsb' 0 8 = c ∧ (fillWord c).extractLsb' 8 8 = c ∧
    (fillWord c).extractLsb' 16 8 = c ∧ (fillWord c).extractLsb' 24 8 = c := by
  revert c
  decide +kernel

theorem filled_storeWord (m : Bytes) {p : BitVec 32} (hp : p.toNat + 4 ≤ 2 ^ 32) (c : BitVec 8) :
    Filled m (storeWord m p (fillWord c)) p 4 c := by
  obtain ⟨h₀, h₁, h₂, h₃⟩ := fillWord_byte c
  rw [storeWord, h₀, h₁, h₂, h₃]
  have hTwo := (filled_update m p c).append (fun _ => toNat_add_ofNat hp (by decide)) (filled_update _ (p + 1) c)
  have hThree := hTwo.append (fun _ => toNat_add_ofNat hp (by decide)) (filled_update _ (p + 2) c)
  exact hThree.append (fun _ => toNat_add_ofNat hp (by decide)) (filled_update _ (p + 3) c)

/-- A loop has set some bytes of `n` from `p` on; it ends with the memory, the next address and
the number of bytes left. -/
def Sets (m : Bytes) (p : BitVec 32) (n : Nat) (c : BitVec 8) (r : Bytes × BitVec 32 × Nat) : Prop :=
  ∃ k, n = k + r.2.2 ∧ r.2.1 = p + BitVec.ofNat 32 k ∧ Filled m r.1 p k c

theorem Sets.stop (m : Bytes) (p : BitVec 32) (n : Nat) (c : BitVec 8) : Sets m p n c (m, p, n) :=
  ⟨0, (Nat.zero_add n).symm, (BitVec.add_zero p).symm, .refl m p c⟩

def Fits (p : BitVec 32) (n : Nat) : Prop := n ≠ 0 → p.toNat + n ≤ 2 ^ 32

theorem Fits.toNat_add {k : Nat} (h : Fits p (n + k)) (hn : n ≠ 0) : (p + BitVec.ofNat 32 k).toNat = p.toNat + k :=
  toNat_add_ofNat (h (by omega)) (by omega)

theorem Fits.next {k : Nat} (h : Fits p (n + k)) : Fits (p + BitVec.ofNat 32 k) n := by
  intro hn
  have hRange := h (by omega)
  rw [h.toNat_add hn]
  omega

theorem Sets.turn {k : Nat} {r : Bytes × BitVec 32 × Nat} (hp : Fits p (n + k)) (hTurn : Filled m m₁ p k c)
    (h : Sets m₁ (p + BitVec.ofNat 32 k) n c r) : Sets m p (n + k) c r := by
  obtain ⟨j, hn, hNext, hRest⟩ := h
  refine ⟨k + j, by omega, by rw [hNext, BitVec.ofNat_add, BitVec.add_assoc], hTurn.append (fun hj => ?_) hRest⟩
  exact hp.toNat_add (by omega)

theorem setHead_sets (hp : Fits p n) : Sets m p n c (setHead m p c n) := by
  induction n generalizing m p with
  | zero => exact .stop m p 0 c
  | succ n ih =>
    rw [setHead]
    split
    · exact .turn hp (filled_update m p c) (ih hp.next)
    · exact .stop m p (n + 1) c

theorem setWords_sets (hp : Fits p n) : Sets m p n c (setWords m p (fillWord c) n) := by
  induction n using Nat.strong_induction_on generalizing m p with
  | _ n ih =>
    by_cases hLeft : n < 4
    · rw [setWords]
      · exact .stop m p n c
      · intro k hk
        omega
    · obtain ⟨k, rfl⟩ := Nat.exists_eq_add_of_le' (Nat.le_of_not_lt hLeft)
      rw [setWords]
      have hRange : p.toNat + (k + 4) ≤ 2 ^ 32 := hp (by omega)
      exact .turn hp (filled_storeWord m (by omega) c) (ih k (by omega) hp.next)

theorem setTail_filled (hp : Fits p n) : Filled m (setTail m p c n) p n c := by
  induction n generalizing m p with
  | zero => exact .refl m p c
  | succ n ih =>
    rw [setTail, Nat.add_comm n 1]
    exact (filled_update m p c).append hp.toNat_add (ih hp.next)

theorem Sets.fills {r : Bytes × BitVec 32 × Nat} (hp : Fits p n) (h : Sets m p n c r) :
    Fits r.2.1 r.2.2 ∧ ∀ m₂, Filled r.1 m₂ r.2.1 r.2.2 c → Filled m m₂ p n c := by
  obtain ⟨k, hn, hNext, hFront⟩ := h
  have hp' : Fits p (r.2.2 + k) := by rwa [Nat.add_comm, ← hn]
  rw [hNext]
  refine ⟨hp'.next, fun m₂ hRest => ?_⟩
  rw [hn]
  exact hFront.append hp'.toNat_add hRest

theorem fillRange_filled (v : BitVec 32) (hp : Fits p n) : Filled m (fillRange m p v n) p n (fillByte v) := by
  obtain ⟨hWords, hHead⟩ := (setHead_sets hp).fills hp
  obtain ⟨hTail, hMid⟩ := (setWords_sets hWords).fills hWords
  exact hHead _ (hMid _ (setTail_filled hTail))

end Ranges

theorem fillByte_toNat (v : BitVec 32) : (fillByte v).toNat = v.toNat % 256 := by
  rw [fillByte, BitVec.toNat_setWidth, BitVec.toNat_and]
  change (v.toNat &&& (2 ^ 8 - 1)) % 2 ^ 8 = v.toNat % 256
  rw [Nat.and_two_pow_sub_one_eq_mod, Nat.mod_mod]

/-- Both functions set the bytes from `dst` on to `v mod 256`, and no other byte. -/
theorem memset_fills (m : Bytes) (dst v n : BitVec 32) (hDst : dst.toNat + n.toNat ≤ 2 ^ 32) :
    (0 ≤ n.toInt → Filled m (memset m dst v n).1 dst n.toNat (BitVec.ofNat 8 (v.toNat % 256)) ∧ (memset m dst v n).2 = dst) ∧
      Filled m (Ulib.memset m dst v n).1 dst n.toNat (BitVec.ofNat 8 (v.toNat % 256)) ∧ (Ulib.memset m dst v n).2 = dst := by
  have hByte : BitVec.ofNat 8 (v.toNat % 256) = fillByte v := by
    rw [← fillByte_toNat, BitVec.ofNat_toNat, BitVec.setWidth_eq]
  rw [hByte]
  refine ⟨fun hn => ⟨?_, rfl⟩, fillRange_filled v fun _ => hDst, rfl⟩
  rw [memset, toNat_toInt hn]
  exact fillRange_filled v fun _ => hDst

/-- Eight bytes from an odd address on: three in front of a word, one behind it. -/
theorem memset_fills_unaligned : (memset (fun _ => 0) 5#32 0x1AB#32 8#32).1 12#32 = 0xAB#8 ∧
    (memset (fun _ => 0) 5#32 0x1AB#32 8#32).1 13#32 = 0#8 := by
  have hFills := ((memset_fills (fun _ => 0) 5#32 0x1AB#32 8#32 (by decide)).1 (by decide)).1
  exact ⟨hFills 12#32, hFills 13#32⟩

end Xv6Rpi.Kstring
