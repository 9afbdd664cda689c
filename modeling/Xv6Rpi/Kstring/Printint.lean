import Mathlib.Data.Nat.Digits.Lemmas
import Xv6Rpi.Kstring.Memmove

/-! # div of string.c and printint of console.c

The remainder of the long division is never above the bits of `n` that were shifted in, so that
doubling it loses nothing however large `d` is. The digits of a number are then those of its quotients.
-/

namespace Xv6Rpi.Kstring

def divStep (n d : BitVec 32) (i : Nat) (s : BitVec 32 × BitVec 32) : BitVec 32 × BitVec 32 :=
  let r := s.2 <<< 1
  let r := r ||| (n >>> i &&& 1#32)
  if r ≥ d then (s.1 ||| 1#32 <<< i, r - d) else (s.1, r)

/-- The first `k` turns, for `i` from 31 downwards. -/
def divAfter (n d : BitVec 32) : Nat → BitVec 32 × BitVec 32
  | 0 => (0, 0)
  | k + 1 => divStep n d (31 - k) (divAfter n d k)

def div (n d : BitVec 32) : BitVec 32 := (divAfter n d 32).1

def digits : List (BitVec 8) :=
  (['0', '1', '2', '3', '4', '5', '6', '7', '8', '9', 'a', 'b', 'c', 'd', 'e', 'f'].map fun c => BitVec.ofNat 8 c.toNat) ++ [0]

/-- The `do` loop of `printint`, with `room` bytes of `buf` from index `i` on. A store behind the end
of `buf` ends it without a result. -/
def putDigits (b : BitVec 32) (buf : Nat → BitVec 8) (i : Nat) (x : BitVec 32) : Nat → Option ((Nat → BitVec 8) × Nat)
  | 0 => none
  | room + 1 => do
    let y := div x b
    let c ← digits[(x - y * b).toNat]?
    let buf := Function.update buf i c
    if y ≠ 0 then putDigits b buf (i + 1) y room else some (buf, i + 1)

/-- `while (--i >= 0) consputc(buf[i]);` -/
def emit (buf : Nat → BitVec 8) : Nat → List (BitVec 8)
  | 0 => []
  | i + 1 => buf i :: emit buf i

/-- The characters given to `consputc`. What `buf` holds at first is arbitrary. -/
def printint (buf : Nat → BitVec 8) (xx base sign : BitVec 32) : Option (List (BitVec 8)) := do
  let neg := sign ≠ 0 ∧ xx.toInt < 0
  let x := if neg then -xx else xx
  let (buf, i) ← putDigits base buf 0 x 16
  if neg then
    if i < 16 then some (emit (Function.update buf i (BitVec.ofNat 8 '-'.toNat)) (i + 1)) else none
  else some (emit buf i)

section Div

variable {n d : BitVec 32}

theorem bit_toNat (n : BitVec 32) (i : Nat) : (n >>> i &&& 1#32).toNat = n.toNat / 2 ^ i % 2 := by
  rw [BitVec.toNat_and, BitVec.toNat_ushiftRight, Nat.shiftRight_eq_div_pow]
  exact Nat.and_one_is_mod _

/-- A remainder of fewer than 32 bits is doubled without loss. -/
theorem shiftIn_toNat {r b : BitVec 32} (hr : r.toNat < 2 ^ 31) (hb : b.toNat < 2) : (r <<< 1).toNat = 2 * r.toNat ∧
    (r <<< 1 ||| b).toNat = 2 * r.toNat + b.toNat := by
  have hShift : (r <<< 1).toNat = 2 * r.toNat := by
    rw [BitVec.toNat_shiftLeft, Nat.shiftLeft_eq, Nat.mod_eq_of_lt (by omega)]
    omega
  refine ⟨hShift, ?_⟩
  rw [BitVec.toNat_or, hShift, Nat.mul_comm 2, ← Nat.shiftLeft_eq (b := 1), Nat.shiftLeft_add_eq_or_of_lt (by omega)]

/-- The quotient and the remainder of the leading bits of `n`, down to bit `i`. -/
structure Divided (n d : BitVec 32) (i : Nat) (s : BitVec 32 × BitVec 32) : Prop where
  quotient : s.1.toNat = n.toNat / 2 ^ i / d.toNat * 2 ^ i
  remainder : s.2.toNat = n.toNat / 2 ^ i % d.toNat

theorem Divided.small {i : Nat} {s : BitVec 32 × BitVec 32} (h : Divided n d (i + 1) s) : s.2.toNat < 2 ^ 31 := by
  have hn := n.isLt
  have hHalf : n.toNat / 2 ^ (i + 1) ≤ n.toNat / 2 := Nat.div_le_div_left (by rw [Nat.pow_succ]; have := Nat.two_pow_pos i; omega) (by decide)
  have hMod := Nat.mod_le (n.toNat / 2 ^ (i + 1)) d.toNat
  rw [h.remainder]
  omega

theorem div_mod_shiftIn (N : Nat) {D : Nat} (hD : 0 < D) :
    if D ≤ 2 * (N / 2 % D) + N % 2 then N / D = 2 * (N / 2 / D) + 1 ∧ N % D = 2 * (N / 2 % D) + N % 2 - D
    else N / D = 2 * (N / 2 / D) ∧ N % D = 2 * (N / 2 % D) + N % 2 := by
  have hHalf : N / 2 % D + D * (N / 2 / D) = N / 2 := Nat.mod_add_div _ _
  have hLt : N / 2 % D < D := Nat.mod_lt _ hD
  split
  · rw [Nat.div_mod_unique hD, Nat.mul_add, Nat.mul_left_comm]
    omega
  · rw [Nat.div_mod_unique hD, Nat.mul_left_comm]
    omega

theorem setBit_toNat {q : BitVec 32} {i c : Nat} (hi : i < 32) (hq : q.toNat = c * 2 ^ (i + 1)) :
    (q ||| 1#32 <<< i).toNat = (2 * c + 1) * 2 ^ i := by
  have hBit : (1#32 <<< i).toNat = 2 ^ i := by
    rw [BitVec.toNat_shiftLeft, Nat.shiftLeft_eq]
    change 1 * 2 ^ i % 2 ^ 32 = 2 ^ i
    rw [Nat.one_mul, Nat.mod_eq_of_lt (Nat.pow_lt_pow_right (by decide) hi)]
  have hLow : 2 ^ i < 2 ^ (i + 1) := Nat.pow_lt_pow_right (by decide) (Nat.lt_succ_self i)
  rw [BitVec.toNat_or, hBit, hq, ← Nat.shiftLeft_eq, ← Nat.shiftLeft_add_eq_or_of_lt hLow, Nat.shiftLeft_eq, Nat.pow_succ]
  ring

theorem Divided.step (hd : d ≠ 0) {i : Nat} (hi : i < 32) {s : BitVec 32 × BitVec 32} (h : Divided n d (i + 1) s) :
    Divided n d i (divStep n d i s) := by
  have hD : 0 < d.toNat := Nat.pos_of_ne_zero fun hZero => hd (BitVec.eq_of_toNat_eq hZero)
  have hHalf : n.toNat / 2 ^ (i + 1) = n.toNat / 2 ^ i / 2 := by rw [Nat.pow_succ, Nat.div_div_eq_div_mul]
  have hIn : (s.2 <<< 1 ||| (n >>> i &&& 1#32)).toNat = 2 * (n.toNat / 2 ^ i / 2 % d.toNat) + n.toNat / 2 ^ i % 2 := by
    rw [(shiftIn_toNat h.small (by rw [bit_toNat]; exact Nat.mod_lt _ (by decide))).2, bit_toNat, h.remainder, hHalf]
  have hOld := h.quotient
  rw [hHalf] at hOld
  have hNat := div_mod_shiftIn (n.toNat / 2 ^ i) hD
  rw [divStep]
  split at hNat
  · rename_i hSub
    rw [if_pos (show s.2 <<< 1 ||| (n >>> i &&& 1#32) ≥ d by rwa [ge_iff_le, BitVec.le_def, hIn])]
    constructor
    · rw [setBit_toNat hi hOld, hNat.1]
    · rw [BitVec.toNat_sub_of_le (by rwa [BitVec.le_def, hIn]), hIn, hNat.2]
  · rename_i hSub
    rw [if_neg (show ¬s.2 <<< 1 ||| (n >>> i &&& 1#32) ≥ d by rwa [ge_iff_le, BitVec.le_def, hIn])]
    constructor
    · rw [hOld, hNat.1, Nat.pow_succ]
      ring
    · rw [hIn, hNat.2]

theorem divided_after (hd : d ≠ 0) {k : Nat} (hk : k ≤ 32) : Divided n d (32 - k) (divAfter n d k) := by
  induction k with
  | zero =>
    have hn : n.toNat / 2 ^ 32 = 0 := Nat.div_eq_of_lt n.isLt
    constructor
    · rw [Nat.sub_zero, hn, Nat.zero_div, Nat.zero_mul]
      rfl
    · rw [Nat.sub_zero, hn, Nat.zero_mod]
      rfl
  | succ k ih =>
    have hBefore := ih (Nat.le_of_succ_le hk)
    rw [show 32 - k = 31 - k + 1 by omega] at hBefore
    rw [show 32 - (k + 1) = 31 - k by omega]
    exact hBefore.step hd (by omega)

theorem div_toNat (hd : d ≠ 0) : (div n d).toNat = n.toNat / d.toNat := by
  rw [div, (divided_after hd (Nat.le_refl 32)).quotient, Nat.sub_self, Nat.pow_zero, Nat.div_one, Nat.mul_one]

theorem div_keeps_remainder (hd : d ≠ 0) {k : Nat} (hk : k < 32) :
    ((divAfter n d k).2 <<< 1).toNat = 2 * (divAfter n d k).2.toNat := by
  have hBefore : Divided n d (32 - k) (divAfter n d k) := divided_after hd (Nat.le_of_lt hk)
  rw [show 32 - k = 31 - k + 1 by omega] at hBefore
  exact (shiftIn_toNat (b := 0) hBefore.small (by decide)).1

end Div

section Numerals

def digitChar (k : Nat) : BitVec 8 := BitVec.ofNat 8 (if k < 10 then '0'.toNat + k else 'a'.toNat + (k - 10))

theorem digits_get {k : Nat} (hk : k < 16) : digits[k]? = some (digitChar k) := by
  revert k
  decide

/-- The digits, the most significant one first, have the value `n` and no leading zeros. -/
structure Numeral (b n : Nat) (ds : List Nat) : Prop where
  nonempty : ds ≠ []
  lt : ∀ k ∈ ds, k < b
  value : Nat.ofDigits b ds.reverse = n
  canonical : ds.head? = some 0 → ds = [0]

def digitsOf (b n : Nat) : List Nat := if n = 0 then [0] else Nat.digits b n

variable {b n : Nat}

theorem digitsOf_eq (hb : 1 < b) : digitsOf b n = n % b :: if n / b = 0 then [] else digitsOf b (n / b) := by
  rw [digitsOf]
  split
  · rename_i hZero
    rw [hZero, Nat.zero_mod, Nat.zero_div, if_pos rfl]
  · rename_i hPos
    rw [Nat.digits_def' hb (Nat.pos_of_ne_zero hPos), digitsOf]
    split
    · rename_i hLast
      rw [hLast, Nat.digits_zero]
    · rfl

theorem numeral_digitsOf (hb : 1 < b) : Numeral b n (digitsOf b n).reverse := by
  by_cases hn : n = 0
  · subst hn
    exact ⟨List.cons_ne_nil 0 [], fun k hk => by rw [List.mem_singleton.mp hk]; omega, rfl, fun _ => rfl⟩
  · have hDigits : digitsOf b n = Nat.digits b n := if_neg hn
    have hNil : Nat.digits b n ≠ [] := Nat.digits_ne_nil_iff_ne_zero.mpr hn
    rw [hDigits]
    refine ⟨?_, fun k hk => Nat.digits_lt_base hb (List.mem_reverse.mp hk), ?_, fun hZero => ?_⟩
    · rwa [ne_eq, List.reverse_eq_nil_iff]
    · rw [List.reverse_reverse, Nat.ofDigits_digits]
    · rw [List.head?_reverse, List.getLast?_eq_some_getLast hNil] at hZero
      exact absurd (Option.some.inj hZero) (Nat.getLast_digit_ne_zero b hn)

theorem digitsOf_length (hb : 1 < b) {k : Nat} (hk : k ≠ 0) (h : n < b ^ k) : (digitsOf b n).length ≤ k := by
  rw [digitsOf]
  split
  · exact Nat.one_le_iff_ne_zero.mpr hk
  · exact (Nat.digits_length_le_iff hb n).mpr h

end Numerals

section Print

variable {buf : Nat → BitVec 8} {x b : BitVec 32} {i : Nat}

theorem emit_update {j : Nat} (h : i ≤ j) (c : BitVec 8) : emit (Function.update buf j c) i = emit buf i := by
  induction i with
  | zero => rfl
  | succ i ih => rw [emit, emit, ih (by omega), Function.update_of_ne (by omega)]

theorem remainder_toNat (hb : b ≠ 0) : (x - div x b * b).toNat = x.toNat % b.toNat := by
  have hMul : (div x b * b).toNat = x.toNat / b.toNat * b.toNat := by
    have hLe := Nat.div_mul_le_self x.toNat b.toNat
    have hx := x.isLt
    rw [BitVec.toNat_mul, div_toNat hb, Nat.mod_eq_of_lt (by omega)]
  have hSplit := Nat.div_add_mod' x.toNat b.toNat
  rw [BitVec.toNat_sub_of_le (by rw [BitVec.le_def, hMul]; omega), hMul]
  omega

/-- The loop stores the digits of `x` from index `i` on, if there is room for them. -/
theorem putDigits_eq (hLow : 2 ≤ b.toNat) (hHigh : b.toNat ≤ 16) {room : Nat} (hRoom : room ≠ 0) (hx : x.toNat < b.toNat ^ room) :
    ∃ buf', putDigits b buf i x room = some (buf', i + (digitsOf b.toNat x.toNat).length) ∧
      emit buf' (i + (digitsOf b.toNat x.toNat).length) = (digitsOf b.toNat x.toNat).reverse.map digitChar ++ emit buf i := by
  induction room generalizing buf i x with
  | zero => exact absurd rfl hRoom
  | succ room ih =>
    have hb : b ≠ 0 := fun hZero => by
      rw [hZero] at hLow
      exact absurd hLow (by decide)
    have hDigit : digits[(x - div x b * b).toNat]? = some (digitChar (x.toNat % b.toNat)) := by
      rw [remainder_toNat hb]
      exact digits_get (Nat.lt_of_lt_of_le (Nat.mod_lt _ (by omega)) hHigh)
    rw [putDigits, hDigit, digitsOf_eq (Nat.lt_of_lt_of_le Nat.one_lt_two hLow)]
    simp only [Option.bind_eq_bind, Option.bind_some]
    by_cases hLast : x.toNat / b.toNat = 0
    · have hy : div x b = 0 := BitVec.eq_of_toNat_eq ((div_toNat hb).trans hLast)
      rw [if_neg (not_not.mpr hy), if_pos hLast]
      refine ⟨_, rfl, ?_⟩
      rw [List.length_singleton, emit, Function.update_self, emit_update (Nat.le_refl i)]
      rfl
    · have hy : div x b ≠ 0 := fun hZero => hLast (by rw [← div_toNat hb, hZero]; rfl)
      have hNext : (div x b).toNat < b.toNat ^ room := by
        rw [div_toNat hb, Nat.div_lt_iff_lt_mul (by omega), ← Nat.pow_succ]
        exact hx
      have hMore : room ≠ 0 := fun hZero => by
        rw [hZero, Nat.pow_zero, div_toNat hb] at hNext
        exact hLast (Nat.lt_one_iff.mp hNext)
      obtain ⟨buf', hPut, hEmit⟩ := @ih (Function.update buf i (digitChar (x.toNat % b.toNat))) _ (i + 1) hMore hNext
      rw [div_toNat hb] at hPut hEmit
      rw [if_pos hy, if_neg hLast, List.length_cons, ← Nat.add_assoc, Nat.add_right_comm i _ 1]
      refine ⟨buf', hPut, ?_⟩
      rw [hEmit, emit, Function.update_self, emit_update (Nat.le_refl i), List.reverse_cons, List.map_append,
        List.append_assoc]
      rfl

end Print

/-- The number that is printed: `xx` as a signed or as an unsigned word. -/
def shown (xx sign : BitVec 32) : Int := if sign ≠ 0 then xx.toInt else xx.toNat

theorem shown_neg (xx sign : BitVec 32) : shown xx sign < 0 ↔ sign ≠ 0 ∧ xx.toInt < 0 := by
  rw [shown]
  split
  · rename_i hSign
    exact ⟨fun h => ⟨hSign, h⟩, fun h => h.2⟩
  · rename_i hSign
    exact ⟨fun h => absurd h (Int.not_lt.mpr (Int.natCast_nonneg _)), fun h => absurd h.1 hSign⟩

theorem shown_natAbs (xx sign : BitVec 32) :
    (if sign ≠ 0 ∧ xx.toInt < 0 then -xx else xx).toNat = (shown xx sign).natAbs := by
  have hx := xx.isLt
  rw [shown]
  split
  · rename_i hNeg
    have hInt := hNeg.2
    rw [BitVec.toInt_eq_toNat_cond] at hInt
    rw [if_pos hNeg.1, BitVec.toNat_neg, BitVec.toInt_eq_toNat_cond]
    omega
  · rename_i hPos
    split
    · rename_i hSign
      have hInt : ¬xx.toInt < 0 := fun hLt => hPos ⟨hSign, hLt⟩
      rw [BitVec.toInt_eq_toNat_cond] at hInt ⊢
      omega
    · rfl

theorem printint_numeral (buf : Nat → BitVec 8) (xx sign : BitVec 32) {base : BitVec 32} (hBase : base = 10 ∨ base = 16) :
    ∃ ds, printint buf xx base sign =
        some ((if shown xx sign < 0 then [BitVec.ofNat 8 '-'.toNat] else []) ++ ds.map digitChar) ∧
      Numeral base.toNat (shown xx sign).natAbs ds := by
  have hRange : 2 ≤ base.toNat ∧ base.toNat ≤ 16 ∧ 2 ^ 32 ≤ base.toNat ^ 10 := by
    rcases hBase with rfl | rfl <;> decide
  obtain ⟨hLow, hHigh, hPow⟩ := hRange
  have hb : 1 < base.toNat := hLow
  refine ⟨(digitsOf base.toNat (shown xx sign).natAbs).reverse, ?_, numeral_digitsOf hb⟩
  rw [← shown_natAbs]
  generalize hX : (if sign ≠ 0 ∧ xx.toInt < 0 then -xx else xx) = x
  have hTen : x.toNat < base.toNat ^ 10 := Nat.lt_of_lt_of_le x.isLt hPow
  have hLength := digitsOf_length hb (by decide) hTen
  have hRoom : x.toNat < base.toNat ^ 16 := hTen.trans_le (Nat.pow_le_pow_right (by omega) (by decide))
  obtain ⟨buf', hPut, hEmit⟩ := @putDigits_eq buf x base 0 hLow hHigh 16 (by decide) hRoom
  rw [Nat.zero_add] at hPut hEmit
  rw [printint]
  dsimp only
  rw [hX, hPut, Option.bind_eq_bind, Option.bind_some]
  rw [if_congr (shown_neg xx sign) rfl rfl]
  split
  · rw [if_pos (by omega), emit, Function.update_self, emit_update (Nat.le_refl _), hEmit, emit, List.append_nil]
    rfl
  · rw [hEmit, emit, List.append_nil]
    rfl

/-- `div` is exact whatever the divisor, and loses no bit of its remainder on the way; so the
kernel prints the numeral of every word in base 10 and 16, within its buffer. -/
theorem div_and_printint_exact :
    (∀ n d : BitVec 32, d ≠ 0 → (div n d).toNat = n.toNat / d.toNat ∧
        ∀ k < 32, ((divAfter n d k).2 <<< 1).toNat = 2 * (divAfter n d k).2.toNat) ∧
      ∀ (buf : Nat → BitVec 8) (xx base sign : BitVec 32), base = 10 ∨ base = 16 →
        ∃ ds, printint buf xx base sign =
            some ((if shown xx sign < 0 then [BitVec.ofNat 8 '-'.toNat] else []) ++ ds.map digitChar) ∧
          Numeral base.toNat (shown xx sign).natAbs ds :=
  ⟨fun _ _ hd => ⟨div_toNat hd, fun _ hk => div_keeps_remainder hd hk⟩, fun buf xx _ sign hBase => printint_numeral buf xx sign hBase⟩

/-- A divisor above 2^31, and the smallest integer. -/
theorem div_and_printint_exact_min : (div 0xFFFFFFFF 0x80000001).toNat = 1 ∧
    ∃ ds, printint (fun _ => 0) 0x80000000 10 1 = some ([BitVec.ofNat 8 '-'.toNat] ++ ds.map digitChar) ∧
      Numeral 10 2147483648 ds :=
  ⟨(div_and_printint_exact.1 0xFFFFFFFF 0x80000001 (by decide)).1,
    div_and_printint_exact.2 (fun _ => 0) 0x80000000 10 1 (Or.inl rfl)⟩

example : printint (fun _ => 0) 0x80000000 10 1 = some ("-2147483648".toList.map fun c => BitVec.ofNat 8 c.toNat) := by decide +kernel

end Xv6Rpi.Kstring
