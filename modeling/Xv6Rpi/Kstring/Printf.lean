import Xv6Rpi.Kstring.Printint

/-! # Formatted output

`cprintf` of the kernel looks at the character behind a `%`, and `printf` of the user library keeps a state from one character to
the next. Both print the pieces of the format one after the other, each with the next argument if it takes one.
-/

namespace Xv6Rpi.Kstring

def ascii (c : Char) : BitVec 8 := BitVec.ofNat 8 c.toNat

def nullText : List (BitVec 8) := ['(', 'n', 'u', 'l', 'l', ')'].map ascii

/-- The characters for `%s`; `str` has the string at every address. -/
def strText (str : BitVec 32 → List (BitVec 8)) (s : BitVec 32) : List (BitVec 8) := if s = 0 then nullText else str s

def next (args : Nat → BitVec 32) : Nat → BitVec 32 := fun i => args (i + 1)

/-- What `cprintf` gives to `consputc`. The words behind `fmt` are `args`. -/
def cprintf (buf : Nat → BitVec 8) (str : BitVec 32 → List (BitVec 8)) : List (BitVec 8) → (Nat → BitVec 32) → Option (List (BitVec 8))
  | [], _ => some []
  | c :: fmt, args =>
    if c ≠ ascii '%' then do return c :: (← cprintf buf str fmt args)
    else match fmt with
      | [] => some []
      | c :: fmt =>
        if c = ascii 'd' then do return (← printint buf (args 0) 10 1) ++ (← cprintf buf str fmt (next args))
        else if c = ascii 'x' ∨ c = ascii 'p' then do return (← printint buf (args 0) 16 0) ++ (← cprintf buf str fmt (next args))
        else if c = ascii 's' then do return strText str (args 0) ++ (← cprintf buf str fmt (next args))
        else if c = ascii '%' then do return ascii '%' :: (← cprintf buf str fmt args)
        else do return ascii '%' :: c :: (← cprintf buf str fmt args)

namespace Ulib

def digits : List (BitVec 8) :=
  (['0', '1', '2', '3', '4', '5', '6', '7', '8', '9', 'A', 'B', 'C', 'D', 'E', 'F'].map ascii) ++ [0]

/-- The `do` loop of `printint`, with `room` bytes of `buf` from index `i` on. -/
def putDigits (b : BitVec 32) (buf : Nat → BitVec 8) (i : Nat) (x : BitVec 32) : Nat → Option ((Nat → BitVec 8) × Nat)
  | 0 => none
  | room + 1 => do
    let c ← digits[(x % b).toNat]?
    let buf := Function.update buf i c
    if x / b ≠ 0 then putDigits b buf (i + 1) (x / b) room else some (buf, i + 1)

def printint (buf : Nat → BitVec 8) (xx base sgn : BitVec 32) : Option (List (BitVec 8)) := do
  let neg := sgn ≠ 0 ∧ xx.toInt < 0
  let x := if neg then -xx else xx
  let (buf, i) ← putDigits base buf 0 x 16
  if neg then
    if i < 16 then some (emit (Function.update buf i (ascii '-')) (i + 1)) else none
  else some (emit buf i)

def printfFrom (buf : Nat → BitVec 8) (str : BitVec 32 → List (BitVec 8)) :
    Bool → List (BitVec 8) → (Nat → BitVec 32) → Option (List (BitVec 8))
  | _, [], _ => some []
  | false, c :: fmt, args =>
    if c = ascii '%' then printfFrom buf str true fmt args
    else do return c :: (← printfFrom buf str false fmt args)
  | true, c :: fmt, args =>
    if c = ascii 'd' then do return (← printint buf (args 0) 10 1) ++ (← printfFrom buf str false fmt (next args))
    else if c = ascii 'x' ∨ c = ascii 'p' then do
      return (← printint buf (args 0) 16 0) ++ (← printfFrom buf str false fmt (next args))
    else if c = ascii 's' then do return strText str (args 0) ++ (← printfFrom buf str false fmt (next args))
    else if c = ascii 'c' then do return (args 0).setWidth 8 :: (← printfFrom buf str false fmt (next args))
    else if c = ascii '%' then do return c :: (← printfFrom buf str false fmt args)
    else do return ascii '%' :: c :: (← printfFrom buf str false fmt args)

def printf (buf : Nat → BitVec 8) (str : BitVec 32 → List (BitVec 8)) (fmt : List (BitVec 8)) (args : Nat → BitVec 32) :
    Option (List (BitVec 8)) := printfFrom buf str false fmt args

end Ulib

/-! ## Pieces of a format -/

inductive Piece where
  | char (c : BitVec 8)
  | number (base sign : BitVec 32)
  | str
  -- the character of a conversion that is not known to both
  | other (c : BitVec 8)

def conversion (c : BitVec 8) : Piece :=
  if c = ascii 'd' then .number 10 1
  else if c = ascii 'x' ∨ c = ascii 'p' then .number 16 0
  else if c = ascii 's' then .str
  else if c = ascii '%' then .char c
  else .other c

def pieces : List (BitVec 8) → List Piece
  | [] => []
  | c :: fmt =>
    if c ≠ ascii '%' then .char c :: pieces fmt
    else match fmt with
      | [] => []
      | c :: fmt => conversion c :: pieces fmt

def numberText (digit : Nat → BitVec 8) (xx base sign : BitVec 32) : List (BitVec 8) :=
  (if shown xx sign < 0 then [ascii '-'] else []) ++ (digitsOf base.toNat (shown xx sign).natAbs).reverse.map digit

/-- How a program prints: its digits, and whether it knows `%c`. -/
structure Printer where
  digit : Nat → BitVec 8
  knowsChar : Bool

def Printer.render (p : Printer) (str : BitVec 32 → List (BitVec 8)) : List Piece → (Nat → BitVec 32) → List (BitVec 8)
  | [], _ => []
  | .char c :: l, args => c :: p.render str l args
  | .number base sign :: l, args => numberText p.digit (args 0) base sign ++ p.render str l (next args)
  | .str :: l, args => strText str (args 0) ++ p.render str l (next args)
  | .other c :: l, args =>
    if p.knowsChar ∧ c = ascii 'c' then (args 0).setWidth 8 :: p.render str l (next args)
    else ascii '%' :: c :: p.render str l args

def Ulib.digitChar (k : Nat) : BitVec 8 := BitVec.ofNat 8 (if k < 10 then '0'.toNat + k else 'A'.toNat + (k - 10))

def kernelPrinter : Printer := ⟨digitChar, false⟩

def userPrinter : Printer := ⟨Ulib.digitChar, true⟩

section Numbers

variable {b n : Nat} {ds : List Nat} {buf : Nat → BitVec 8}

theorem Numeral.eq_digitsOf (h : Numeral b n ds) (hb : 1 < b) : ds = (digitsOf b n).reverse := by
  rw [digitsOf]
  by_cases hHead : ds.head? = some 0
  · have hZero := h.canonical hHead
    have hValue := h.value
    rw [hZero] at hValue ⊢
    have hn : n = 0 := hValue.symm
    rw [if_pos hn]
    rfl
  · have hNil : ds.reverse ≠ [] := List.reverse_ne_nil_iff.mpr h.nonempty
    have hLast : ∀ hNe : ds.reverse ≠ [], ds.reverse.getLast hNe ≠ 0 := fun hNe hZero => by
      have hSome := List.getLast?_eq_some_getLast hNe
      rw [List.getLast?_reverse, hZero] at hSome
      exact hHead hSome
    have hDigits := Nat.digits_ofDigits b hb ds.reverse (fun k hk => h.lt k (List.mem_reverse.mp hk)) hLast
    rw [h.value] at hDigits
    have hn : n ≠ 0 := fun hZero => by
      rw [hZero, Nat.digits_zero] at hDigits
      exact hNil hDigits.symm
    rw [if_neg hn, hDigits, List.reverse_reverse]

theorem printint_eq (xx sign : BitVec 32) {base : BitVec 32} (hBase : base = 10 ∨ base = 16) :
    printint buf xx base sign = some (numberText digitChar xx base sign) := by
  obtain ⟨ds, hPrint, hNumeral⟩ := printint_numeral buf xx sign hBase
  have hb : 1 < base.toNat := by
    rcases hBase with rfl | rfl <;> decide
  rw [hPrint, hNumeral.eq_digitsOf hb]
  rfl

namespace Ulib

theorem digits_get {k : Nat} (hk : k < 16) : digits[k]? = some (digitChar k) := by
  revert k
  decide

/-- The loop stores the digits of `x` from index `i` on, if there is room for them. -/
theorem putDigits_eq {b x : BitVec 32} {i room : Nat} (hLow : 2 ≤ b.toNat) (hHigh : b.toNat ≤ 16) (hRoom : room ≠ 0)
    (hx : x.toNat < b.toNat ^ room) :
    ∃ buf', putDigits b buf i x room = some (buf', i + (digitsOf b.toNat x.toNat).length) ∧
      emit buf' (i + (digitsOf b.toNat x.toNat).length) = (digitsOf b.toNat x.toNat).reverse.map digitChar ++ emit buf i := by
  induction room generalizing buf i x with
  | zero => exact absurd rfl hRoom
  | succ room ih =>
    have hDigit : digits[(x % b).toNat]? = some (digitChar (x.toNat % b.toNat)) := by
      rw [BitVec.toNat_umod]
      exact digits_get (Nat.lt_of_lt_of_le (Nat.mod_lt _ (by omega)) hHigh)
    rw [putDigits, hDigit, digitsOf_eq (Nat.lt_of_lt_of_le Nat.one_lt_two hLow)]
    simp only [Option.bind_eq_bind, Option.bind_some]
    by_cases hLast : x.toNat / b.toNat = 0
    · have hy : x / b = 0 := BitVec.eq_of_toNat_eq (BitVec.toNat_udiv.trans hLast)
      rw [if_neg (not_not.mpr hy), if_pos hLast]
      refine ⟨_, rfl, ?_⟩
      rw [List.length_singleton, emit, Function.update_self, emit_update (Nat.le_refl i)]
      rfl
    · have hy : x / b ≠ 0 := fun hZero => hLast (by rw [← BitVec.toNat_udiv, hZero]; rfl)
      have hNext : (x / b).toNat < b.toNat ^ room := by
        rw [BitVec.toNat_udiv, Nat.div_lt_iff_lt_mul (by omega), ← Nat.pow_succ]
        exact hx
      have hMore : room ≠ 0 := fun hZero => by
        rw [hZero, Nat.pow_zero, BitVec.toNat_udiv] at hNext
        exact hLast (Nat.lt_one_iff.mp hNext)
      obtain ⟨buf', hPut, hEmit⟩ := @ih (Function.update buf i (digitChar (x.toNat % b.toNat))) _ (i + 1) hMore hNext
      rw [BitVec.toNat_udiv] at hPut hEmit
      rw [if_pos hy, if_neg hLast, List.length_cons, ← Nat.add_assoc, Nat.add_right_comm i _ 1]
      refine ⟨buf', hPut, ?_⟩
      rw [hEmit, emit, Function.update_self, emit_update (Nat.le_refl i), List.reverse_cons, List.map_append, List.append_assoc]
      rfl

theorem printint_eq (xx sign : BitVec 32) {base : BitVec 32} (hBase : base = 10 ∨ base = 16) :
    printint buf xx base sign = some (numberText digitChar xx base sign) := by
  have hRange : 2 ≤ base.toNat ∧ base.toNat ≤ 16 ∧ 2 ^ 32 ≤ base.toNat ^ 10 := by
    rcases hBase with rfl | rfl <;> decide
  obtain ⟨hLow, hHigh, hPow⟩ := hRange
  rw [numberText, ← shown_natAbs]
  generalize hX : (if sign ≠ 0 ∧ xx.toInt < 0 then -xx else xx) = x
  have hTen : x.toNat < base.toNat ^ 10 := Nat.lt_of_lt_of_le x.isLt hPow
  have hLength := digitsOf_length hLow (by decide) hTen
  have hFits : x.toNat < base.toNat ^ 16 := hTen.trans_le (Nat.pow_le_pow_right (by omega) (by decide))
  obtain ⟨buf', hPut, hEmit⟩ := @putDigits_eq buf base x 0 16 hLow hHigh (by decide) hFits
  rw [Nat.zero_add] at hPut hEmit
  rw [printint]
  dsimp only
  rw [hX, hPut, Option.bind_eq_bind, Option.bind_some]
  rw [if_congr (shown_neg xx sign) rfl rfl]
  split
  · rw [if_pos (by omega), emit, Function.update_self, emit_update (Nat.le_refl _), hEmit, emit, List.append_nil]
    rfl
  · rw [hEmit, emit, List.append_nil]
    rfl

end Ulib

end Numbers

section Formats

variable (buf : Nat → BitVec 8) (str : BitVec 32 → List (BitVec 8)) (fmt : List (BitVec 8)) (args : Nat → BitVec 32)

theorem cprintf_pieces : cprintf buf str fmt args = some (kernelPrinter.render str (pieces fmt) args) := by
  induction fmt using pieces.induct generalizing args with
  | case1 => rfl
  | case2 c fmt hNe ih =>
    rw [cprintf.eq_def, pieces.eq_def]
    dsimp only
    rw [if_pos hNe, if_pos hNe, ih]
    rfl
  | case3 c hEq =>
    rw [cprintf.eq_def, pieces.eq_def]
    dsimp only
    rw [if_neg hEq, if_neg hEq]
    rfl
  | case4 c hEq d fmt ih =>
    rw [cprintf.eq_def, pieces.eq_def]
    dsimp only
    rw [if_neg hEq, if_neg hEq, conversion]
    split
    · rw [printint_eq _ _ (.inl rfl), ih]
      rfl
    · split
      · rw [printint_eq _ _ (.inr rfl), ih]
        rfl
      · split
        · rw [ih]
          rfl
        · split
          · rename_i hPercent
            rw [ih, hPercent]
            rfl
          · rw [ih]
            rfl

theorem printf_pieces : Ulib.printf buf str fmt args = some (userPrinter.render str (pieces fmt) args) := by
  rw [Ulib.printf]
  induction fmt using pieces.induct generalizing args with
  | case1 => rfl
  | case2 c fmt hNe ih =>
    rw [Ulib.printfFrom.eq_def, pieces.eq_def]
    dsimp only
    rw [if_neg hNe, if_pos hNe, ih]
    rfl
  | case3 c hEq =>
    rw [Ulib.printfFrom.eq_def, pieces.eq_def]
    dsimp only
    rw [if_pos (not_not.mp hEq), if_neg hEq]
    rfl
  | case4 c hEq d fmt ih =>
    rw [Ulib.printfFrom.eq_def, pieces.eq_def]
    dsimp only
    rw [if_pos (not_not.mp hEq), if_neg hEq, Ulib.printfFrom.eq_def, conversion]
    dsimp only
    split
    · rw [Ulib.printint_eq _ _ (.inl rfl), ih]
      rfl
    · split
      · rw [Ulib.printint_eq _ _ (.inr rfl), ih]
        rfl
      · split
        · rw [ih]
          rfl
        · by_cases hPercent : d = ascii '%'
          · have hChar : d ≠ ascii 'c' := by
              rw [hPercent]
              decide
            rw [if_neg hChar, if_pos hPercent, if_pos hPercent, ih]
            rfl
          · rw [if_neg hPercent, if_neg hPercent]
            by_cases hChar : d = ascii 'c'
            · rw [if_pos hChar, ih, Printer.render, if_pos ⟨rfl, hChar⟩]
              rfl
            · rw [if_neg hChar, ih, Printer.render, if_neg fun h => hChar h.2]
              rfl

/-- The same characters and arguments, but for the letters of hexadecimal digits and for `%c`. -/
theorem formats_agree : cprintf buf str fmt args = some (kernelPrinter.render str (pieces fmt) args) ∧
    Ulib.printf buf str fmt args = some (userPrinter.render str (pieces fmt) args) :=
  ⟨cprintf_pieces buf str fmt args, printf_pieces buf str fmt args⟩

end Formats

end Xv6Rpi.Kstring
