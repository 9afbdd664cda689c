import Xv6Rpi.Base

/-! # Blocks and the words in them

A block is its bytes; only the first `bsize` of them are ever read. Integers are stored
with their lowest byte first.
-/

namespace Xv6Rpi.Fs

def bsize : Nat := 512
def logsize : Nat := 10

abbrev Block := Nat → UInt8

abbrev Disk := Nat → Block

def zeroBlock : Block := fun _ => 0

def getInt (b : Block) (off : Nat) : Nat → Nat
  | 0 => 0
  | w + 1 => (b off).toNat + 256 * getInt b (off + 1) w

/-- The block with the `w` bytes from `off` on holding a number. -/
def setInt (b : Block) (off w v : Nat) : Block := fun j =>
  if off ≤ j ∧ j < off + w then UInt8.ofNat (v / 256 ^ (j - off)) else b j

def getWord (b : Block) (off : Nat) : Nat := getInt b off 4
def setWord (b : Block) (off v : Nat) : Block := setInt b off 4 v

theorem getInt_lt (b : Block) (off w : Nat) : getInt b off w < 256 ^ w := by
  induction w generalizing off with
  | zero => exact Nat.one_pos
  | succ w ih =>
    have h1 := (b off).toNat_lt
    have h2 := ih (off + 1)
    rw [getInt, Nat.pow_succ]
    omega

theorem getInt_congr {b c : Block} {off w : Nat} (h : ∀ j, off ≤ j → j < off + w → b j = c j) :
    getInt b off w = getInt c off w := by
  induction w generalizing off with
  | zero => rfl
  | succ w ih =>
    rw [getInt, getInt, h off le_rfl (by omega), ih fun j h1 h2 => h j (by omega) (by omega)]

theorem getInt_of_digits {b : Block} {off w v : Nat}
    (h : ∀ j < w, b (off + j) = UInt8.ofNat (v / 256 ^ j)) : getInt b off w = v % 256 ^ w := by
  induction w generalizing off v with
  | zero => simp [getInt, Nat.mod_one]
  | succ w ih =>
    have hRest : getInt b (off + 1) w = v / 256 % 256 ^ w := by
      apply ih
      intro j hj
      rw [show off + 1 + j = off + (j + 1) by omega, h (j + 1) (by omega), Nat.pow_succ',
        Nat.div_div_eq_div_mul]
    have hLow : (b off).toNat = v % 256 := by
      have h0 := h 0 (by omega)
      rw [Nat.pow_zero, Nat.div_one, Nat.add_zero] at h0
      rw [h0, UInt8.toNat_ofNat']
    rw [getInt, hRest, hLow, Nat.pow_succ', Nat.mod_mul]

@[simp] theorem getInt_setInt_self (b : Block) (off w v : Nat) :
    getInt (setInt b off w v) off w = v % 256 ^ w := by
  apply getInt_of_digits
  intro j hj
  rw [setInt, if_pos (by omega), Nat.add_sub_cancel_left]

theorem getInt_setInt_of_disjoint (b : Block) {off w v off' w' : Nat}
    (h : off + w ≤ off' ∨ off' + w' ≤ off) : getInt (setInt b off w v) off' w' = getInt b off' w' := by
  apply getInt_congr
  intro j h1 h2
  rw [setInt, if_neg (by omega)]

theorem getWord_lt (b : Block) (off : Nat) : getWord b off < 2 ^ 32 := getInt_lt b off 4

@[simp] theorem getWord_setWord_self (b : Block) (off v : Nat) :
    getWord (setWord b off v) off = v % 2 ^ 32 := getInt_setInt_self b off 4 v

theorem getWord_setWord_of_disjoint (b : Block) {off v off' : Nat} (h : off + 4 ≤ off' ∨ off' + 4 ≤ off) :
    getWord (setWord b off v) off' = getWord b off' := getInt_setInt_of_disjoint b h

structure Superblock where
  size : Nat
  nblocks : Nat
  ninodes : Nat
  nlog : Nat
  deriving DecidableEq, Repr

def decodeSb (b : Block) : Superblock := ⟨getWord b 0, getWord b 4, getWord b 8, getWord b 12⟩

def readsb (d : Disk) : Superblock := decodeSb (d 1)

end Xv6Rpi.Fs
