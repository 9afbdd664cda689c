import Xv6Rpi.Fs.Disk

/-! # The on-disk format

Inodes, directory entries and the free bitmap as fs.h lays them out in blocks, each with
the two facts its users need: what was stored is read back, and nothing else changes.
-/

namespace Xv6Rpi.Fs

def rootino : Nat := 1
def ndirect : Nat := 12
def nindirect : Nat := bsize / 4
def maxfile : Nat := ndirect + nindirect
def ipb : Nat := bsize / 64
def bpb : Nat := bsize * 8
def dirsiz : Nat := 14

theorem ipb_eq : ipb = 8 := rfl
theorem bpb_eq : bpb = 4096 := rfl
theorem nindirect_eq : nindirect = 128 := rfl

def iblock (i : Nat) : Nat := i / ipb + 2

def bblock (b ninodes : Nat) : Nat := b / bpb + ninodes / ipb + 3

def tDir : Nat := 1
def tFile : Nat := 2
def tDev : Nat := 3

/-- On-disk inode structure. A `short` is its 16 bits. -/
structure Dinode where
  type : Nat
  major : Nat
  minor : Nat
  nlink : Nat
  size : Nat
  addrs : Nat → Nat

def Dinode.zero : Dinode := ⟨0, 0, 0, 0, 0, fun _ => 0⟩

structure Dinode.Ok (di : Dinode) : Prop where
  type : di.type < 2 ^ 16
  major : di.major < 2 ^ 16
  minor : di.minor < 2 ^ 16
  nlink : di.nlink < 2 ^ 16
  size : di.size < 2 ^ 32
  addrs : ∀ i, di.addrs i < 2 ^ 32
  rest : ∀ i, ndirect < i → di.addrs i = 0

section Inodes

def decodeDinode (b : Block) (k : Nat) : Dinode where
  type := getInt b (64 * k) 2
  major := getInt b (64 * k + 2) 2
  minor := getInt b (64 * k + 4) 2
  nlink := getInt b (64 * k + 6) 2
  size := getWord b (64 * k + 8)
  addrs i := if i ≤ ndirect then getWord b (64 * k + 12 + 4 * i) else 0

def putWords (b : Block) (off : Nat) (a : Nat → Nat) : Nat → Block
  | 0 => b
  | n + 1 => setWord (putWords b off a n) (off + 4 * n) (a n)

def encodeDinode (b : Block) (k : Nat) (di : Dinode) : Block :=
  let b := setInt b (64 * k) 2 di.type
  let b := setInt b (64 * k + 2) 2 di.major
  let b := setInt b (64 * k + 4) 2 di.minor
  let b := setInt b (64 * k + 6) 2 di.nlink
  let b := setWord b (64 * k + 8) di.size
  putWords b (64 * k + 12) di.addrs (ndirect + 1)

theorem putWords_getInt_of_disjoint {b : Block} {off n off' w : Nat} {a : Nat → Nat}
    (h : off' + w ≤ off ∨ off + 4 * n ≤ off') : getInt (putWords b off a n) off' w = getInt b off' w := by
  induction n with
  | zero => rfl
  | succ n ih =>
    rw [putWords, setWord, getInt_setInt_of_disjoint _ (by omega), ih (by omega)]

theorem putWords_getWord {b : Block} {off n i : Nat} {a : Nat → Nat} (hi : i < n) :
    getWord (putWords b off a n) (off + 4 * i) = a i % 2 ^ 32 := by
  induction n with
  | zero => omega
  | succ n ih =>
    rw [putWords]
    by_cases h : i = n
    · rw [h, getWord_setWord_self]
    · rw [getWord_setWord_of_disjoint _ (by omega), ih (by omega)]

theorem decodeDinode_ok (b : Block) (k : Nat) : (decodeDinode b k).Ok where
  type := getInt_lt b _ 2
  major := getInt_lt b _ 2
  minor := getInt_lt b _ 2
  nlink := getInt_lt b _ 2
  size := getWord_lt b _
  addrs i := by
    simp only [decodeDinode]
    split
    · exact getWord_lt b _
    · decide
  rest i hi := if_neg (Nat.not_le.mpr hi)

theorem Dinode.ext_fields {a b : Dinode} (h1 : a.type = b.type) (h2 : a.major = b.major)
    (h3 : a.minor = b.minor) (h4 : a.nlink = b.nlink) (h5 : a.size = b.size) (h6 : a.addrs = b.addrs) :
    a = b := by
  cases a
  cases b
  simp_all

theorem decode_encodeDinode {di : Dinode} (h : di.Ok) (b : Block) (k : Nat) :
    decodeDinode (encodeDinode b k di) k = di := by
  have h16 : ∀ x, x < 2 ^ 16 → x % 256 ^ 2 = x := fun x hx => Nat.mod_eq_of_lt hx
  apply Dinode.ext_fields
  · simp (disch := omega) only [decodeDinode, encodeDinode, putWords_getInt_of_disjoint, setWord,
      getInt_setInt_of_disjoint, getInt_setInt_self, h16 _ h.type]
  · simp (disch := omega) only [decodeDinode, encodeDinode, putWords_getInt_of_disjoint, setWord,
      getInt_setInt_of_disjoint, getInt_setInt_self, h16 _ h.major]
  · simp (disch := omega) only [decodeDinode, encodeDinode, putWords_getInt_of_disjoint, setWord,
      getInt_setInt_of_disjoint, getInt_setInt_self, h16 _ h.minor]
  · simp (disch := omega) only [decodeDinode, encodeDinode, putWords_getInt_of_disjoint, setWord,
      getInt_setInt_of_disjoint, getInt_setInt_self, h16 _ h.nlink]
  · have hSize : di.size % 256 ^ 4 = di.size := Nat.mod_eq_of_lt h.size
    simp (disch := omega) only [decodeDinode, encodeDinode, getWord, putWords_getInt_of_disjoint, setWord,
      getInt_setInt_self, hSize]
  · funext i
    simp only [decodeDinode, encodeDinode]
    by_cases hi : i ≤ ndirect
    · rw [if_pos hi, putWords_getWord (Nat.lt_succ_of_le hi), Nat.mod_eq_of_lt (h.addrs i)]
    · rw [if_neg hi, h.rest i (Nat.lt_of_not_le hi)]

theorem getInt_encodeDinode_of_disjoint {b : Block} {k off w : Nat} {di : Dinode}
    (h : off + w ≤ 64 * k ∨ 64 * k + 64 ≤ off) : getInt (encodeDinode b k di) off w = getInt b off w := by
  simp only [encodeDinode]
  rw [putWords_getInt_of_disjoint (by simp only [ndirect]; omega), setWord,
    getInt_setInt_of_disjoint _ (by omega), getInt_setInt_of_disjoint _ (by omega),
    getInt_setInt_of_disjoint _ (by omega), getInt_setInt_of_disjoint _ (by omega),
    getInt_setInt_of_disjoint _ (by omega)]

theorem decode_encodeDinode_of_ne {b : Block} {k k' : Nat} {di : Dinode} (h : k' ≠ k) :
    decodeDinode (encodeDinode b k di) k' = decodeDinode b k' := by
  have hGet : ∀ off w, 64 * k' ≤ off → off + w ≤ 64 * k' + 64 →
      getInt (encodeDinode b k di) off w = getInt b off w := fun off w h1 h2 =>
    getInt_encodeDinode_of_disjoint (by omega)
  apply Dinode.ext_fields
  · exact hGet _ _ (by omega) (by omega)
  · exact hGet _ _ (by omega) (by omega)
  · exact hGet _ _ (by omega) (by omega)
  · exact hGet _ _ (by omega) (by omega)
  · exact hGet _ _ (by omega) (by omega)
  · funext i
    simp only [decodeDinode]
    by_cases hi : i ≤ ndirect
    · rw [if_pos hi, if_pos hi]
      simp only [ndirect] at hi
      exact hGet _ _ (by omega) (by omega)
    · rw [if_neg hi, if_neg hi]

end Inodes

section Bitmap

def getBit (b : Block) (bi : Nat) : Bool := (b (bi / 8)).toNat &&& (1 <<< (bi % 8)) != 0

def setBit (b : Block) (bi : Nat) : Block :=
  Function.update b (bi / 8) (UInt8.ofNat ((b (bi / 8)).toNat ||| (1 <<< (bi % 8))))

def clearBit (b : Block) (bi : Nat) : Block :=
  Function.update b (bi / 8) (UInt8.ofNat ((b (bi / 8)).toNat &&& (255 - (1 <<< (bi % 8)))))

theorem getBit_eq (b : Block) (bi : Nat) : getBit b bi = (b (bi / 8)).toNat.testBit (bi % 8) := by
  rw [getBit, Nat.one_shiftLeft, Nat.and_two_pow]
  cases (b (bi / 8)).toNat.testBit (bi % 8) with
  | false => simp
  | true =>
    have := Nat.two_pow_pos (bi % 8)
    simp

theorem testBit_ofNat {v i : Nat} (hi : i < 8) : (UInt8.ofNat v).toNat.testBit i = v.testBit i := by
  rw [UInt8.toNat_ofNat', show (2 : Nat) ^ 8 = 2 ^ 8 from rfl, Nat.testBit_mod_two_pow]
  simp [hi]

theorem eq_of_div_mod {a b : Nat} (h : a / 8 = b / 8) (h' : a % 8 = b % 8) : a = b := by omega

theorem getBit_setBit (b : Block) (bi bj : Nat) :
    getBit (setBit b bi) bj = (getBit b bj || decide (bj = bi)) := by
  have hj : bj % 8 < 8 := Nat.mod_lt _ (by decide)
  rw [getBit_eq, getBit_eq, setBit]
  by_cases hDiv : bj / 8 = bi / 8
  · rw [hDiv, Function.update_self, testBit_ofNat hj, Nat.testBit_or, Nat.one_shiftLeft, Nat.testBit_two_pow]
    congr 1
    simp only [decide_eq_decide]
    exact ⟨fun h => eq_of_div_mod hDiv h.symm, fun h => by rw [h]⟩
  · rw [Function.update_of_ne hDiv]
    have hne : bj ≠ bi := fun h => hDiv (by rw [h])
    simp [hne]

theorem testBit_255_sub {i j : Nat} (hi : i < 8) (hj : j < 8) :
    (255 - 1 <<< i).testBit j = decide (j ≠ i) := by
  have hAll : ∀ i j : Fin 8, (255 - 1 <<< i.val).testBit j.val = decide (j.val ≠ i.val) := by decide
  exact hAll ⟨i, hi⟩ ⟨j, hj⟩

theorem getBit_clearBit (b : Block) (bi bj : Nat) :
    getBit (clearBit b bi) bj = (getBit b bj && decide (bj ≠ bi)) := by
  have hi : bi % 8 < 8 := Nat.mod_lt _ (by decide)
  have hj : bj % 8 < 8 := Nat.mod_lt _ (by decide)
  rw [getBit_eq, getBit_eq, clearBit]
  by_cases hDiv : bj / 8 = bi / 8
  · rw [hDiv, Function.update_self, testBit_ofNat hj, Nat.testBit_and, testBit_255_sub hi hj]
    congr 1
    simp only [decide_eq_decide, ne_eq, not_iff_not]
    exact ⟨fun h => eq_of_div_mod hDiv h, fun h => by rw [h]⟩
  · rw [Function.update_of_ne hDiv]
    have hne : bj ≠ bi := fun h => hDiv (by rw [h])
    simp [hne]

/-- The first clear bit among the first `n` of a bitmap block. -/
def firstFree (b : Block) (n : Nat) : Option Nat := (List.range n).find? fun bi => !getBit b bi

theorem firstFree_some {b : Block} {n bi : Nat} (h : firstFree b n = some bi) :
    bi < n ∧ getBit b bi = false :=
  ⟨List.mem_range.mp (List.mem_of_find?_eq_some h), by simpa using List.find?_some h⟩

theorem firstFree_before {b : Block} {n bi j : Nat} (h : firstFree b n = some bi) (hj : j < bi) :
    getBit b j = true := by
  rw [firstFree, List.find?_range_eq_some] at h
  simpa using h.2.2 j hj

theorem firstFree_none {b : Block} {n bi : Nat} (h : firstFree b n = none) (hbi : bi < n) :
    getBit b bi = true := by
  simpa using List.find?_eq_none.mp h bi (List.mem_range.mpr hbi)

end Bitmap

end Xv6Rpi.Fs
