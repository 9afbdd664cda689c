import Mathlib.Logic.Function.Basic
import Mathlib.Tactic

/-! # A processor with banked registers

The part of the ARM instruction set that low-level trap code uses: the modes with their own r13, r14 and saved status, loads and
stores of several registers, also of those of user mode, and the entry to an exception and the return from it. The r8 to r12 that
fast interrupts have of their own are left out.
-/

namespace Xv6Rpi.Arm

abbrev Word := BitVec 32

inductive Mode where
  | usr
  | fiq
  | irq
  | svc
  | abt
  | und
  deriving DecidableEq

/-- The mode field of a status register. -/
def Mode.bits : Mode → Word
  | .usr => 0x10
  | .fiq => 0x11
  | .irq => 0x12
  | .svc => 0x13
  | .abt => 0x17
  | .und => 0x1B

/-- System mode is the other one with the registers of user mode. -/
def modeOf (psr : Word) : Mode :=
  if psr &&& 0x1F = Mode.bits .fiq then .fiq
  else if psr &&& 0x1F = Mode.bits .irq then .irq
  else if psr &&& 0x1F = Mode.bits .svc then .svc
  else if psr &&& 0x1F = Mode.bits .abt then .abt
  else if psr &&& 0x1F = Mode.bits .und then .und
  else .usr

inductive Reg where
  | r (i : Fin 13)
  | sp
  | lr
  | pc
  deriving DecidableEq

structure Cpu where
  r : Fin 13 → Word
  sp : Mode → Word
  lr : Mode → Word
  pc : Word
  cpsr : Word
  spsr : Mode → Word
  mem : Word → Word

/-- The status register, or the one that is saved in the current mode. -/
inductive Psr where
  | cpsr
  | spsr
  deriving DecidableEq

/-- `wb` says whether the address is written back. -/
inductive Instr where
  | mov (d n : Reg)
  | add (d n : Reg) (k : Word)
  | sub (d n : Reg) (k : Word)
  | bic (d n : Reg) (k : Word)
  | orr (d n : Reg) (k : Word)
  | ldr (d n : Reg) (k : Word)
  | str (d n : Reg) (k : Word)
  | mrs (d : Reg) (p : Psr)
  | msr (p : Psr) (n : Reg)
  | stmfd (n : Reg) (wb : Bool) (l : List Reg)
  | stmfdUser (n : Reg) (l : List Reg)
  | ldmfd (n : Reg) (wb : Bool) (l : List Reg)
  | ldmfdUser (n : Reg) (l : List Reg)
  -- the list ends with the pc
  | ldmfdPc (n : Reg) (l : List Reg)
  -- and the status is restored
  | ldmfdRet (n : Reg) (l : List Reg)
  | bl (target : Word)
  | b (target : Word)
  | bx (n : Reg)
  deriving DecidableEq

/-! ## Several words of memory -/

/-- The words `l` from address `a` on. -/
def store (a : Word) : List Word → (Word → Word) → Word → Word
  | [], mem => mem
  | v :: l, mem => Function.update (store (a + 4) l mem) a v

/-- The address of word `i` from `a` on. -/
def wordAt (a : Word) (i : Nat) : Word := a + BitVec.ofNat 32 (4 * i)

namespace Cpu

variable (s : Cpu) (m : Mode)

def mode : Mode := modeOf s.cpsr

def get : Reg → Word
  | .r i => s.r i
  | .sp => s.sp m
  | .lr => s.lr m
  | .pc => s.pc

def set (x : Reg) (v : Word) : Cpu := match x with
  | .r i => { s with r := Function.update s.r i v }
  | .sp => { s with sp := Function.update s.sp m v }
  | .lr => { s with lr := Function.update s.lr m v }
  | .pc => { s with pc := v }

def next : Cpu := { s with pc := s.pc + 4 }

/-- The registers `l` from the words from address `a` on. -/
def load (a : Word) : List Reg → Cpu
  | [] => s
  | x :: l => (load (a + 4) l).set m x (s.mem a)

/-- The lowest of `n` words that are pushed. -/
def below (x : Reg) (n : Nat) : Word := s.get s.mode x - BitVec.ofNat 32 (4 * n)

/-- Entry to an exception in mode `m`. -/
def enter (ret vector : Word) : Cpu := { s with
  spsr := Function.update s.spsr m s.cpsr
  lr := Function.update s.lr m ret
  cpsr := s.cpsr &&& ~~~0x1F ||| m.bits ||| 0x80
  pc := vector }

end Cpu

/-- One instruction. -/
def Instr.exec (s : Cpu) : Instr → Cpu
  | .mov d n => (s.set s.mode d (s.get s.mode n)).next
  | .add d n k => (s.set s.mode d (s.get s.mode n + k)).next
  | .sub d n k => (s.set s.mode d (s.get s.mode n - k)).next
  | .bic d n k => (s.set s.mode d (s.get s.mode n &&& ~~~k)).next
  | .orr d n k => (s.set s.mode d (s.get s.mode n ||| k)).next
  | .ldr d n k => (s.set s.mode d (s.mem (s.get s.mode n + k))).next
  | .str d n k => { s with mem := Function.update s.mem (s.get s.mode n + k) (s.get s.mode d) }.next
  | .mrs d .cpsr => (s.set s.mode d s.cpsr).next
  | .mrs d .spsr => (s.set s.mode d (s.spsr s.mode)).next
  | .msr .cpsr n => { s with cpsr := s.get s.mode n }.next
  | .msr .spsr n => { s with spsr := Function.update s.spsr s.mode (s.get s.mode n) }.next
  | .stmfd n wb l =>
    let s' := { s with mem := store (s.below n l.length) (l.map (s.get s.mode)) s.mem }
    (if wb then s'.set s.mode n (s.below n l.length) else s').next
  | .stmfdUser n l => { s with mem := store (s.below n l.length) (l.map (s.get .usr)) s.mem }.next
  | .ldmfd n wb l =>
    let s' := s.load s.mode (s.get s.mode n) l
    (if wb then s'.set s.mode n (wordAt (s.get s.mode n) l.length) else s').next
  | .ldmfdUser n l => (s.load .usr (s.get s.mode n) l).next
  | .ldmfdPc n l => (s.load s.mode (s.get s.mode n) l).set s.mode n (wordAt (s.get s.mode n) l.length)
  | .ldmfdRet n l =>
    { (s.load s.mode (s.get s.mode n) l).set s.mode n (wordAt (s.get s.mode n) l.length) with cpsr := s.spsr s.mode }
  | .bl target => { s.set s.mode .lr (s.pc + 4) with pc := target }
  | .b target => { s with pc := target }
  | .bx n => { s with pc := s.get s.mode n }

/-- Instructions one after another. -/
def run (l : List Instr) (s : Cpu) : Cpu := l.foldl Instr.exec s

section Modes

theorem modeOf_enter (x : Word) (m : Mode) (hm : m ≠ .usr) : modeOf (x &&& ~~~0x1F ||| m.bits ||| 0x80) = m := by
  have hField : (x &&& ~~~0x1F ||| m.bits ||| 0x80) &&& 0x1F = m.bits := by
    rw [BitVec.and_or_distrib_right, BitVec.and_or_distrib_right, BitVec.and_assoc]
    have hClear : ~~~(0x1F : Word) &&& 0x1F = 0 := by decide
    have hZero : x &&& (0 : Word) = 0 := BitVec.and_zero
    rw [hClear, hZero]
    cases m with
    | usr => rfl
    | fiq => rfl
    | irq => rfl
    | svc => rfl
    | abt => rfl
    | und => rfl
  rw [modeOf, hField]
  cases m with
  | usr => exact absurd rfl hm
  | fiq => rfl
  | irq => rfl
  | svc => rfl
  | abt => rfl
  | und => rfl

end Modes

section Words

variable {a x : Word} {l l' : List Word} {mem : Word → Word} {i : Nat}

@[simp]
theorem wordAt_zero : wordAt a 0 = a := by
  simp [wordAt]

theorem wordAt_succ : wordAt (a + 4) i = wordAt a (i + 1) := by
  rw [wordAt, wordAt, BitVec.add_assoc]
  congr 1
  rw [show (4 : Word) = BitVec.ofNat 32 4 from rfl, ← BitVec.ofNat_add, Nat.add_comm 4, Nat.mul_add]

theorem wordAt_wordAt {j : Nat} : wordAt (wordAt a i) j = wordAt a (i + j) := by
  rw [wordAt, wordAt, wordAt, BitVec.add_assoc, ← BitVec.ofNat_add, Nat.mul_add]

theorem wordAt_inj {j : Nat} (hi : i < 2 ^ 30) (hj : j < 2 ^ 30) (h : wordAt a i = wordAt a j) : i = j := by
  rw [wordAt, wordAt, BitVec.add_right_inj] at h
  have hNat := congrArg BitVec.toNat h
  rw [BitVec.toNat_ofNat, BitVec.toNat_ofNat, Nat.mod_eq_of_lt (by omega), Nat.mod_eq_of_lt (by omega)] at hNat
  omega

theorem store_outside (h : ∀ i < l.length, x ≠ wordAt a i) : store a l mem x = mem x := by
  induction l generalizing a with
  | nil => rfl
  | cons v l ih =>
    have hHead : x ≠ a := by
      have hZero := h 0 (Nat.succ_pos _)
      rwa [wordAt_zero] at hZero
    rw [store, Function.update_of_ne hHead]
    refine ih fun i hi => ?_
    rw [wordAt_succ]
    exact h (i + 1) (Nat.succ_lt_succ hi)

theorem store_at (hl : l.length ≤ 2 ^ 30) (hi : i < l.length) : store a l mem (wordAt a i) = l[i] := by
  induction l generalizing a i with
  | nil => cases hi
  | cons v l ih =>
    rw [List.length_cons] at hl hi
    cases i with
    | zero =>
      rw [wordAt_zero, store, Function.update_self]
      rfl
    | succ i =>
      have hNe : wordAt a (i + 1) ≠ a := fun hEq => by
        rw [← wordAt_zero (a := a), wordAt_wordAt] at hEq
        have hZero := wordAt_inj (by omega) (by omega) hEq
        omega
      rw [store, Function.update_of_ne hNe, ← wordAt_succ]
      exact ih (by omega) (by omega)

theorem store_append : store a l (store (wordAt a l.length) l' mem) = store a (l ++ l') mem := by
  induction l generalizing a with
  | nil =>
    rw [List.length_nil, wordAt_zero]
    rfl
  | cons v l ih =>
    rw [List.length_cons, ← wordAt_succ, List.cons_append, store, store, ih]

end Words

namespace Cpu

variable {s s' : Cpu} {m m' : Mode} {x y : Reg} {v a : Word} {l l' : List Reg} {i : Nat}

@[simp]
theorem set_cpsr : (s.set m x v).cpsr = s.cpsr := by
  cases x with
  | r i => rfl
  | sp => rfl
  | lr => rfl
  | pc => rfl

@[simp]
theorem set_spsr : (s.set m x v).spsr = s.spsr := by
  cases x with
  | r i => rfl
  | sp => rfl
  | lr => rfl
  | pc => rfl

@[simp]
theorem set_mem : (s.set m x v).mem = s.mem := by
  cases x with
  | r i => rfl
  | sp => rfl
  | lr => rfl
  | pc => rfl

@[simp]
theorem get_set_self : (s.set m x v).get m x = v := by
  cases x with
  | r i => exact Function.update_self ..
  | sp => exact Function.update_self ..
  | lr => exact Function.update_self ..
  | pc => rfl

theorem get_set_of_ne (h : y ≠ x) : (s.set m x v).get m' y = s.get m' y := by
  cases x with
  | r i => cases y with
    | r j => exact Function.update_of_ne (fun hEq => h (congrArg Reg.r hEq)) ..
    | sp => rfl
    | lr => rfl
    | pc => rfl
  | sp => cases y with
    | r j => rfl
    | sp => exact absurd rfl h
    | lr => rfl
    | pc => rfl
  | lr => cases y with
    | r j => rfl
    | sp => rfl
    | lr => exact absurd rfl h
    | pc => rfl
  | pc => cases y with
    | r j => rfl
    | sp => rfl
    | lr => rfl
    | pc => exact absurd rfl h

theorem sp_set_of_ne (h : m' ≠ m) : (s.set m x v).sp m' = s.sp m' := by
  cases x with
  | sp => exact Function.update_of_ne h ..
  | r i => rfl
  | lr => rfl
  | pc => rfl

@[simp]
theorem load_cpsr : (s.load m a l).cpsr = s.cpsr := by
  induction l generalizing a with
  | nil => rfl
  | cons x l ih => rw [load, set_cpsr, ih]

@[simp]
theorem load_spsr : (s.load m a l).spsr = s.spsr := by
  induction l generalizing a with
  | nil => rfl
  | cons x l ih => rw [load, set_spsr, ih]

@[simp]
theorem load_mem : (s.load m a l).mem = s.mem := by
  induction l generalizing a with
  | nil => rfl
  | cons x l ih => rw [load, set_mem, ih]

theorem get_load_of_notMem (h : x ∉ l) : (s.load m a l).get m' x = s.get m' x := by
  induction l generalizing a with
  | nil => rfl
  | cons y l ih =>
    rw [List.mem_cons, not_or] at h
    rw [load, get_set_of_ne h.1, ih h.2]

theorem get_load (hNodup : l.Nodup) (hi : i < l.length) : (s.load m a l).get m l[i] = s.mem (wordAt a i) := by
  induction l generalizing a i with
  | nil => cases hi
  | cons y l ih =>
    rw [List.nodup_cons] at hNodup
    cases i with
    | zero =>
      rw [wordAt_zero, load]
      exact get_set_self
    | succ i =>
      have hLt : i < l.length := Nat.lt_of_succ_lt_succ hi
      have hNe : l[i] ≠ y := fun hEq => hNodup.1 (hEq ▸ List.getElem_mem hLt)
      rw [List.getElem_cons_succ, load, get_set_of_ne hNe, ih hNodup.2 hLt, wordAt_succ]

theorem sp_load_of_ne (h : m' ≠ m) : (s.load m a l).sp m' = s.sp m' := by
  induction l generalizing a with
  | nil => rfl
  | cons x l ih => rw [load, sp_set_of_ne h, ih]

end Cpu

end Xv6Rpi.Arm
