import Xv6Rpi.Base
import Xv6Rpi.Lib.Arm

/-! # The entry to a trap and the return from it

The code of trap_asm.S builds a trapframe on the kernel stack, calls the handler, and loads the registers from the trapframe.
The entry for interrupts first uses a few words below r13 of its own mode.
-/

namespace Xv6Rpi.Trap

open Arm

def psrMask : Word := 0x1F
def psrModeSvc : Word := 0x13
def psrDisableIrq : Word := 0x80

def gprs : List Reg := (List.finRange 13).map .r

def highGprs : List Reg := gprs.drop 3

def trapSwi (swiHandler : Word) : List Instr := [
  .stmfd .sp true (gprs ++ [.lr]),
  .mrs (.r 2) .spsr,
  .stmfd .sp true [.r 2],
  .stmfd .sp true [.lr],
  .stmfdUser .sp [.sp, .lr],
  .sub .sp .sp 8,
  .mov (.r 0) .sp,
  .bl swiHandler]

def trapret : List Instr := [
  .ldmfdUser .sp [.sp, .lr],
  .add .sp .sp 8,
  .ldmfd .sp true [.lr],
  .ldmfd .sp true [.r 2],
  .msr .spsr (.r 2),
  .ldmfdRet .sp (gprs ++ [.pc])]

/-- `trap_irq` up to where it is in SVC mode: some registers are below r13_irq, and r0 says where. -/
def trapIrqSave : List Instr := [
  .sub .lr .lr 4,
  .stmfd .sp true [.r 0, .r 1, .r 2, .lr],
  .mrs (.r 1) .spsr,
  .mov (.r 0) .sp,
  .add .sp .sp 16,
  .mrs (.r 2) .cpsr,
  .bic (.r 2) (.r 2) psrMask,
  .orr (.r 2) (.r 2) psrModeSvc,
  .msr .cpsr (.r 2)]

/-- The pc and r3 to r12 go to the stack of SVC mode, -/
def trapIrqHigh : List Instr := [
  .ldr (.r 2) (.r 0) 12,
  .stmfd .sp true [.r 2],
  .stmfd .sp true highGprs]

def trapIrqLow (irqHandler : Word) : List Instr := [
  .ldmfd (.r 0) false [.r 3, .r 4, .r 5],
  .stmfd .sp true [.r 3, .r 4, .r 5],
  .stmfd .sp true [.r 1],
  .stmfd .sp true [.lr],
  .stmfdUser .sp [.sp, .lr],
  .sub .sp .sp 8,
  .mov (.r 0) .sp,
  .bl irqHandler]

def trapIrq (irqHandler : Word) : List Instr := trapIrqSave ++ (trapIrqHigh ++ trapIrqLow irqHandler)

structure Frame where
  spUsr : Word
  lrUsr : Word
  r14Svc : Word
  spsr : Word
  r : Fin 13 → Word
  pc : Word

def Frame.words (f : Frame) : List Word := [f.spUsr, f.lrUsr, f.r14Svc, f.spsr] ++ ((List.finRange 13).map f.r ++ [f.pc])

def Frame.At (f : Frame) (mem : Word → Word) (a : Word) : Prop := ∀ i < 18, f.words[i]? = some (mem (wordAt a i))

section Words

variable {f : Frame} {mem mem' : Word → Word} {a : Word}

theorem Frame.length_words (f : Frame) : f.words.length = 18 := rfl

theorem Frame.words_r (f : Frame) (i : Fin 13) : f.words[4 + i.val]? = some (f.r i) := by
  fin_cases i <;> rfl

theorem Frame.at_store (f : Frame) (a : Word) (mem : Word → Word) : f.At (store a f.words mem) a := fun i hi => by
  have hLen : i < f.words.length := hi
  rw [List.getElem?_eq_getElem hLen, store_at (by rw [length_words]; decide) hLen]

theorem Frame.At.congr (h : f.At mem a) (hMem : ∀ i < 18, mem' (wordAt a i) = mem (wordAt a i)) : f.At mem' a := fun i hi => by
  rw [hMem i hi]
  exact h i hi

end Words

section Run

variable {s : Cpu}

theorem run_append (l l' : List Instr) (s : Cpu) : run (l ++ l') s = run l' (run l s) := List.foldl_append ..

theorem map_gprs (s : Cpu) (m : Mode) : gprs.map (s.get m) = (List.finRange 13).map s.r := List.map_map ..

theorem length_gprs (x : Reg) : (gprs ++ [x]).length = 14 := rfl

theorem store_push (a x : Word) (i : Nat) (l : List Word) (mem : Word → Word) :
    store (wordAt a i) [x] (store (wordAt a (i + 1)) l mem) = store (wordAt a i) (x :: l) mem := by
  rw [← wordAt_wordAt]
  exact store_append (l := [x])

theorem pushed_frame (a v w x y : Word) (l : List Word) (mem : Word → Word) :
    store a [v, w] (store (wordAt a 2) [x] (store (wordAt a 3) [y] (store (wordAt a 4) l mem))) = store a ([v, w, x, y] ++ l) mem := by
  rw [store_push a y 3, store_push a x 2]
  exact store_append (l := [v, w])

def swiFrame (s : Cpu) : Frame := ⟨s.sp .usr, s.lr .usr, s.lr .svc, s.spsr .svc, s.r, s.lr .svc⟩

theorem run_trapSwi (hMode : s.mode = .svc) (swiHandler : Word) : run (trapSwi swiHandler) s = { s with
    r := Function.update (Function.update s.r 2 (s.spsr .svc)) 0 (s.sp .svc - 72)
    sp := Function.update s.sp .svc (s.sp .svc - 72)
    lr := Function.update s.lr .svc (s.pc + 32)
    pc := swiHandler
    mem := store (s.sp .svc - 72) (swiFrame s).words s.mem } := by
  have hPsr : modeOf s.cpsr = .svc := hMode
  obtain ⟨a, ha⟩ : ∃ a, s.sp .svc = a + 72 := ⟨s.sp .svc - 72, by bv_omega⟩
  have hBase : s.sp .svc - 72 = a := by bv_omega
  have h4 : a + 72 - BitVec.ofNat 32 (4 * 14) = wordAt a 4 := by rw [wordAt]; bv_omega
  have h3 : wordAt a 4 - BitVec.ofNat 32 (4 * 1) = wordAt a 3 := by rw [wordAt, wordAt]; bv_omega
  have h2 : wordAt a 3 - BitVec.ofNat 32 (4 * 1) = wordAt a 2 := by rw [wordAt, wordAt]; bv_omega
  have h0 : wordAt a 2 - BitVec.ofNat 32 (4 * 2) = a := by rw [wordAt]; bv_omega
  have h0' : wordAt a 2 - 8 = a := by rw [wordAt]; bv_omega
  have hPc : s.pc + 4 + 4 + 4 + 4 + 4 + 4 + 4 + 4 = s.pc + 32 := by bv_omega
  rw [hBase]
  simp only [run, trapSwi, List.foldl, Instr.exec, Cpu.next, Cpu.mode, hPsr, Cpu.below, Cpu.get, if_true, Cpu.set, length_gprs,
    Function.update_self, Function.update_idem, List.length_cons, List.length_nil, Nat.zero_add, Nat.reduceAdd, ha,
    h4, h3, h2, h0, h0', hPc, List.map_append,
    map_gprs, List.map_cons, List.map_nil]
  rw [Function.update_of_ne (by decide), pushed_frame]
  rfl

def toSvc (psr : Word) : Word := psr &&& ~~~psrMask ||| psrModeSvc

theorem run_trapIrqSave (hMode : s.mode = .irq) : run trapIrqSave s = { s with
    r := Function.update (Function.update (Function.update s.r 1 (s.spsr .irq)) 0 (s.sp .irq - 16)) 2 (toSvc s.cpsr)
    lr := Function.update s.lr .irq (s.lr .irq - 4)
    pc := s.pc + 36
    cpsr := toSvc s.cpsr
    mem := store (s.sp .irq - 16) [s.r 0, s.r 1, s.r 2, s.lr .irq - 4] s.mem } := by
  have hPsr : modeOf s.cpsr = .irq := hMode
  have hLow : s.sp .irq - BitVec.ofNat 32 (4 * 4) = s.sp .irq - 16 := rfl
  have hBack : s.sp .irq - 16 + 16 = s.sp .irq := by bv_omega
  have hPc : s.pc + 4 + 4 + 4 + 4 + 4 + 4 + 4 + 4 + 4 = s.pc + 36 := by bv_omega
  simp only [run, trapIrqSave, List.foldl, Instr.exec, Cpu.next, Cpu.mode, hPsr, Cpu.below, Cpu.get, if_true, Cpu.set,
    Function.update_self, Function.update_idem, List.length_cons, List.length_nil, Nat.zero_add, Nat.reduceAdd, hLow, hBack, hPc,
    List.map_cons, List.map_nil, Function.update_eq_self]
  rfl

theorem map_highGprs (s : Cpu) (m : Mode) : highGprs.map (s.get m) = ((List.finRange 13).drop 3).map s.r := by
  rw [highGprs, List.map_drop, map_gprs, List.map_drop]

theorem run_trapIrqHigh {p x : Word} (hMode : s.mode = .svc) (hr : s.r 0 = p) (hx : s.mem (p + 12) = x) :
    run trapIrqHigh s = { s with
      r := Function.update s.r 2 x
      sp := Function.update s.sp .svc (s.sp .svc - 44)
      pc := s.pc + 12
      mem := store (s.sp .svc - 44) (((List.finRange 13).drop 3).map s.r ++ [x]) s.mem } := by
  have hPsr : modeOf s.cpsr = .svc := hMode
  obtain ⟨a, ha⟩ : ∃ a, s.sp .svc = a + 44 := ⟨s.sp .svc - 44, by bv_omega⟩
  have hBase : s.sp .svc - 44 = a := by bv_omega
  have h10 : a + 44 - BitVec.ofNat 32 (4 * 1) = wordAt a 10 := by rw [wordAt]; bv_omega
  have h0 : wordAt a 10 - BitVec.ofNat 32 (4 * 10) = a := by rw [wordAt]; bv_omega
  have hPc : s.pc + 4 + 4 + 4 = s.pc + 12 := by bv_omega
  have hLen : highGprs.length = 10 := rfl
  have hHigh : ((List.finRange 13).drop 3).map (Function.update s.r 2 x) = ((List.finRange 13).drop 3).map s.r := by
    refine List.map_congr_left fun i hi => Function.update_of_ne ?_ ..
    rintro rfl
    revert hi
    decide
  rw [hBase]
  simp only [run, trapIrqHigh, List.foldl, Instr.exec, Cpu.next, Cpu.mode, hPsr, Cpu.below, Cpu.get, if_true, Cpu.set, hr, hx, hLen,
    Function.update_self, Function.update_idem, List.length_cons, List.length_nil, Nat.zero_add, ha, h10, h0, hPc,
    List.map_cons, List.map_nil, map_highGprs, hHigh]
  have hPush := @store_append a (((List.finRange 13).drop 3).map s.r) [x] s.mem
  exact congrArg (fun mem => { s with
    r := Function.update s.r 2 x
    sp := Function.update s.sp .svc a
    pc := s.pc + 12
    mem := mem }) hPush

theorem run_trapIrqLow {p x0 x1 x2 : Word} {l : List Word} {mem : Word → Word} (irqHandler : Word) (hMode : s.mode = .svc) (hr : s.r 0 = p)
    (h0 : s.mem p = x0) (h1 : s.mem (p + 4) = x1) (h2 : s.mem (p + 8) = x2) (hMem : s.mem = store (s.sp .svc) l mem) :
    run (trapIrqLow irqHandler) s = { s with
      r := Function.update (Function.update (Function.update (Function.update s.r 5 x2) 4 x1) 3 x0) 0 (s.sp .svc - 28)
      sp := Function.update s.sp .svc (s.sp .svc - 28)
      lr := Function.update s.lr .svc (s.pc + 32)
      pc := irqHandler
      mem := store (s.sp .svc - 28) ([s.sp .usr, s.lr .usr, s.lr .svc, s.r 1] ++ ([x0, x1, x2] ++ l)) mem } := by
  have hPsr : modeOf s.cpsr = .svc := hMode
  obtain ⟨a, ha⟩ : ∃ a, s.sp .svc = wordAt a 7 := ⟨s.sp .svc - 28, by rw [wordAt]; bv_omega⟩
  have hBase : wordAt a 7 - 28 = a := by rw [wordAt]; bv_omega
  have hw4 : wordAt a 7 - BitVec.ofNat 32 (4 * 3) = wordAt a 4 := by rw [wordAt, wordAt]; bv_omega
  have hw3 : wordAt a 4 - BitVec.ofNat 32 (4 * 1) = wordAt a 3 := by rw [wordAt, wordAt]; bv_omega
  have hw2 : wordAt a 3 - BitVec.ofNat 32 (4 * 1) = wordAt a 2 := by rw [wordAt, wordAt]; bv_omega
  have hw0 : wordAt a 2 - BitVec.ofNat 32 (4 * 2) = a := by rw [wordAt]; bv_omega
  have hw0' : wordAt a 2 - 8 = a := by rw [wordAt]; bv_omega
  have hPc : s.pc + 4 + 4 + 4 + 4 + 4 + 4 + 4 + 4 = s.pc + 32 := by bv_omega
  have h8 : p + 4 + 4 = p + 8 := by bv_omega
  rw [ha] at hMem ⊢
  rw [hBase]
  simp only [run, trapIrqLow, List.foldl, Instr.exec, Cpu.next, Cpu.mode, hPsr, Cpu.below, Cpu.get, if_true, Cpu.set, Cpu.load, hr, h0, h1, h8, h2,
    Function.update_self, Function.update_idem, List.length_cons, List.length_nil, Nat.zero_add, Nat.reduceAdd, ha, hw4, hw3, hw2, hw0, hw0', hPc,
    List.map_cons, List.map_nil, if_false, Bool.false_eq_true]
  have hr1 : Function.update (Function.update (Function.update s.r 5 x2) 4 x1) 3 x0 1 = s.r 1 := rfl
  have hr4 : Function.update (Function.update (Function.update s.r 5 x2) 4 x1) 3 x0 4 = x1 := rfl
  have hr5 : Function.update (Function.update (Function.update s.r 5 x2) 4 x1) 3 x0 5 = x2 := rfl
  have hUsr : Function.update s.sp .svc (wordAt a 2) .usr = s.sp .usr := rfl
  have hPush : store (wordAt a 4) [x0, x1, x2] (store (wordAt a 7) l mem) = store (wordAt a 4) ([x0, x1, x2] ++ l) mem := by
    rw [← store_append, wordAt_wordAt]
    rfl
  rw [hr1, hr4, hr5, hUsr, hMem, hPush, pushed_frame]

end Run

section Return

variable {f : Frame} {a x : Word} {w : Cpu}

/-- How many words of the trapframe the first `i` instructions of `trapret` have popped. -/
def popped : Nat → Nat
  | 0 => 0
  | 1 => 0
  | 2 => 2
  | 3 => 3
  | _ => 4

/-- The first `i` instructions of `trapret` have been executed, and `x` is in spsr_svc. -/
structure Ready (f : Frame) (a x : Word) (i : Nat) (w : Cpu) : Prop where
  mode : w.mode = .svc
  sp : w.sp .svc = wordAt a (popped i)
  frame : ∀ k < 18, popped i ≤ k → f.words[k]? = some (w.mem (wordAt a k))
  user : 1 ≤ i → w.sp .usr = f.spUsr ∧ w.lr .usr = f.lrUsr
  lr : 3 ≤ i → w.lr .svc = f.r14Svc
  scratch : i = 4 → w.r 2 = f.spsr
  saved : 5 ≤ i → w.spsr .svc = x

/-- The registers are those of the trapframe, and `x` is the status. -/
structure Returned (f : Frame) (a x : Word) (w : Cpu) : Prop where
  r : w.r = f.r
  sp : w.sp .usr = f.spUsr
  lr : w.lr .usr = f.lrUsr
  pc : w.pc = f.pc
  cpsr : w.cpsr = x
  spSvc : w.sp .svc = wordAt a 18
  lrSvc : w.lr .svc = f.r14Svc
  spsr : w.spsr .svc = x

theorem Frame.At.ready (h : f.At w.mem a) (hMode : w.mode = .svc) (hSp : w.sp .svc = a) : Ready f a x 0 w where
  mode := hMode
  sp := by rw [hSp, popped, wordAt_zero]
  frame k hk _ := h k hk
  user hi := absurd hi (by decide)
  lr hi := absurd hi (by decide)
  scratch hi := absurd hi (by decide)
  saved hi := absurd hi (by decide)

theorem Ready.beforeMsr {i : Nat} {y : Word} (h : Ready f a x i w) (hi : i < 5) : Ready f a y i w where
  mode := h.mode
  sp := h.sp
  frame := h.frame
  user := h.user
  lr := h.lr
  scratch := h.scratch
  saved hLe := absurd hLe (Nat.not_le_of_lt hi)

theorem Ready.loadUser (h : Ready f a x 0 w) : Ready f a x 1 (Instr.exec w (.ldmfdUser .sp [.sp, .lr])) := by
  have hPsr : modeOf w.cpsr = .svc := h.mode
  have hNe : Mode.svc ≠ Mode.usr := by decide
  have hSp := h.sp
  rw [popped, wordAt_zero] at hSp
  have h0 := Option.some.inj (h.frame 0 (by decide) (Nat.le_refl 0))
  have h1 := Option.some.inj (h.frame 1 (by decide) (Nat.zero_le 1))
  rw [wordAt_zero] at h0
  simp only [Instr.exec, Cpu.next, Cpu.mode, hPsr, Cpu.get, Cpu.load, Cpu.set, hSp]
  constructor
  case mode => exact hPsr
  case sp =>
    rw [popped, wordAt_zero]
    exact (Function.update_of_ne hNe (w.mem a) w.sp).trans hSp
  case frame => exact fun k hk _ => h.frame k hk (Nat.zero_le k)
  case user =>
    intro _
    constructor
    · exact (Function.update_self Mode.usr (w.mem a) w.sp).trans h0.symm
    · exact (Function.update_self Mode.usr (w.mem (a + 4)) w.lr).trans h1.symm
  all_goals
    intro hi
    omega

theorem Ready.dropUser (h : Ready f a x 1 w) : Ready f a x 2 (Instr.exec w (.add .sp .sp 8)) := by
  have hPsr : modeOf w.cpsr = .svc := h.mode
  have hNe : Mode.usr ≠ Mode.svc := by decide
  have hSp := h.sp
  rw [popped, wordAt_zero] at hSp
  simp only [Instr.exec, Cpu.next, Cpu.mode, hPsr, Cpu.get, Cpu.set, hSp]
  constructor
  case mode => exact hPsr
  case sp => exact Function.update_self Mode.svc (a + 8) w.sp
  case frame => exact fun k hk _ => h.frame k hk (Nat.zero_le k)
  case user =>
    obtain ⟨hUsr, hLr⟩ := h.user (Nat.le_refl 1)
    exact fun _ => ⟨(Function.update_of_ne hNe (a + 8) w.sp).trans hUsr, hLr⟩
  all_goals
    intro hi
    omega

theorem Ready.popLr (h : Ready f a x 2 w) : Ready f a x 3 (Instr.exec w (.ldmfd .sp true [.lr])) := by
  have hPsr : modeOf w.cpsr = .svc := h.mode
  have hNe : Mode.usr ≠ Mode.svc := by decide
  have hSp := h.sp
  rw [popped] at hSp
  have h2 := Option.some.inj (h.frame 2 (by decide) (Nat.le_refl 2))
  simp only [Instr.exec, Cpu.next, Cpu.mode, hPsr, Cpu.get, Cpu.load, Cpu.set, hSp, if_true]
  constructor
  case mode => exact hPsr
  case sp =>
    have hEnd : wordAt (wordAt a 2) 1 = wordAt a 3 := wordAt_wordAt
    exact (Function.update_self Mode.svc (wordAt (wordAt a 2) 1) w.sp).trans hEnd
  case frame => exact fun k hk hLe => h.frame k hk (Nat.le_of_succ_le hLe)
  case user =>
    obtain ⟨hUsr, hLr⟩ := h.user (by decide)
    exact fun _ => ⟨(Function.update_of_ne hNe (wordAt (wordAt a 2) 1) w.sp).trans hUsr,
      (Function.update_of_ne hNe (w.mem (wordAt a 2)) w.lr).trans hLr⟩
  case lr => exact fun _ => (Function.update_self Mode.svc (w.mem (wordAt a 2)) w.lr).trans h2.symm
  all_goals
    intro hi
    omega

theorem Ready.popSpsr (h : Ready f a x 3 w) : Ready f a x 4 (Instr.exec w (.ldmfd .sp true [.r 2])) := by
  have hPsr : modeOf w.cpsr = .svc := h.mode
  have hNe : Mode.usr ≠ Mode.svc := by decide
  have hSp := h.sp
  rw [popped] at hSp
  have h3 := Option.some.inj (h.frame 3 (by decide) (Nat.le_refl 3))
  simp only [Instr.exec, Cpu.next, Cpu.mode, hPsr, Cpu.get, Cpu.load, Cpu.set, hSp, if_true]
  constructor
  case mode => exact hPsr
  case sp =>
    have hEnd : wordAt (wordAt a 3) 1 = wordAt a 4 := wordAt_wordAt
    exact (Function.update_self Mode.svc (wordAt (wordAt a 3) 1) w.sp).trans hEnd
  case frame => exact fun k hk hLe => h.frame k hk (Nat.le_of_succ_le hLe)
  case user =>
    obtain ⟨hUsr, hLr⟩ := h.user (by decide)
    exact fun _ => ⟨(Function.update_of_ne hNe (wordAt (wordAt a 3) 1) w.sp).trans hUsr, hLr⟩
  case lr => exact fun _ => h.lr (Nat.le_refl 3)
  case scratch => exact fun _ => (Function.update_self 2 (w.mem (wordAt a 3)) w.r).trans h3.symm
  case saved =>
    intro hi
    omega

theorem Ready.setSpsr (h : Ready f a x 4 w) : Ready f a f.spsr 5 (Instr.exec w (.msr .spsr (.r 2))) := by
  have hPsr : modeOf w.cpsr = .svc := h.mode
  simp only [Instr.exec, Cpu.next, Cpu.mode, hPsr, Cpu.get]
  constructor
  case mode => exact hPsr
  case sp => exact h.sp
  case frame => exact h.frame
  case user => exact fun _ => h.user (by decide)
  case lr => exact fun _ => h.lr (by decide)
  case scratch =>
    intro hi
    omega
  case saved => exact fun _ => (Function.update_self Mode.svc (w.r 2) w.spsr).trans (h.scratch rfl)

/-- Only the last instruction of `trapret` leaves SVC mode, and none writes to memory. -/
theorem Ready.step {i : Nat} (h : Ready f a x i w) (hi : i < 5) {c : Instr} (hc : trapret[i]? = some c) :
    Ready f a f.spsr (i + 1) (Instr.exec w c) := by
  replace h := h.beforeMsr (y := f.spsr) hi
  obtain rfl | rfl | rfl | rfl | rfl : i = 0 ∨ i = 1 ∨ i = 2 ∨ i = 3 ∨ i = 4 := by omega
  · cases hc
    exact h.loadUser
  · cases hc
    exact h.dropUser
  · cases hc
    exact h.popLr
  · cases hc
    exact h.popSpsr
  · cases hc
    exact h.setSpsr

theorem Ready.ret (h : Ready f a x 5 w) : Returned f a x (Instr.exec w (.ldmfdRet .sp (gprs ++ [.pc]))) := by
  have hPsr : modeOf w.cpsr = .svc := h.mode
  have hSp : w.sp .svc = wordAt a 4 := h.sp
  have hNe' : Mode.usr ≠ Mode.svc := by decide
  have hNodup : (gprs ++ [Reg.pc]).Nodup := by decide
  have hLoad : ∀ i (hi : i < (gprs ++ [Reg.pc]).length), (w.load .svc (wordAt a 4) (gprs ++ [.pc])).get .svc (gprs ++ [Reg.pc])[i] =
      w.mem (wordAt a (4 + i)) := fun i hi => by
    rw [Cpu.get_load hNodup hi, wordAt_wordAt]
  have hReg : ∀ (y : Reg) (m : Mode), y ∉ gprs ++ [Reg.pc] → (w.load .svc (wordAt a 4) (gprs ++ [.pc])).get m y = w.get m y :=
    fun y m hy => Cpu.get_load_of_notMem hy
  have hSpsr : (w.load .svc (wordAt a 4) (gprs ++ [.pc])).spsr = w.spsr := Cpu.load_spsr
  simp only [Instr.exec, Cpu.mode, hPsr, Cpu.get, hSp, length_gprs]
  generalize w.load .svc (wordAt a 4) (gprs ++ [.pc]) = u at hLoad hReg hSpsr ⊢
  constructor
  case r =>
    funext i
    have hLt : i.val < (gprs ++ [Reg.pc]).length := Nat.lt_of_lt_of_le i.isLt (by decide)
    have hIs : (gprs ++ [Reg.pc])[i.val] = .r i := by
      fin_cases i <;> rfl
    have hWord := h.frame (4 + i.val) (by omega) (Nat.le_add_right 4 i)
    rw [f.words_r, Option.some_inj] at hWord
    have hGet := hLoad i.val hLt
    rw [hIs] at hGet
    exact hGet.trans hWord.symm
  case sp =>
    have hUsr : u.sp .usr = w.sp .usr := hReg .sp .usr (by decide)
    exact ((Function.update_of_ne hNe' (wordAt (wordAt a 4) 14) u.sp).trans hUsr).trans (h.user (by decide)).1
  case lr =>
    have hUsr : u.lr .usr = w.lr .usr := hReg .lr .usr (by decide)
    exact hUsr.trans (h.user (by decide)).2
  case pc =>
    have hWord := Option.some.inj (h.frame 17 (by decide) (by decide))
    exact (hLoad 13 (by decide)).trans hWord.symm
  case cpsr => exact h.saved (by decide)
  case spSvc =>
    have hEnd : wordAt (wordAt a 4) 14 = wordAt a 18 := wordAt_wordAt
    exact (Function.update_self Mode.svc (wordAt (wordAt a 4) 14) u.sp).trans hEnd
  case lrSvc =>
    have hSvc : u.lr .svc = w.lr .svc := hReg .lr .svc (by decide)
    exact hSvc.trans (h.lr (by decide))
  case spsr => exact (congrFun hSpsr .svc).trans (h.saved (by decide))

/-- `trapret` leaves memory and the stack of IRQ mode alone. -/
theorem trapret_keeps {c : Instr} (hc : c ∈ trapret) (hMode : w.mode = .svc) :
    (Instr.exec w c).mem = w.mem ∧ (Instr.exec w c).sp .irq = w.sp .irq := by
  have hPsr : modeOf w.cpsr = .svc := hMode
  have hSvc : Mode.irq ≠ Mode.svc := by decide
  have hUsr : Mode.irq ≠ Mode.usr := by decide
  simp only [trapret, List.mem_cons, List.not_mem_nil, or_false] at hc
  rcases hc with rfl | rfl | rfl | rfl | rfl | rfl
  · exact ⟨Cpu.load_mem, Cpu.sp_load_of_ne hUsr⟩
  · simp only [Instr.exec, Cpu.next, Cpu.mode, hPsr, Cpu.set_mem, Cpu.sp_set_of_ne hSvc, and_self]
  · simp only [Instr.exec, Cpu.next, Cpu.mode, hPsr, if_true, Cpu.set_mem, Cpu.load_mem, Cpu.sp_set_of_ne hSvc, Cpu.sp_load_of_ne hSvc, and_self]
  · simp only [Instr.exec, Cpu.next, Cpu.mode, hPsr, if_true, Cpu.set_mem, Cpu.load_mem, Cpu.sp_set_of_ne hSvc, Cpu.sp_load_of_ne hSvc, and_self]
  · exact ⟨rfl, rfl⟩
  · simp only [Instr.exec, Cpu.mode, hPsr, Cpu.set_mem, Cpu.load_mem, Cpu.sp_set_of_ne hSvc, Cpu.sp_load_of_ne hSvc, and_self]

theorem Ready.start (h : Ready f a f.spsr 0 w) {i : Nat} (hi : i ≤ 5) : Ready f a f.spsr i (run (trapret.take i) w) ∧
    (run (trapret.take i) w).mem = w.mem ∧ (run (trapret.take i) w).sp .irq = w.sp .irq := by
  induction i with
  | zero => exact ⟨h, rfl, rfl⟩
  | succ i ih =>
    obtain ⟨hReady, hMem, hIrq⟩ := ih (Nat.le_of_succ_le hi)
    have hLt : i < trapret.length := Nat.lt_of_lt_of_le hi (by decide)
    have hNext : run (trapret.take (i + 1)) w = Instr.exec (run (trapret.take i) w) trapret[i] := by
      rw [List.take_succ_eq_append_getElem hLt, run_append]
      rfl
    obtain ⟨hMem', hIrq'⟩ := trapret_keeps (List.getElem_mem hLt) hReady.mode
    rw [hNext]
    exact ⟨hReady.step hi (List.getElem?_eq_getElem hLt), hMem'.trans hMem, hIrq'.trans hIrq⟩

theorem run_trapret (hMode : w.mode = .svc) (hSp : w.sp .svc = a) (hFrame : f.At w.mem a) :
    Returned f a f.spsr (run trapret w) ∧ (run trapret w).mem = w.mem ∧ (run trapret w).sp .irq = w.sp .irq := by
  obtain ⟨hReady, hMem, hIrq⟩ := Ready.start (hFrame.ready hMode hSp) (Nat.le_refl 5)
  have hLast : run trapret w = Instr.exec (run (trapret.take 5) w) (.ldmfdRet .sp (gprs ++ [.pc])) := rfl
  obtain ⟨hMem', hIrq'⟩ := trapret_keeps (List.mem_of_getLast? rfl) hReady.mode
  rw [hLast]
  exact ⟨hReady.ret, hMem'.trans hMem, hIrq'.trans hIrq⟩

end Return

end Xv6Rpi.Trap
