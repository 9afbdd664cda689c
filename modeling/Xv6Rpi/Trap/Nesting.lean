import Xv6Rpi.Trap.Frame

/-! # Interrupts in interrupts

An interrupt can come while a user program runs, and while the kernel runs on the kernel stack of a process and has interrupts on.
The handler runs on the same stack, below the trapframe, and may be interrupted itself.
-/

namespace Xv6Rpi.Trap

open Arm

/-- A kernel stack, the end of the stack of IRQ mode, the memory of the user program, and where the code for traps is. -/
structure Layout where
  bottom : Nat
  top : Nat
  irqTop : Nat
  user : Word → Prop
  irqVector : Word
  irqHandler : Word
  swiVector : Word
  swiHandler : Word
  top_lt : top < 2 ^ 32
  irqTop_lt : irqTop < 2 ^ 32
  irqTop_ge : 16 ≤ irqTop
  apart : irqTop ≤ bottom ∨ top ≤ irqTop - 16
  user_stack : ∀ a, user a → a.toNat < bottom ∨ top ≤ a.toNat
  user_irq : ∀ a, user a → a.toNat < irqTop - 16 ∨ irqTop ≤ a.toNat

namespace Layout

/-- What an interrupt needs of a state of the kernel stack. -/
structure Fits (L : Layout) (s : Cpu) : Prop where
  room : L.bottom + 72 ≤ (s.sp .svc).toNat
  top : (s.sp .svc).toNat ≤ L.top
  irq : (s.sp .irq).toNat = L.irqTop

def taken (L : Layout) (s : Cpu) : Cpu := run (trapIrq L.irqHandler) (s.enter .irq (s.pc + 4) L.irqVector)

def called (L : Layout) (s : Cpu) : Cpu := run (trapSwi L.swiHandler) (s.enter .svc (s.pc + 4) L.swiVector)

end Layout

def frameOf (s : Cpu) : Frame := ⟨s.sp .usr, s.lr .usr, s.lr .svc, s.cpsr, s.r, s.pc⟩

/-- The handler finds the trapframe, and no more of the memory has changed than the trapframe and the words that `trap_irq` uses. -/
structure Trapped (L : Layout) (s s' : Cpu) : Prop where
  mode : s'.mode = .svc
  masked : s'.cpsr &&& psrDisableIrq = psrDisableIrq
  sp : s'.sp .svc = s.sp .svc - 72
  arg : s'.r 0 = s.sp .svc - 72
  irq : s'.sp .irq = s.sp .irq
  pc : s'.pc = L.irqHandler
  frame : (frameOf s).At s'.mem (s.sp .svc - 72)
  mem : ∀ a : Word, a.toNat < (s.sp .svc).toNat - 72 ∨ (s.sp .svc).toNat ≤ a.toNat → a.toNat < L.irqTop - 16 ∨ L.irqTop ≤ a.toNat →
    s'.mem a = s.mem a

section Taken

variable {L : Layout} {s : Cpu} {a : Word} {i n : Nat}

theorem modeOf_toSvc (x : Word) : modeOf (toSvc x) = .svc := by
  have hField : (x &&& ~~~0x1F ||| 0x13) &&& 0x1F = (0x13 : Word) := by
    rw [BitVec.and_or_distrib_right, BitVec.and_assoc]
    have hClear : ~~~(0x1F : Word) &&& 0x1F = 0 := by decide
    have hZero : x &&& (0 : Word) = 0 := BitVec.and_zero
    rw [hClear, hZero]
    rfl
  rw [modeOf, toSvc, psrMask, psrModeSvc, hField]
  rfl

theorem toNat_wordAt (h : a.toNat + 4 * i < 2 ^ 32) : (wordAt a i).toNat = a.toNat + 4 * i := by
  rw [wordAt, BitVec.toNat_add, BitVec.toNat_ofNat, Nat.mod_eq_of_lt (a := 4 * i) (by omega), Nat.mod_eq_of_lt h]

theorem toNat_sub (h : n ≤ a.toNat) : (a - BitVec.ofNat 32 n).toNat = a.toNat - n := by
  have hLt := a.isLt
  rw [BitVec.toNat_sub, BitVec.toNat_ofNat, Nat.mod_eq_of_lt (a := n) (by omega)]
  omega

theorem store_range {l : List Word} {mem : Word → Word} {x : Word} (hFit : a.toNat + 4 * l.length ≤ 2 ^ 32)
    (h : x.toNat < a.toNat ∨ a.toNat + 4 * l.length ≤ x.toNat) : store a l mem x = mem x := by
  refine store_outside fun i hi hEq => ?_
  have hNat := toNat_wordAt (a := a) (i := i) (by omega)
  rw [← hEq] at hNat
  omega

theorem toSvc_masked (x : Word) : toSvc (x ||| 0x80) &&& psrDisableIrq = psrDisableIrq := by
  have hKeep : ~~~(0x1F : Word) &&& 0x80 = 0x80 := by decide
  have hZero : (0x13 : Word) &&& 0x80 = 0 := by decide
  have hOr : (x ||| 0x80) &&& 0x80 = 0x80 := by grind
  rw [toSvc, psrMask, psrModeSvc, psrDisableIrq, BitVec.and_or_distrib_right, BitVec.and_assoc, hKeep, hZero, hOr]
  rfl

/-- What `trap_irq` leaves below r13_irq. -/
def irqWords (s : Cpu) : List Word := [s.r 0, s.r 1, s.r 2, s.pc]

/-- The part of the trapframe that is pushed before these words are read again. -/
def highWords (s : Cpu) : List Word := ((List.finRange 13).drop 3).map s.r ++ [s.pc]

theorem length_irqWords (s : Cpu) : (irqWords s).length = 4 := rfl

theorem Layout.Fits.irq_base (h : L.Fits s) : (s.sp .irq - 16).toNat = L.irqTop - 16 := by
  have hGe := L.irqTop_ge
  rw [← h.irq]
  exact toNat_sub (n := 16) (by rw [h.irq]; exact hGe)

/-- The stack of SVC mode does not reach the words below r13_irq. -/
theorem Layout.Fits.irq_words (h : L.Fits s) {i : Nat} (hi : i < 4) :
    store (s.sp .svc - 44) (highWords s) (store (s.sp .irq - 16) (irqWords s) s.mem) (wordAt (s.sp .irq - 16) i) = (irqWords s)[i] := by
  have hRoom := h.room
  have hTop := h.top
  have hGe := L.irqTop_ge
  have hLt := L.irqTop_lt
  have hTopLt := L.top_lt
  have hApart := L.apart
  have hBase := h.irq_base
  have hEnd : (s.sp .svc - 44).toNat = (s.sp .svc).toNat - 44 := toNat_sub (n := 44) (by omega)
  have hAt := toNat_wordAt (a := s.sp .irq - 16) (i := i) (by omega)
  have hLen : (highWords s).length = 11 := rfl
  rw [store_range (by rw [hLen]; omega) (by rw [hLen]; omega)]
  exact store_at (by rw [length_irqWords]; decide) hi

theorem Layout.Fits.taken_eq (h : L.Fits s) : ∃ r lr, L.taken s = { s.enter .irq (s.pc + 4) L.irqVector with
    r := Function.update r 0 (s.sp .svc - 72)
    sp := Function.update s.sp .svc (s.sp .svc - 72)
    lr := lr
    pc := L.irqHandler
    cpsr := toSvc (s.enter .irq (s.pc + 4) L.irqVector).cpsr
    mem := store (s.sp .svc - 72) (frameOf s).words (store (s.sp .irq - 16) (irqWords s) s.mem) } := by
  let s₀ : Cpu := s.enter .irq (s.pc + 4) L.irqVector
  have hBack : s.pc + 4 - 4 = s.pc := by bv_omega
  have hSave := run_trapIrqSave (s := s₀) (modeOf_enter s.cpsr .irq (by decide))
  have hSaved : store (s₀.sp .irq - 16) [s₀.r 0, s₀.r 1, s₀.r 2, s₀.lr .irq - 4] s₀.mem = store (s.sp .irq - 16) (irqWords s) s.mem := by
    change store (s.sp .irq - 16) [s.r 0, s.r 1, s.r 2, s.pc + 4 - 4] s.mem = _
    rw [hBack]
    rfl
  rw [hSaved] at hSave
  set s₁ := run trapIrqSave s₀
  have hMode₁ : s₁.mode = .svc := by
    rw [hSave]
    exact modeOf_toSvc _
  have hr₁ : s₁.r 0 = s.sp .irq - 16 := by
    rw [hSave]
    rfl
  have hMem₁ : s₁.mem = store (s.sp .irq - 16) (irqWords s) s.mem := by rw [hSave]
  have hSp₁ : s₁.sp = s.sp := by
    rw [hSave]
    rfl
  have hPc : s₁.mem (s.sp .irq - 16 + 12) = s.pc := by
    have hLast : 3 < (irqWords s).length := Nat.lt_succ_self 3
    rw [hMem₁]
    exact store_at (by rw [length_irqWords]; decide) hLast
  have hHigh := run_trapIrqHigh hMode₁ hr₁ hPc
  have hRest : ((List.finRange 13).drop 3).map s₁.r ++ [s.pc] = highWords s := by
    rw [hSave]
    rfl
  rw [hRest, hMem₁, hSp₁] at hHigh
  set s₂ := run trapIrqHigh s₁
  have hMode₂ : s₂.mode = .svc := by
    rw [hHigh]
    exact hMode₁
  have hr₂ : s₂.r 0 = s.sp .irq - 16 := by
    rw [hHigh]
    exact (Function.update_of_ne (show (0 : Fin 13) ≠ 2 by decide) s.pc s₁.r).trans hr₁
  have hWord : ∀ i (hi : i < 4), s₂.mem (wordAt (s.sp .irq - 16) i) = (irqWords s)[i] := fun i hi => by
    rw [hHigh]
    exact h.irq_words hi
  have hFirst : s₂.mem (s.sp .irq - 16) = s.r 0 := by
    have hZero := hWord 0 (by decide)
    rwa [wordAt_zero] at hZero
  have hSecond : s₂.mem (s.sp .irq - 16 + 4) = s.r 1 := hWord 1 (by decide)
  have hThird : s₂.mem (s.sp .irq - 16 + 8) = s.r 2 := hWord 2 (by decide)
  have hSp₂ : s₂.sp .svc = s.sp .svc - 44 := by
    rw [hHigh]
    exact Function.update_self Mode.svc (s.sp .svc - 44) s.sp
  have hMem₂ : s₂.mem = store (s₂.sp .svc) (highWords s) (store (s.sp .irq - 16) (irqWords s) s.mem) := by
    rw [hSp₂, hHigh]
  have hLow := run_trapIrqLow L.irqHandler hMode₂ hr₂ hFirst hSecond hThird hMem₂
  have hBase : s.sp .svc - 44 - 28 = s.sp .svc - 72 := by bv_omega
  have hWords : [s₂.sp .usr, s₂.lr .usr, s₂.lr .svc, s₂.r 1] ++ ([s.r 0, s.r 1, s.r 2] ++ highWords s) = (frameOf s).words := by
    rw [hHigh, hSave]
    rfl
  rw [hSp₂, hBase, hWords] at hLow
  have hTaken : L.taken s = run (trapIrqLow L.irqHandler) s₂ := by
    rw [Layout.taken, trapIrq, run_append, run_append]
  have hSp : Function.update s₂.sp .svc (s.sp .svc - 72) = Function.update s.sp .svc (s.sp .svc - 72) := by
    rw [hHigh]
    exact Function.update_idem ..
  have hCpsr : s₂.cpsr = toSvc s₀.cpsr := by
    rw [hHigh, hSave]
  have hSpsr : s₂.spsr = s₀.spsr := by
    rw [hHigh, hSave]
  rw [hTaken, hLow, hSp, hCpsr, hSpsr]
  exact ⟨_, _, rfl⟩

theorem Layout.Fits.trapped (h : L.Fits s) : Trapped L s (L.taken s) := by
  obtain ⟨r, lr, hTaken⟩ := h.taken_eq
  rw [hTaken]
  constructor
  case mode => exact modeOf_toSvc _
  case masked => exact toSvc_masked _
  case sp => exact Function.update_self Mode.svc (s.sp .svc - 72) s.sp
  case arg => rfl
  case irq => rfl
  case pc => rfl
  case frame => exact (frameOf s).at_store _ _
  case mem =>
    intro a hStack hIrq
    have hRoom := h.room
    have hTop := h.top
    have hTopLt := L.top_lt
    have hGe := L.irqTop_ge
    have hLt := L.irqTop_lt
    have hBase := h.irq_base
    have hLen := (frameOf s).length_words
    have hFour := length_irqWords s
    have hNat : (s.sp .svc - 72).toNat = (s.sp .svc).toNat - 72 := toNat_sub (n := 72) (by omega)
    exact (store_range (by omega) (by omega)).trans (store_range (by omega) (by omega))

end Taken

/-! ## Kernel code -/

def Masked (s : Cpu) : Prop := s.cpsr &&& psrDisableIrq = psrDisableIrq

/-- Code of the kernel that is not interrupted. It keeps what is on the stack from `b` on, and only system calls write to the
memory of the user program. -/
structure CodeStep (L : Layout) (call : Bool) (b : Nat) (s s' : Cpu) : Prop where
  mode : s'.mode = .svc
  irq : s'.sp .irq = s.sp .irq
  low : L.bottom ≤ (s'.sp .svc).toNat
  high : (s'.sp .svc).toNat ≤ b
  stack : ∀ a : Word, b ≤ a.toNat → a.toNat < L.top → s'.mem a = s.mem a
  user : call = false → ∀ a, L.user a → s'.mem a = s.mem a

/-- Code of the kernel with the interrupts that come. It is for a system call if `call`, and the stack from `b` on is not its own. -/
inductive Kernel (L : Layout) : Bool → Nat → Cpu → Cpu → Prop
  | start (call : Bool) (b : Nat) (s : Cpu) : Kernel L call b s s
  | code {call : Bool} {b : Nat} {s s₁ s₂ : Cpu} : Kernel L call b s s₁ → CodeStep L call b s₁ s₂ → Kernel L call b s s₂
  -- the handler runs below what is on the stack, and returns with interrupts off
  | irq {call : Bool} {b : Nat} {s s₁ s₂ : Cpu} : Kernel L call b s s₁ → ¬Masked s₁ → L.Fits s₁ →
      Kernel L false ((s₁.sp .svc).toNat - 72) (L.taken s₁) s₂ → s₂.sp .svc = s₁.sp .svc - 72 → Masked s₂ →
      Kernel L call b s (run trapret s₂)

structure Keeps (L : Layout) (call : Bool) (b : Nat) (s s' : Cpu) : Prop where
  mode : s'.mode = .svc
  irq : s'.sp .irq = s.sp .irq
  high : (s'.sp .svc).toNat ≤ b
  stack : ∀ a : Word, b ≤ a.toNat → a.toNat < L.top → s'.mem a = s.mem a
  user : call = false → ∀ a, L.user a → s'.mem a = s.mem a

/-- A program, or the kernel, goes on after an interrupt as if there had been none, but the saved status of SVC mode is lost. -/
structure Resumed (L : Layout) (s s' : Cpu) : Prop where
  r : s'.r = s.r
  spUsr : s'.sp .usr = s.sp .usr
  lrUsr : s'.lr .usr = s.lr .usr
  spSvc : s'.sp .svc = s.sp .svc
  lrSvc : s'.lr .svc = s.lr .svc
  irq : s'.sp .irq = s.sp .irq
  pc : s'.pc = s.pc
  cpsr : s'.cpsr = s.cpsr
  spsr : s'.spsr .svc = s.cpsr
  stack : ∀ a : Word, (s.sp .svc).toNat ≤ a.toNat → a.toNat < L.top → s'.mem a = s.mem a
  user : ∀ a, L.user a → s'.mem a = s.mem a

section Kept

variable {L : Layout} {call : Bool} {b : Nat} {s s₁ s₂ : Cpu} {a : Word}

theorem Layout.taken_stack (h : L.Fits s) (hLow : (s.sp .svc).toNat ≤ a.toNat) (hTop : a.toNat < L.top) : (L.taken s).mem a = s.mem a := by
  have hApart := L.apart
  have hRoom := h.room
  exact h.trapped.mem a (.inr hLow) (by omega)

theorem Layout.taken_user (h : L.Fits s) (hUser : L.user a) : (L.taken s).mem a = s.mem a := by
  have hRoom := h.room
  have hTop := h.top
  have hStack := L.user_stack a hUser
  exact h.trapped.mem a (by omega) (L.user_irq a hUser)

theorem Keeps.resumed (hFits : L.Fits s) (h : Keeps L false ((s.sp .svc).toNat - 72) (L.taken s) s₂)
    (hSp : s₂.sp .svc = s.sp .svc - 72) : Resumed L s (run trapret s₂) := by
  have hTrapped := hFits.trapped
  have hRoom := hFits.room
  have hTop := hFits.top
  have hTopLt := L.top_lt
  have hNat : (s.sp .svc - 72).toNat = (s.sp .svc).toNat - 72 := toNat_sub (n := 72) (by omega)
  have hFrame : (frameOf s).At s₂.mem (s.sp .svc - 72) := hTrapped.frame.congr fun i hi => by
    have hAt := toNat_wordAt (a := s.sp .svc - 72) (i := i) (by omega)
    exact h.stack _ (by omega) (by omega)
  obtain ⟨hReturned, hMem, hIrq⟩ := run_trapret h.mode hSp hFrame
  have hEnd : wordAt (s.sp .svc - 72) 18 = s.sp .svc := by
    rw [wordAt]
    bv_omega
  constructor
  case r => exact hReturned.r
  case spUsr => exact hReturned.sp
  case lrUsr => exact hReturned.lr
  case spSvc => exact hReturned.spSvc.trans hEnd
  case lrSvc => exact hReturned.lrSvc
  case irq => rw [hIrq, h.irq, hTrapped.irq]
  case pc => exact hReturned.pc
  case cpsr => exact hReturned.cpsr
  case spsr => exact hReturned.spsr
  case stack =>
    intro a hLow hLt
    rw [hMem, h.stack a (by omega) hLt, Layout.taken_stack hFits hLow hLt]
  case user =>
    intro a hUser
    rw [hMem, h.user rfl a hUser, Layout.taken_user hFits hUser]

theorem Layout.Fits.keeps (h : L.Fits s) : Keeps L false ((s.sp .svc).toNat - 72) (L.taken s) (L.taken s) where
  mode := h.trapped.mode
  irq := rfl
  high := by
    have hRoom := h.room
    rw [h.trapped.sp]
    exact Nat.le_of_eq (toNat_sub (n := 72) (by omega))
  stack _ _ _ := rfl
  user _ _ _ := rfl

theorem Kernel.keeps (h : Kernel L call b s s₁) (hStart : Keeps L call b s s) : Keeps L call b s s₁ := by
  induction h with
  | start call b s => exact hStart
  | @code call b s s₁ s₂ _ hCode ih =>
    have hKeeps := ih hStart
    constructor
    case mode => exact hCode.mode
    case irq => exact hCode.irq.trans hKeeps.irq
    case high => exact hCode.high
    case stack => exact fun a hLow hTop => (hCode.stack a hLow hTop).trans (hKeeps.stack a hLow hTop)
    case user => exact fun hCall a hUser => (hCode.user hCall a hUser).trans (hKeeps.user hCall a hUser)
  | @irq call b s s₁ s₂ _ _ hFits _ hSp _ ih ihHandler =>
    have hKeeps := ih hStart
    have hResumed := (ihHandler hFits.keeps).resumed hFits hSp
    have hHigh := hKeeps.high
    constructor
    case mode => exact (congrArg modeOf hResumed.cpsr).trans hKeeps.mode
    case irq => exact hResumed.irq.trans hKeeps.irq
    case high =>
      rw [hResumed.spSvc]
      exact hHigh
    case stack =>
      exact fun a hLow hTop => (hResumed.stack a (Nat.le_trans hHigh hLow) hTop).trans (hKeeps.stack a hLow hTop)
    case user => exact fun hCall a hUser => (hResumed.user a hUser).trans (hKeeps.user hCall a hUser)

theorem Kernel.resumed (hFits : L.Fits s) (h : Kernel L false ((s.sp .svc).toNat - 72) (L.taken s) s₂)
    (hSp : s₂.sp .svc = s.sp .svc - 72) : Resumed L s (run trapret s₂) := (h.keeps hFits.keeps).resumed hFits hSp

end Kept

end Xv6Rpi.Trap
