import Xv6Rpi.Trap.Nesting

/-! # What a program sees of traps

A program executes instructions and makes system calls. Interrupts come in between, and while the kernel is at work, and the
program computes what it computes on a processor that has none.
-/

namespace Xv6Rpi.Trap

open Arm

structure View (L : Layout) where
  r : Fin 13 → Word
  sp : Word
  lr : Word
  pc : Word
  cpsr : Word
  mem : {a // L.user a} → Word

def view (L : Layout) (s : Cpu) : View L := ⟨s.r, s.sp .usr, s.lr .usr, s.pc, s.cpsr, fun a => s.mem a.val⟩

inductive Label (L : Layout) where
  | instr
  | call (ret : Word) (mem : {a // L.user a} → Word)
  | exec (argc argv entry sp : Word) (mem : {a // L.user a} → Word)

/-- A processor without interrupts, where a system call is one step. -/
def Label.next {L : Layout} (instr : View L → View L) (v : View L) : Label L → View L
  | .instr => instr v
  | .call ret mem => { v with r := Function.update v.r 0 ret, pc := v.pc + 4, mem := mem }
  | .exec argc argv entry sp mem =>
    { v with r := Function.update (Function.update v.r 0 argc) 1 argv, sp := sp, pc := entry, mem := mem }

/-- What the kernel writes to the trapframe: `syscall` sets r0, and `exec` sets what its new program starts with. -/
def Label.edit {L : Layout} (f : Frame) : Label L → Frame
  | .instr => f
  | .call ret _ => { f with r := Function.update f.r 0 ret }
  | .exec argc argv entry sp _ => { f with r := Function.update (Function.update f.r 0 argc) 1 argv, pc := entry, spUsr := sp }

def Label.mem {L : Layout} : Label L → Option ({a // L.user a} → Word)
  | .instr => none
  | .call _ mem => some mem
  | .exec _ _ _ _ mem => some mem

def callFrame (s : Cpu) : Frame := ⟨s.sp .usr, s.lr .usr, s.pc + 4, s.cpsr, s.r, s.pc + 4⟩

/-- An instruction of a user program has no access to the registers of other modes. -/
structure UserStep (L : Layout) (instr : View L → View L) (s s' : Cpu) : Prop where
  view : view L s' = instr (view L s)
  mode : s'.mode = .usr
  svc : s'.sp .svc = s.sp .svc
  irq : s'.sp .irq = s.sp .irq

inductive UserRun (L : Layout) (instr : View L → View L) : List (Label L) → Cpu → Cpu → Prop
  | start (s : Cpu) : UserRun L instr [] s s
  | instr {l : List (Label L)} {s s₁ s₂ : Cpu} : UserRun L instr l s s₁ → UserStep L instr s₁ s₂ → UserRun L instr (l ++ [.instr]) s s₂
  | irq {l : List (Label L)} {s s₁ s₂ : Cpu} : UserRun L instr l s s₁ → ¬Masked s₁ →
      Kernel L false ((s₁.sp .svc).toNat - 72) (L.taken s₁) s₂ → s₂.sp .svc = s₁.sp .svc - 72 → Masked s₂ →
      UserRun L instr l s (run trapret s₂)
  | swi {l : List (Label L)} {s s₁ s₂ s₃ : Cpu} {c : Label L} : UserRun L instr l s s₁ →
      Kernel L true ((s₁.sp .svc).toNat - 72) (L.called s₁) s₂ →
      Kernel L true ((s₁.sp .svc).toNat - 72)
        { s₂ with mem := store (s₁.sp .svc - 72) (c.edit (callFrame s₁)).words s₂.mem } s₃ →
      c.mem = some (view L s₃).mem → s₃.sp .svc = s₁.sp .svc - 72 → Masked s₃ → UserRun L instr (l ++ [c]) s (run trapret s₃)

section Calls

variable {L : Layout} {s s₁ s₂ s₃ : Cpu} {c : Label L}

theorem modeOf_enterSvc (x : Word) : modeOf (x &&& ~~~0x1F ||| Mode.bits .svc ||| 0x80) = .svc := modeOf_enter x .svc (by decide)

theorem Layout.called_eq (s : Cpu) : L.called s = { s.enter .svc (s.pc + 4) L.swiVector with
    r := Function.update (Function.update s.r 2 s.cpsr) 0 (s.sp .svc - 72)
    sp := Function.update s.sp .svc (s.sp .svc - 72)
    lr := Function.update s.lr .svc (L.swiVector + 32)
    pc := L.swiHandler
    mem := store (s.sp .svc - 72) (callFrame s).words s.mem } := by
  have hRun := run_trapSwi (s := s.enter .svc (s.pc + 4) L.swiVector) (modeOf_enterSvc s.cpsr) L.swiHandler
  have hFrame : swiFrame (s.enter .svc (s.pc + 4) L.swiVector) = callFrame s := rfl
  rw [hFrame] at hRun
  rw [Layout.called, hRun]
  have hSpsr : (s.enter .svc (s.pc + 4) L.swiVector).spsr .svc = s.cpsr := rfl
  have hLr : Function.update (s.enter .svc (s.pc + 4) L.swiVector).lr .svc (L.swiVector + 32) =
      Function.update s.lr .svc (L.swiVector + 32) := Function.update_idem ..
  rw [hSpsr]
  exact congrArg (fun lr => { s.enter .svc (s.pc + 4) L.swiVector with
    r := Function.update (Function.update s.r 2 s.cpsr) 0 (s.sp .svc - 72)
    sp := Function.update s.sp .svc (s.sp .svc - 72)
    lr := lr
    pc := L.swiHandler
    mem := store (s.sp .svc - 72) (callFrame s).words s.mem }) hLr

theorem Layout.called_svc (s : Cpu) : (L.called s).sp .svc = s.sp .svc - 72 := by
  rw [Layout.called_eq]
  exact Function.update_self Mode.svc (s.sp .svc - 72) s.sp

theorem Layout.called_irq (s : Cpu) : (L.called s).sp .irq = s.sp .irq := by
  rw [Layout.called_eq]
  rfl

theorem called_returns (hFits : L.Fits s) (h₂ : Kernel L true ((s.sp .svc).toNat - 72) (L.called s) s₂)
    (h₃ : Kernel L true ((s.sp .svc).toNat - 72) { s₂ with mem := store (s.sp .svc - 72) (c.edit (callFrame s)).words s₂.mem } s₃)
    (hSp : s₃.sp .svc = s.sp .svc - 72) : Returned (c.edit (callFrame s)) (s.sp .svc - 72) (c.edit (callFrame s)).spsr (run trapret s₃) ∧
      (run trapret s₃).mem = s₃.mem ∧ (run trapret s₃).sp .irq = s.sp .irq := by
  have hRoom := hFits.room
  have hTop := hFits.top
  have hTopLt := L.top_lt
  have hNat : (s.sp .svc - 72).toNat = (s.sp .svc).toNat - 72 := toNat_sub (n := 72) (by omega)
  have hStart : Keeps L true ((s.sp .svc).toNat - 72) (L.called s) (L.called s) := by
    constructor
    case mode =>
      rw [Layout.called_eq]
      exact modeOf_enterSvc s.cpsr
    case irq => rfl
    case high =>
      rw [Layout.called_svc]
      exact Nat.le_of_eq hNat
    case stack => exact fun a _ _ => rfl
    case user => exact fun _ a _ => rfl
  have hKeeps₂ := h₂.keeps hStart
  have hAgain : Keeps L true ((s.sp .svc).toNat - 72) { s₂ with mem := store (s.sp .svc - 72) (c.edit (callFrame s)).words s₂.mem }
      { s₂ with mem := store (s.sp .svc - 72) (c.edit (callFrame s)).words s₂.mem } := by
    constructor
    case mode => exact hKeeps₂.mode
    case irq => rfl
    case high => exact hKeeps₂.high
    case stack => exact fun a _ _ => rfl
    case user => exact fun _ a _ => rfl
  have hKeeps₃ := h₃.keeps hAgain
  have hFrame : (c.edit (callFrame s)).At s₃.mem (s.sp .svc - 72) :=
    ((c.edit (callFrame s)).at_store (s.sp .svc - 72) s₂.mem).congr fun i hi => by
      have hAt := toNat_wordAt (a := s.sp .svc - 72) (i := i) (by omega)
      exact hKeeps₃.stack _ (by omega) (by omega)
  obtain ⟨hReturned, hMem, hIrq⟩ := run_trapret hKeeps₃.mode hSp hFrame
  exact ⟨hReturned, hMem, by rw [hIrq, hKeeps₃.irq, ← Layout.called_irq (L := L) s, ← hKeeps₂.irq]⟩

end Calls

section Programs

variable {L : Layout} {instr : View L → View L} {l : List (Label L)} {s s' : Cpu}

theorem Resumed.view (h : Resumed L s s') : view L s' = view L s := by
  have hMem : (fun a : {a // L.user a} => s'.mem a.val) = fun a => s.mem a.val := funext fun a => h.user a.val a.property
  rw [Trap.view, Trap.view, h.r, h.spUsr, h.lrUsr, h.pc, h.cpsr, hMem]

theorem Returned.view {f : Frame} {a x : Word} (h : Returned f a x s) (hMem : s.mem = s'.mem) :
    view L s = ⟨f.r, f.spUsr, f.lrUsr, f.pc, x, (view L s').mem⟩ := by
  rw [Trap.view, Trap.view, h.r, h.sp, h.lr, h.pc, h.cpsr, hMem]

def onePage : Layout where
  bottom := 0x1000
  top := 0x2000
  irqTop := 0x3000
  user := fun a => 0x4000 ≤ a.toNat ∧ a.toNat < 0x5000
  irqVector := 0x18
  irqHandler := 0x100
  swiVector := 0x8
  swiHandler := 0x200
  top_lt := by decide
  irqTop_lt := by decide
  irqTop_ge := by decide
  apart := .inr (by decide)
  user_stack a h := .inr (Nat.le_trans (by decide) h.1)
  user_irq a h := .inr (Nat.le_trans (by decide) h.1)

def firstInstr : Cpu where
  r _ := 0
  sp
    | .svc => 0x2000
    | .irq => 0x3000
    | _ => 0x5000
  lr _ := 0
  pc := 0x4000
  cpsr := 0x10
  spsr _ := 0
  mem _ := 0

theorem firstInstr_fits : onePage.Fits firstInstr := ⟨by decide, by decide, by decide⟩

theorem firstInstr_unmasked : ¬Masked firstInstr := by
  rw [Masked]
  decide

theorem CodeStep.status {call : Bool} {b : Nat} {x : Word} (hMode : modeOf x = .svc) (hLow : L.bottom ≤ (s.sp .svc).toNat)
    (hHigh : (s.sp .svc).toNat ≤ b) : CodeStep L call b s { s with cpsr := x } := by
  constructor
  case mode => exact hMode
  case irq => rfl
  case low => exact hLow
  case high => exact hHigh
  case stack => exact fun _ _ _ => rfl
  case user => exact fun _ _ _ => rfl

def interrupted : Cpu := run trapret (onePage.taken firstInstr)

def inCall : Cpu := { onePage.called interrupted with cpsr := psrModeSvc }

theorem inCall_unmasked : ¬Masked inCall := by
  rw [Masked, inCall]
  decide

/-- The kernel after an interrupt, when it has set the result of the call. -/
def answered : Cpu :=
  let s : Cpu := run trapret (onePage.taken inCall)
  let f : Frame := { callFrame interrupted with r := Function.update (callFrame interrupted).r 0 7 }
  { s with mem := store (interrupted.sp .svc - 72) f.words s.mem }

/-- The kernel before it returns, with interrupts off. -/
def leaving : Cpu := { answered with cpsr := psrModeSvc ||| psrDisableIrq }

theorem leaving_masked : Masked leaving := by
  rw [Masked, leaving]
  decide

end Programs

end Xv6Rpi.Trap
