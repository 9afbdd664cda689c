import Xv6Rpi.Trap.Programs

/-! # The return with interrupts on

`forkret` runs with the interrupts on that the scheduler has turned on, and so does the `trapret` after it: an interrupt can come
between any two instructions of it. The return of the interrupt writes its own status to spsr_svc.
-/

namespace Xv6Rpi.Trap

open Arm

/-- The first `i` instructions of `trapret`, with the number of instructions that had been executed when an interrupt came. -/
inductive Exits (L : Layout) : Nat → List Nat → Cpu → Cpu → Prop
  | start (w : Cpu) : Exits L 0 [] w w
  | instr {i : Nat} {l : List Nat} {w s : Cpu} {c : Instr} : Exits L i l w s → i < 5 → trapret[i]? = some c →
      Exits L (i + 1) l w (Instr.exec s c)
  | irq {i : Nat} {l : List Nat} {w s s₂ : Cpu} : Exits L i l w s → ¬Masked s →
      Kernel L false ((s.sp .svc).toNat - 72) (L.taken s) s₂ → s₂.sp .svc = s.sp .svc - 72 → Masked s₂ →
      Exits L i (i :: l) w (run trapret s₂)

section Window

variable {L : Layout} {f : Frame} {a : Word} {i : Nat} {l : List Nat} {w s s' : Cpu}

/-- The kernel is about to return to a program, with the trapframe at r13. -/
structure Leaving (L : Layout) (f : Frame) (w : Cpu) : Prop where
  frame : f.At w.mem (w.sp .svc)
  mode : w.mode = .svc
  room : L.bottom + 72 ≤ (w.sp .svc).toNat
  top : (w.sp .svc).toNat + 72 ≤ L.top
  irq : (w.sp .irq).toNat = L.irqTop
  user : modeOf f.spsr = .usr

def lastStatus (f : Frame) (w : Cpu) (l : List Nat) : Word := if 5 ∈ l then w.cpsr else f.spsr

theorem popped_le (i : Nat) : popped i ≤ 4 := by
  rw [popped.eq_def]
  split <;> decide

theorem Ready.resumed {x : Word} (h : Ready f a x i s) (hTop : a.toNat + 72 ≤ L.top) (hResumed : Resumed L s s') :
    Ready f a s.cpsr i s' := by
  have hSp := h.sp
  have hPopped := popped_le i
  have hTopLt := L.top_lt
  have hAt := toNat_wordAt (a := a) (i := popped i) (by omega)
  constructor
  case mode => exact (congrArg modeOf hResumed.cpsr).trans h.mode
  case sp => exact hResumed.spSvc.trans hSp
  case frame =>
    intro k hk hLe
    have hWord := toNat_wordAt (a := a) (i := k) (by omega)
    rw [hResumed.stack (wordAt a k) (by rw [hSp]; omega) (by omega)]
    exact h.frame k hk hLe
  case user =>
    intro hi
    obtain ⟨hUsr, hLr⟩ := h.user hi
    exact ⟨hResumed.spUsr.trans hUsr, hResumed.lrUsr.trans hLr⟩
  case lr => exact fun hi => hResumed.lrSvc.trans (h.lr hi)
  case scratch => exact fun hi => (congrFun hResumed.r 2).trans (h.scratch hi)
  case saved => exact fun _ => hResumed.spsr

/-- What `trapret` has done after `i` instructions, whatever interrupts have come. -/
structure Exiting (L : Layout) (f : Frame) (i : Nat) (l : List Nat) (w s : Cpu) : Prop where
  ready : Ready f (w.sp .svc) (lastStatus f w l) i s
  le : i ≤ 5
  points : ∀ k ∈ l, k ≤ i
  cpsr : s.cpsr = w.cpsr
  irq : s.sp .irq = w.sp .irq
  user : ∀ b, L.user b → s.mem b = w.mem b

theorem exec_cpsr (hMode : s.mode = .svc) (hi : i < 5) {c : Instr} (hc : trapret[i]? = some c) : (Instr.exec s c).cpsr = s.cpsr := by
  have hPsr : modeOf s.cpsr = .svc := hMode
  obtain rfl | rfl | rfl | rfl | rfl : i = 0 ∨ i = 1 ∨ i = 2 ∨ i = 3 ∨ i = 4 := by omega
  · cases hc
    exact Cpu.load_cpsr
  · cases hc
    rfl
  · cases hc
    simp only [Instr.exec, Cpu.next, if_true, Cpu.set_cpsr, Cpu.load_cpsr]
  · cases hc
    simp only [Instr.exec, Cpu.next, if_true, Cpu.set_cpsr, Cpu.load_cpsr]
  · cases hc
    rfl

theorem Exiting.fits (h : Exiting L f i l w s) (hLeaving : Leaving L f w) : L.Fits s := by
  have hPopped := popped_le i
  have hRoom := hLeaving.room
  have hTop := hLeaving.top
  have hTopLt := L.top_lt
  have hAt := toNat_wordAt (a := w.sp .svc) (i := popped i) (by omega)
  constructor
  case room =>
    rw [h.ready.sp]
    omega
  case top =>
    rw [h.ready.sp]
    omega
  case irq =>
    rw [h.irq]
    exact hLeaving.irq

/-- By induction on the instructions and the interrupts. The frame from r13 on is still there after an interrupt. -/
theorem Exits.exiting (h : Exits L i l w s) (hLeaving : Leaving L f w) : Exiting L f i l w s := by
  induction h with
  | start w =>
    constructor
    case ready => exact hLeaving.frame.ready hLeaving.mode rfl
    case le => exact Nat.zero_le 5
    case points => exact fun k hk => absurd hk List.not_mem_nil
    case cpsr => rfl
    case irq => rfl
    case user => exact fun b _ => rfl
  | @instr i l w s c _ hi hc ih =>
    have hExiting := ih hLeaving
    have hReady := hExiting.ready
    obtain ⟨hMem, hSame⟩ := trapret_keeps (List.mem_of_getElem? hc) hReady.mode
    have hNot : 5 ∉ l := fun h5 => by
      have hLe := hExiting.points 5 h5
      omega
    constructor
    case ready =>
      rw [lastStatus, if_neg hNot]
      exact hReady.step hi hc
    case le => exact hi
    case points => exact fun k hk => Nat.le_succ_of_le (hExiting.points k hk)
    case cpsr => exact (exec_cpsr hReady.mode hi hc).trans hExiting.cpsr
    case irq => exact hSame.trans hExiting.irq
    case user => exact fun b hb => (congrFun hMem b).trans (hExiting.user b hb)
  | @irq i l w s s₂ _ _ hKernel hBack _ ih =>
    have hExiting := ih hLeaving
    have hReady := hExiting.ready
    have hFits := hExiting.fits hLeaving
    have hResumed := hKernel.resumed hFits hBack
    have hAgain := hReady.resumed hLeaving.top hResumed
    constructor
    case ready =>
      have hStatus : 5 ≤ i → s.cpsr = lastStatus f w (i :: l) := fun hi => by
        have hLast : 5 ∈ i :: l := List.mem_cons.mpr (.inl (Nat.le_antisymm hi hExiting.le))
        rw [lastStatus, if_pos hLast]
        exact hExiting.cpsr
      exact { hAgain with saved := fun hi => (hAgain.saved hi).trans (hStatus hi) }
    case le => exact hExiting.le
    case points =>
      intro k hk
      rcases List.mem_cons.mp hk with rfl | hk
      · exact Nat.le_refl k
      · exact hExiting.points k hk
    case cpsr => exact hResumed.cpsr.trans hExiting.cpsr
    case irq => exact hResumed.irq.trans hExiting.irq
    case user => exact fun b hb => (hResumed.user b hb).trans (hExiting.user b hb)

/-- The program goes on with its registers and its memory, but in SVC mode when an interrupt has come right before the last
instruction. -/
theorem trapret_window (h : Exits L 5 l w s) (hLeaving : Leaving L f w) :
    view L (Instr.exec s (.ldmfdRet .sp (gprs ++ [.pc]))) = ⟨f.r, f.spUsr, f.lrUsr, f.pc, lastStatus f w l, (view L w).mem⟩ ∧
      ((Instr.exec s (.ldmfdRet .sp (gprs ++ [.pc]))).mode = .usr ↔ 5 ∉ l) := by
  have hExiting := h.exiting hLeaving
  have hReturned := hExiting.ready.ret
  obtain ⟨hMem, _⟩ := trapret_keeps (List.mem_of_getLast? rfl) hExiting.ready.mode
  have hUser : (view L (Instr.exec s (.ldmfdRet .sp (gprs ++ [.pc])))).mem = (view L w).mem :=
    funext fun b => (congrFun hMem b.val).trans (hExiting.user b.val b.property)
  have hView := hReturned.view (L := L) rfl
  rw [hUser] at hView
  refine ⟨hView, ?_⟩
  have hMode : (Instr.exec s (.ldmfdRet .sp (gprs ++ [.pc]))).mode = modeOf (lastStatus f w l) := congrArg modeOf hReturned.cpsr
  rw [hMode, lastStatus]
  by_cases h5 : 5 ∈ l
  · rw [if_pos h5]
    have hSvc : modeOf w.cpsr = .svc := hLeaving.mode
    rw [hSvc]
    exact ⟨fun hEq => absurd hEq (by decide), fun hNot => absurd h5 hNot⟩
  · rw [if_neg h5]
    exact ⟨fun _ => h5, fun _ => hLeaving.user⟩

def firstReturn : Cpu := { firstInstr with
  sp := Function.update firstInstr.sp .svc 0x1800
  cpsr := 0x13
  mem := store 0x1800 (callFrame firstInstr).words firstInstr.mem }

theorem firstReturn_leaving : Leaving onePage (callFrame firstInstr) firstReturn where
  frame := (callFrame firstInstr).at_store 0x1800 firstInstr.mem
  mode := by decide
  room := by decide
  top := by decide
  irq := by decide
  user := by decide

theorem trapret_window_last : ∃ s, Exits onePage 5 [5] firstReturn s ∧ (Instr.exec s (.ldmfdRet .sp (gprs ++ [.pc]))).mode ≠ .usr := by
  obtain ⟨s, hExits⟩ : ∃ s, Exits onePage 5 [] firstReturn s :=
    ⟨_, .instr (.instr (.instr (.instr (.instr (.start firstReturn) (by decide) rfl) (by decide) rfl) (by decide) rfl) (by decide) rfl)
      (by decide) rfl⟩
  have hExiting := hExits.exiting firstReturn_leaving
  have hFits := hExiting.fits firstReturn_leaving
  have hMasked : ¬Masked s := by
    rw [Masked, hExiting.cpsr]
    decide
  have hIrq := Exits.irq hExits hMasked (.start ..) hFits.trapped.sp hFits.trapped.masked
  obtain ⟨_, hMode⟩ := trapret_window hIrq firstReturn_leaving
  exact ⟨_, hIrq, fun hUsr => hMode.mp hUsr (List.mem_singleton.mpr rfl)⟩

end Window

end Xv6Rpi.Trap
