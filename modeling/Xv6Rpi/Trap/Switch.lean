import Xv6Rpi.Trap.Return

/-! # The switch between threads

`swtch` saves the registers that a call keeps on the stack of the thread that calls it, and takes those of another thread. The
processes and the scheduler of a processor are such threads, each with its own stack and with a word that says where its context is.
-/

namespace Xv6Rpi.Trap

open Arm

def context : List Reg := gprs.drop 4 ++ [.lr]

def swtch : List Instr := [
  .stmfd .sp true context,
  .str .sp (.r 0) 0,
  .mov .sp (.r 1),
  .ldmfd .sp true context,
  .bx .lr]

def saveContext (s : Cpu) : Word → Word :=
  Function.update (store (s.sp .svc - 40) (context.map (s.get .svc)) s.mem) (s.r 0) (s.sp .svc - 40)

structure Loaded (c : Word) (s : Cpu) : Prop where
  mode : s.mode = .svc
  sp : s.sp .svc = wordAt c 10
  regs : ∀ i (hi : i < context.length), s.get .svc context[i] = s.mem (wordAt c i)
  pc : s.pc = s.lr .svc

theorem run_swtch {s : Cpu} (hMode : s.mode = .svc) :
    Loaded (s.r 1) (run swtch s) ∧ (run swtch s).mem = saveContext s ∧ (run swtch s).sp .irq = s.sp .irq := by
  have hPsr : modeOf s.cpsr = .svc := hMode
  have hLow : s.sp .svc - BitVec.ofNat 32 (4 * 10) = s.sp .svc - 40 := rfl
  have hSlot : s.r 0 + 0 = s.r 0 := BitVec.add_zero _
  let s₃ : Cpu := { s with
    sp := Function.update s.sp .svc (s.r 1)
    pc := s.pc + 4 + 4 + 4
    mem := saveContext s }
  have hRun : run swtch s = Instr.exec (Instr.exec s₃ (.ldmfd .sp true context)) (.bx .lr) := by
    have hLen : context.length = 10 := rfl
    simp only [run, swtch, List.foldl, s₃, saveContext]
    congr 2
    simp only [Instr.exec, Cpu.next, Cpu.mode, hPsr, Cpu.below, Cpu.get, if_true, Cpu.set, hLen, hLow, hSlot, Function.update_self,
      Function.update_idem]
  have hNodup : context.Nodup := by decide
  have hLoad : ∀ i (hi : i < context.length), (s₃.load .svc (s.r 1) context).get .svc context[i] = saveContext s (wordAt (s.r 1) i) :=
    fun i hi => Cpu.get_load hNodup hi
  have hPsr₃ : modeOf s₃.cpsr = .svc := hPsr
  have hSp₃ : s₃.sp .svc = s.r 1 := Function.update_self Mode.svc (s.r 1) s.sp
  have hMem : (s₃.load .svc (s.r 1) context).mem = saveContext s := Cpu.load_mem
  have hCpsr : (s₃.load .svc (s.r 1) context).cpsr = s.cpsr := Cpu.load_cpsr
  have hNe : Mode.irq ≠ Mode.svc := by decide
  have hIrq : (s₃.load .svc (s.r 1) context).sp .irq = s.sp .irq :=
    (Cpu.sp_load_of_ne hNe).trans (Function.update_of_ne hNe (s.r 1) s.sp)
  have hLen : context.length = 10 := rfl
  have hNoSp : ∀ i (hi : i < context.length), context[i] ≠ .sp ∧ context[i] ≠ .pc := by decide
  rw [hRun]
  simp only [Instr.exec, Cpu.next, Cpu.mode, hPsr₃, Cpu.get, hSp₃, if_true, hLen]
  generalize s₃.load .svc (s.r 1) context = v at hLoad hMem hCpsr hIrq ⊢
  have hSvc : modeOf (Cpu.set v .svc .sp (wordAt (s.r 1) 10)).cpsr = .svc := by
    rw [Cpu.set_cpsr, hCpsr]
    exact hPsr
  refine ⟨?_, hMem, (Function.update_of_ne hNe (wordAt (s.r 1) 10) v.sp).trans hIrq⟩
  constructor
  case mode => exact hSvc
  case sp => exact Function.update_self Mode.svc (wordAt (s.r 1) 10) v.sp
  case regs =>
    intro i hi
    obtain ⟨hSp, hPc⟩ := hNoSp i hi
    have hReg := hLoad i hi
    rw [← hMem] at hReg
    have hKept : (v.set .svc .sp (wordAt (s.r 1) 10)).get .svc context[i] = v.get .svc context[i] := Cpu.get_set_of_ne hSp
    rw [← hKept] at hReg
    generalize context[i] = x at hReg hPc ⊢
    cases x with
    | r j => exact hReg
    | sp => exact hReg
    | lr => exact hReg
    | pc => exact absurd rfl hPc
  case pc =>
    rw [hSvc]

/-! ## Threads -/

/-- The stacks of threads, and the words that point to their contexts: `p->context`, or that of the scheduler. -/
structure Stacks (T : Type) where
  low : T → Nat
  high : T → Nat
  slot : T → Word
  high_lt : ∀ t, high t < 2 ^ 32
  slot_out : ∀ t, (slot t).toNat < low t ∨ high t ≤ (slot t).toNat

structure Stacks.Apart {T : Type} (S : Stacks T) (t u : T) : Prop where
  ranges : S.high t ≤ S.low u ∨ S.high u ≤ S.low t
  slots : S.slot t ≠ S.slot u
  slot_out : (S.slot t).toNat < S.low u ∨ S.high u ≤ (S.slot t).toNat
  out_slot : (S.slot u).toNat < S.low t ∨ S.high t ≤ (S.slot u).toNat

theorem Stacks.Apart.symm {T : Type} {S : Stacks T} {t u : T} (h : S.Apart t u) : S.Apart u t :=
  ⟨h.ranges.symm, h.slots.symm, h.out_slot, h.slot_out⟩

/-- What is in memory of a thread that called `swtch` when the processor was in state `g`. -/
structure Suspended {T : Type} (S : Stacks T) (mem : Word → Word) (u : T) (g : Cpu) : Prop where
  low : S.low u + 40 ≤ (g.sp .svc).toNat
  high : (g.sp .svc).toNat ≤ S.high u
  slot : mem (S.slot u) = g.sp .svc - 40
  regs : ∀ i (hi : i < context.length), mem (wordAt (g.sp .svc - 40) i) = g.get .svc context[i]
  stack : ∀ a : Word, (g.sp .svc).toNat ≤ a.toNat → a.toNat < S.high u → mem a = g.mem a

/-- Code of thread `t`. It leaves the stacks and the contexts of other threads alone, of which `g` has those that are suspended. -/
structure RunsOn {T : Type} (S : Stacks T) (g : T → Option Cpu) (t : T) (s s' : Cpu) : Prop where
  mode : s'.mode = .svc
  irq : s'.sp .irq = s.sp .irq
  high : (s'.sp .svc).toNat ≤ S.high t
  stack : ∀ u, u ≠ t → g u ≠ none → ∀ a : Word, S.low u ≤ a.toNat → a.toNat < S.high u → s'.mem a = s.mem a
  slot : ∀ u, u ≠ t → g u ≠ none → s'.mem (S.slot u) = s.mem (S.slot u)

def Live {T : Type} (g : T → Option Cpu) (t v : T) : Prop := v = t ∨ g v ≠ none

section Newborn

variable {T : Type} (S : Stacks T) (u : T) (f : Frame) (forkretAt trapretAt : Word)

def Stacks.top : Word := BitVec.ofNat 32 (S.high u)

/-- What `allocproc` and its caller write to a new kernel stack: a context that starts in `forkret` behind its first instruction,
what that instruction would have pushed, and the trapframe. -/
def newStack : List Word := List.replicate 9 0 ++ [forkretAt + 4, S.top u, trapretAt] ++ f.words

def allocproc (mem : Word → Word) : Word → Word :=
  Function.update (store (S.top u - 120) (newStack S u f forkretAt trapretAt) mem) (S.slot u) (S.top u - 120)

/-- A new thread is as if it had called `swtch` in this state. -/
def newborn (s : Cpu) : Cpu := { s with
  r := fun _ => 0
  sp := Function.update s.sp .svc (S.top u - 80)
  lr := fun _ => forkretAt + 4
  mem := allocproc S u f forkretAt trapretAt s.mem }

end Newborn

/-- `swtch(slot t, *slot u)` is about to be executed. -/
structure Switches {T : Type} (S : Stacks T) (t u : T) (s : Cpu) : Prop where
  ne : u ≠ t
  old : s.r 0 = S.slot t
  new : s.r 1 = s.mem (S.slot u)
  room : S.low t + 40 ≤ (s.sp .svc).toNat

/-- The threads of a processor: the state in which each of the suspended ones called `swtch`, the one that runs, and the processor. -/
inductive Threads {T : Type} [DecidableEq T] (S : Stacks T) : (T → Option Cpu) → T → Cpu → Prop
  | start {t : T} {s : Cpu} : s.mode = .svc → (s.sp .svc).toNat ≤ S.high t → Threads S (fun _ => none) t s
  | code {g : T → Option Cpu} {t : T} {s s' : Cpu} : Threads S g t s → RunsOn S g t s s' → Threads S g t s'
  | create {g : T → Option Cpu} {t u : T} {s : Cpu} (f : Frame) (forkretAt trapretAt : Word) : Threads S g t s → u ≠ t →
      S.low u + 120 ≤ S.high u → (∀ v, Live g t v → v ≠ u → S.Apart v u) →
      Threads S (Function.update g u (some (newborn S u f forkretAt trapretAt s))) t
        { s with mem := allocproc S u f forkretAt trapretAt s.mem }
  | free {g : T → Option Cpu} {t u : T} {s : Cpu} : Threads S g t s → u ≠ t → Threads S (Function.update g u none) t s
  | switch {g : T → Option Cpu} {t u : T} {s k : Cpu} : Threads S g t s → Switches S t u s → g u = some k →
      Threads S (Function.update g t (some s)) u (run swtch s)

section Runs

variable {T : Type} {S : Stacks T} {g : Cpu} {t u v : T} {s : Cpu} {mem mem' : Word → Word} {f : Frame} {forkretAt trapretAt : Word}

theorem Suspended.congr (h : Suspended S mem u g) (hSlot : mem' (S.slot u) = mem (S.slot u))
    (hStack : ∀ a : Word, S.low u ≤ a.toNat → a.toNat < S.high u → mem' a = mem a) : Suspended S mem' u g := by
  have hLow := h.low
  have hHigh := h.high
  have hLt := S.high_lt u
  have hNat : (g.sp .svc - 40).toNat = (g.sp .svc).toNat - 40 := toNat_sub (n := 40) (by omega)
  constructor
  case low => exact hLow
  case high => exact hHigh
  case slot => exact hSlot.trans h.slot
  case regs =>
    intro i hi
    have hTen : i < 10 := hi
    have hAt := toNat_wordAt (a := g.sp .svc - 40) (i := i) (by omega)
    rw [hStack _ (by omega) (by omega)]
    exact h.regs i hi
  case stack =>
    intro a hLe hLt
    rw [hStack a (by omega) hLt]
    exact h.stack a hLe hLt

theorem ne_of_out {a b : Word} {l h : Nat} (hOut : b.toNat < l ∨ h ≤ b.toNat) (hLe : l ≤ a.toNat) (hLt : a.toNat < h) : a ≠ b :=
  fun hEq => by
    rw [hEq] at hLe hLt
    omega

theorem suspended_self (hLow : S.low t + 40 ≤ (s.sp .svc).toNat) (hHigh : (s.sp .svc).toNat ≤ S.high t) (hSlot : s.r 0 = S.slot t) :
    Suspended S (saveContext s) t s := by
  have hLt := S.high_lt t
  have hOut := S.slot_out t
  have hNat : (s.sp .svc - 40).toNat = (s.sp .svc).toNat - 40 := toNat_sub (n := 40) (by omega)
  have hLen : (context.map (s.get .svc)).length = 10 := rfl
  constructor
  case low => exact hLow
  case high => exact hHigh
  case slot =>
    rw [saveContext, hSlot]
    exact Function.update_self ..
  case regs =>
    intro i hi
    have hTen : i < 10 := hi
    have hAt := toNat_wordAt (a := s.sp .svc - 40) (i := i) (by omega)
    have hNe := ne_of_out (a := wordAt (s.sp .svc - 40) i) (S.slot_out t) (by omega) (by omega)
    rw [saveContext, hSlot, Function.update_of_ne hNe, store_at (by rw [hLen]; decide) (by rw [hLen]; exact hTen), List.getElem_map]
  case stack =>
    intro a hLe hLtHigh
    have hNe := ne_of_out (S.slot_out t) (by omega) hLtHigh
    rw [saveContext, hSlot, Function.update_of_ne hNe]
    exact store_range (by omega) (by omega)

/-- A thread that does not run, while words on the stack of `t` and its context pointer are written. -/
theorem Suspended.beside {b x : Word} {l : List Word} (h : Suspended S mem v g) (hNe : S.Apart v t) (hLow : S.low t ≤ b.toNat)
    (hHigh : b.toNat + 4 * l.length ≤ S.high t) : Suspended S (Function.update (store b l mem) (S.slot t) x) v g := by
  have hLt := S.high_lt t
  have hApart := hNe.ranges
  have hOut := hNe.slot_out
  refine h.congr ?_ fun a hLe hLtHigh => ?_
  · rw [Function.update_of_ne hNe.slots]
    exact store_range (by omega) (by omega)
  · rw [Function.update_of_ne (ne_of_out hNe.out_slot hLe hLtHigh)]
    exact store_range (by omega) (by omega)

theorem Suspended.saved (h : Suspended S s.mem v g) (hNe : S.Apart v t) (hLow : S.low t + 40 ≤ (s.sp .svc).toNat)
    (hHigh : (s.sp .svc).toNat ≤ S.high t) (hSlot : s.r 0 = S.slot t) : Suspended S (saveContext s) v g := by
  have hNat : (s.sp .svc - 40).toNat = (s.sp .svc).toNat - 40 := toNat_sub (n := 40) (by omega)
  have hLen : (context.map (s.get .svc)).length = 10 := rfl
  rw [saveContext, hSlot]
  exact h.beside hNe (by omega) (by omega)

theorem toNat_top : (S.top u).toNat = S.high u := by
  rw [Stacks.top, BitVec.toNat_ofNat, Nat.mod_eq_of_lt (S.high_lt u)]

theorem length_newStack (S : Stacks T) (u : T) (f : Frame) (forkretAt trapretAt : Word) :
    (newStack S u f forkretAt trapretAt).length = 30 := rfl

theorem allocproc_at (hRoom : S.low u + 120 ≤ S.high u) {i : Nat} (hi : i < 30) :
    allocproc S u f forkretAt trapretAt mem (wordAt (S.top u - 120) i) = (newStack S u f forkretAt trapretAt)[i] := by
  have hTop := toNat_top (S := S) (u := u)
  have hLt := S.high_lt u
  have hOut := S.slot_out u
  have hNat : (S.top u - 120).toNat = (S.top u).toNat - 120 := toNat_sub (n := 120) (by omega)
  have hAt := toNat_wordAt (a := S.top u - 120) (i := i) (by omega)
  have hNe := ne_of_out (a := wordAt (S.top u - 120) i) (S.slot_out u) (by omega) (by omega)
  rw [allocproc, Function.update_of_ne hNe]
  exact store_at (by rw [length_newStack]; decide) hi

theorem suspended_newborn (hRoom : S.low u + 120 ≤ S.high u) :
    Suspended S (allocproc S u f forkretAt trapretAt s.mem) u (newborn S u f forkretAt trapretAt s) := by
  have hTop := toNat_top (S := S) (u := u)
  have hLt := S.high_lt u
  have hNat : (S.top u - 80).toNat = (S.top u).toNat - 80 := toNat_sub (n := 80) (by omega)
  have hBase : S.top u - 80 - 40 = S.top u - 120 := by bv_omega
  constructor
  case low =>
    change S.low u + 40 ≤ (S.top u - 80).toNat
    omega
  case high =>
    change (S.top u - 80).toNat ≤ S.high u
    omega
  case slot => exact (Function.update_self ..).trans hBase.symm
  case regs =>
    intro i hi
    have hTen : i < 10 := hi
    change allocproc S u f forkretAt trapretAt s.mem (wordAt (S.top u - 80 - 40) i) = _
    rw [hBase, allocproc_at hRoom (by omega)]
    interval_cases i <;> rfl
  case stack => exact fun a _ _ => rfl

theorem Suspended.spared (h : Suspended S mem v g) (hNe : S.Apart v u) (hRoom : S.low u + 120 ≤ S.high u) :
    Suspended S (allocproc S u f forkretAt trapretAt mem) v g := by
  have hTop := toNat_top (S := S) (u := u)
  have hNat : (S.top u - 120).toNat = (S.top u).toNat - 120 := toNat_sub (n := 120) (by omega)
  have hLen := length_newStack S u f forkretAt trapretAt
  rw [allocproc]
  exact h.beside hNe (by omega) (by omega)

structure InThreads (S : Stacks T) (c : T → Option Cpu) (t : T) (s : Cpu) : Prop where
  mode : s.mode = .svc
  high : (s.sp .svc).toNat ≤ S.high t
  apart : ∀ v w, Live c t v → Live c t w → v ≠ w → S.Apart v w
  suspended : ∀ v k, v ≠ t → c v = some k → Suspended S s.mem v k
  irq : ∀ v k, v ≠ t → c v = some k → k.sp .irq = s.sp .irq

/-- Thread `u` goes on behind the call of `swtch` that it made in state `g`. -/
structure Resumes (S : Stacks T) (u : T) (g s : Cpu) : Prop where
  mode : s.mode = .svc
  regs : ∀ x ∈ context, s.get .svc x = g.get .svc x
  sp : s.sp .svc = g.sp .svc
  irq : s.sp .irq = g.sp .irq
  pc : s.pc = g.lr .svc
  stack : ∀ a : Word, (g.sp .svc).toNat ≤ a.toNat → a.toNat < S.high u → s.mem a = g.mem a

variable {c : T → Option Cpu} {k : Cpu}

theorem live_of_called (h : c v = some k) : Live c t v :=
  .inr (by rw [h]; exact Option.some_ne_none k)

theorem inThreads_start (hMode : s.mode = .svc) (hHigh : (s.sp .svc).toNat ≤ S.high t) : InThreads S (fun _ => none) t s := by
  have hAlone : ∀ v, Live (fun _ : T => (none : Option Cpu)) t v → v = t := fun v hv => hv.resolve_right fun h => h rfl
  constructor
  case mode => exact hMode
  case high => exact hHigh
  case apart => exact fun v w hv hw hNe => absurd ((hAlone v hv).trans (hAlone w hw).symm) hNe
  case suspended => exact fun v k _ hk => absurd hk.symm (Option.some_ne_none k)
  case irq => exact fun v k _ hk => absurd hk.symm (Option.some_ne_none k)

theorem InThreads.code {s' : Cpu} (h : InThreads S c t s) (hCode : RunsOn S c t s s') : InThreads S c t s' := by
  constructor
  case mode => exact hCode.mode
  case high => exact hCode.high
  case apart => exact h.apart
  case suspended =>
    intro v k hNe hk
    have hThere : c v ≠ none := by
      rw [hk]
      exact Option.some_ne_none k
    exact (h.suspended v k hNe hk).congr (hCode.slot v hNe hThere) (hCode.stack v hNe hThere)
  case irq => exact fun v k hNe hk => (h.irq v k hNe hk).trans hCode.irq.symm

theorem InThreads.switches (h : InThreads S c t s) (hSwitch : Switches S t u s) (hCalled : c u = some k) :
    Resumes S u k (run swtch s) := by
  have hSuspended := h.suspended u k hSwitch.ne hCalled
  have hApart := h.apart u t (live_of_called hCalled) (.inl rfl) hSwitch.ne
  have hSaved := hSuspended.saved hApart hSwitch.room h.high hSwitch.old
  obtain ⟨hLoaded, hMem, hIrq⟩ := run_swtch h.mode
  have hContext : s.r 1 = k.sp .svc - 40 := hSwitch.new.trans hSuspended.slot
  rw [hContext] at hLoaded
  have hEnd : wordAt (k.sp .svc - 40) 10 = k.sp .svc := by
    rw [wordAt]
    bv_omega
  have hRegs : ∀ x ∈ context, (run swtch s).get .svc x = k.get .svc x := fun x hx => by
    obtain ⟨i, hi, rfl⟩ := List.mem_iff_getElem.mp hx
    rw [hLoaded.regs i hi, hMem, hSaved.regs i hi]
  constructor
  case mode => exact hLoaded.mode
  case regs => exact hRegs
  case sp => exact hLoaded.sp.trans hEnd
  case irq => exact hIrq.trans (h.irq u k hSwitch.ne hCalled).symm
  case pc => exact hLoaded.pc.trans (hRegs .lr (by decide))
  case stack =>
    intro a hLe hLt
    rw [hMem, hSaved.stack a hLe hLt]

structure ForkretBody (S : Stacks T) (u : T) (s s' : Cpu) : Prop where
  mode : s'.mode = .svc
  sp : s'.sp .svc = s.sp .svc
  stack : ∀ a : Word, (s.sp .svc).toNat ≤ a.toNat → a.toNat < S.high u → s'.mem a = s.mem a

/-- The return of `forkret`, which takes what its first instruction would have pushed. -/
def forkretPop : Instr := .ldmfdPc .sp [.r 11, .pc]

theorem newStack_frame {i : Nat} (hLt : 12 + i < (newStack S u f forkretAt trapretAt).length) :
    f.words[i]? = some (newStack S u f forkretAt trapretAt)[12 + i] := by
  have hAt : (newStack S u f forkretAt trapretAt)[12 + i]? = f.words[i]? := by
    rw [newStack, List.getElem?_append_right (Nat.le_add_right 12 i)]
    exact congrArg (f.words[·]?) (Nat.add_sub_cancel_left 12 i)
  rw [← hAt, List.getElem?_eq_getElem hLt]

theorem forkret_returns {w : Cpu} (hRoom : S.low u + 120 ≤ S.high u)
    (hResumes : Resumes S u (newborn S u f forkretAt trapretAt k) s) (hBody : ForkretBody S u s w) :
    (Instr.exec w forkretPop).mode = .svc ∧ (Instr.exec w forkretPop).pc = trapretAt ∧
      (Instr.exec w forkretPop).sp .svc = S.top u - 72 ∧ (Instr.exec w forkretPop).mem = w.mem ∧ f.At w.mem (S.top u - 72) := by
  have hTop := toNat_top (S := S) (u := u)
  have hLt := S.high_lt u
  have hNat : (S.top u - 120).toNat = (S.top u).toNat - 120 := toNat_sub (n := 120) (by omega)
  have hNat' : (S.top u - 80).toNat = (S.top u).toNat - 80 := toNat_sub (n := 80) (by omega)
  have hSp : s.sp .svc = S.top u - 80 := hResumes.sp
  have hWord : ∀ i (hi : i < 30), 10 ≤ i → w.mem (wordAt (S.top u - 120) i) = (newStack S u f forkretAt trapretAt)[i] := fun i hi hLe => by
    have hAt := toNat_wordAt (a := S.top u - 120) (i := i) (by omega)
    have hNew : (newborn S u f forkretAt trapretAt k).sp .svc = S.top u - 80 := rfl
    rw [hBody.stack _ (by rw [hSp]; omega) (by omega), hResumes.stack _ (by rw [hNew]; omega) (by omega)]
    exact allocproc_at hRoom hi
  have hPsr : modeOf w.cpsr = .svc := hBody.mode
  have hBodySp : w.sp .svc = S.top u - 80 := hBody.sp.trans hSp
  have hSecond : S.top u - 80 + 4 = wordAt (S.top u - 120) 11 := by
    rw [wordAt]
    bv_omega
  have hEnd : wordAt (S.top u - 80) 2 = S.top u - 72 := by
    rw [wordAt]
    bv_omega
  simp only [forkretPop, Instr.exec, Cpu.mode, hPsr, Cpu.get, hBodySp, Cpu.load, Cpu.set]
  refine ⟨trivial, ?_, ?_, trivial, ?_⟩
  · rw [hSecond]
    exact hWord 11 (by decide) (by decide)
  · exact (Function.update_self Mode.svc (wordAt (S.top u - 80) 2) w.sp).trans hEnd
  · intro i hi
    have hAt : wordAt (S.top u - 72) i = wordAt (S.top u - 120) (12 + i) := by
      rw [← wordAt_wordAt]
      congr 1
      rw [wordAt]
      bv_omega
    rw [hAt, hWord (12 + i) (by omega) (by omega)]
    exact newStack_frame _

section Reached

variable [DecidableEq T]

theorem called_update {x : Option Cpu} (h : Function.update c u x v = some k) : v = u ∧ x = some k ∨ v ≠ u ∧ c v = some k := by
  by_cases hv : v = u
  · rw [hv, Function.update_self] at h
    exact .inl ⟨hv, h⟩
  · rw [Function.update_of_ne hv] at h
    exact .inr ⟨hv, h⟩

theorem Live.of_update {x : Option Cpu} (h : Live (Function.update c u x) t v) (hNe : v ≠ u) : Live c t v := by
  rcases h with hEq | hSome
  · exact .inl hEq
  · rw [Function.update_of_ne hNe] at hSome
    exact .inr hSome

theorem Live.of_free (h : Live (Function.update c u none) t v) : Live c t v := by
  rcases h with hEq | hSome
  · exact .inl hEq
  · obtain ⟨k, hk⟩ := Option.ne_none_iff_exists'.mp hSome
    rcases called_update hk with ⟨_, hNone⟩ | ⟨_, hOld⟩
    · exact absurd hNone.symm (Option.some_ne_none k)
    · exact live_of_called hOld

theorem Live.of_switch (h : Live (Function.update c t (some s)) u v) (hCalled : c u = some k) : Live c t v := by
  by_cases hvt : v = t
  · exact .inl hvt
  · rcases h with hEq | hSome
    · rw [hEq]
      exact live_of_called hCalled
    · rw [Function.update_of_ne hvt] at hSome
      exact .inr hSome

theorem InThreads.create (h : InThreads S c t s) (hRoom : S.low u + 120 ≤ S.high u) (hApart : ∀ v, Live c t v → v ≠ u → S.Apart v u) :
    InThreads S (Function.update c u (some (newborn S u f forkretAt trapretAt s))) t
      { s with mem := allocproc S u f forkretAt trapretAt s.mem } := by
  constructor
  case mode => exact h.mode
  case high => exact h.high
  case apart =>
    intro v w hv hw hvw
    by_cases hvu : v = u
    · rw [hvu] at hvw ⊢
      exact (hApart w (hw.of_update (Ne.symm hvw)) (Ne.symm hvw)).symm
    · by_cases hwu : w = u
      · rw [hwu]
        exact hApart v (hv.of_update hvu) hvu
      · exact h.apart v w (hv.of_update hvu) (hw.of_update hwu) hvw
  case suspended =>
    intro v k hvt hk
    rcases called_update hk with ⟨rfl, hNew⟩ | ⟨hvu, hOld⟩
    · rw [← Option.some.inj hNew]
      exact suspended_newborn hRoom
    · exact (h.suspended v k hvt hOld).spared (hApart v (live_of_called hOld) hvu) hRoom
  case irq =>
    intro v k hvt hk
    rcases called_update hk with ⟨_, hNew⟩ | ⟨_, hOld⟩
    · rw [← Option.some.inj hNew]
      rfl
    · exact h.irq v k hvt hOld

theorem InThreads.free (h : InThreads S c t s) : InThreads S (Function.update c u none) t s := by
  have hOld : ∀ v k, Function.update c u none v = some k → c v = some k := fun v k hk => by
    rcases called_update hk with ⟨_, hNone⟩ | ⟨_, hOld⟩
    · exact absurd hNone.symm (Option.some_ne_none k)
    · exact hOld
  constructor
  case mode => exact h.mode
  case high => exact h.high
  case apart => exact fun v w hv hw => h.apart v w hv.of_free hw.of_free
  case suspended => exact fun v k hvt hk => h.suspended v k hvt (hOld v k hk)
  case irq => exact fun v k hvt hk => h.irq v k hvt (hOld v k hk)

theorem InThreads.switched (h : InThreads S c t s) (hSwitch : Switches S t u s) (hCalled : c u = some k) :
    InThreads S (Function.update c t (some s)) u (run swtch s) := by
  have hResumes := h.switches hSwitch hCalled
  obtain ⟨_, hMem, hIrq⟩ := run_swtch h.mode
  constructor
  case mode => exact hResumes.mode
  case high =>
    rw [hResumes.sp]
    exact (h.suspended u k hSwitch.ne hCalled).high
  case apart => exact fun v w hv hw => h.apart v w (hv.of_switch hCalled) (hw.of_switch hCalled)
  case suspended =>
    intro v k' _ hk
    rw [hMem]
    rcases called_update hk with ⟨rfl, hSelf⟩ | ⟨hvt, hOld⟩
    · rw [← Option.some.inj hSelf]
      exact suspended_self hSwitch.room h.high hSwitch.old
    · have hApart := h.apart v t (live_of_called hOld) (.inl rfl) hvt
      exact (h.suspended v k' hvt hOld).saved hApart hSwitch.room h.high hSwitch.old
  case irq =>
    intro v k' _ hk
    rw [hIrq]
    rcases called_update hk with ⟨_, hSelf⟩ | ⟨hvt, hOld⟩
    · rw [← Option.some.inj hSelf]
    · exact h.irq v k' hvt hOld

/-- By induction on the run. A thread that does not run is suspended until it is switched to or freed. -/
theorem Threads.inThreads (h : Threads S c t s) : InThreads S c t s := by
  induction h with
  | start hMode hHigh => exact inThreads_start hMode hHigh
  | code _ hCode ih => exact ih.code hCode
  | create _ _ _ _ _ hRoom hApart ih => exact ih.create hRoom hApart
  | free _ _ ih => exact ih.free
  | switch _ hSwitch hCalled ih => exact ih.switched hSwitch hCalled

/-- Whatever the other threads have done meanwhile. -/
theorem switch_resumes (h : Threads S c t s) (hSwitch : Switches S t u s) (hCalled : c u = some k) : Resumes S u k (run swtch s) :=
  h.inThreads.switches hSwitch hCalled

/-- The child of `fork` begins as if it had made the call of its parent itself, and the call had returned 0. -/
theorem child_starts {L : Layout} {s₀ w : Cpu} {m : {a // L.user a} → Word} (h : Threads S c t s) (hSwitch : Switches S t u s)
    (hNew : c u = some (newborn S u ((Label.call 0 m).edit (callFrame s₀)) forkretAt trapretAt k))
    (hRoom : S.low u + 120 ≤ S.high u) (hBody : ForkretBody S u (run swtch s) w) :
    (run swtch s).pc = forkretAt + 4 ∧ (Instr.exec w forkretPop).pc = trapretAt ∧
      view L (run trapret (Instr.exec w forkretPop)) = (Label.call 0 (view L w).mem).next id (view L s₀) := by
  have hResumes := h.inThreads.switches hSwitch hNew
  obtain ⟨hMode, hPc, hSp, hMem, hFrame⟩ := forkret_returns hRoom hResumes hBody
  rw [← hMem] at hFrame
  obtain ⟨hReturned, hSame, _⟩ := run_trapret hMode hSp hFrame
  refine ⟨hResumes.pc, hPc, ?_⟩
  rw [hReturned.view (hSame.trans hMem)]
  rfl

/-- A process that gives up the processor in a system call gets it back in the same system call. -/
theorem call_gives_up {L : Layout} {b : Nat} {s₀ : Cpu} (hKernel : Kernel L true b s₀ k) (hStart : Keeps L true b s₀ s₀)
    (h : Threads S c t s) (hSwitch : Switches S t u s) (hCalled : c u = some k) (hLow : L.bottom = S.low u) (hHigh : L.top = S.high u) :
    Kernel L true b s₀ (run swtch s) := by
  have hIn := h.inThreads
  have hResumes := hIn.switches hSwitch hCalled
  have hSuspended := hIn.suspended u k hSwitch.ne hCalled
  have hKeeps := hKernel.keeps hStart
  have hRoom := hSuspended.low
  have hBelow := hKeeps.high
  refine hKernel.code ?_
  constructor
  case mode => exact hResumes.mode
  case irq => exact hResumes.irq
  case low =>
    rw [hResumes.sp]
    omega
  case high =>
    rw [hResumes.sp]
    exact hBelow
  case stack => exact fun a hLe hLt => hResumes.stack a (Nat.le_trans hBelow hLe) (hHigh ▸ hLt)
  case user => exact fun hCall => absurd hCall (by decide)

end Reached

end Runs

section Example

def twoStacks : Stacks Bool where
  low t := if t then 0x3000 else 0x1000
  high t := if t then 0x4000 else 0x2000
  slot t := if t then 0x104 else 0x100
  high_lt := by decide
  slot_out := by decide

def childFrame : Frame := (Label.call (L := onePage) 0 fun _ => 0).edit (callFrame firstInstr)

def forking : Cpu := { firstInstr with cpsr := psrModeSvc }

def forked : Bool → Option Cpu := Function.update (fun _ => none) true (some (newborn twoStacks true childFrame 0x800 0x900 forking))

def Stacks.args {T : Type} (S : Stacks T) (t u : T) (s : Cpu) : Cpu :=
  { s with r := fun i => if i = 0 then S.slot t else s.mem (S.slot u) }

theorem Threads.args {T : Type} [DecidableEq T] {S : Stacks T} {g : T → Option Cpu} {t u : T} {s : Cpu} (h : Threads S g t s) (hNe : u ≠ t)
    (hRoom : S.low t + 40 ≤ (s.sp .svc).toNat) : Threads S g t (S.args t u s) ∧ Switches S t u (S.args t u s) := by
  have hIn := h.inThreads
  refine ⟨h.code ?_, ?_⟩
  · constructor
    case mode => exact hIn.mode
    case irq => rfl
    case high => exact hIn.high
    case stack => exact fun _ _ _ _ _ _ => rfl
    case slot => exact fun _ _ _ => rfl
  · constructor
    case ne => exact hNe
    case old => rfl
    case new => rfl
    case room => exact hRoom

/-- The parent when it calls `swtch`. -/
def switching : Cpu :=
  twoStacks.args false true { forking with mem := allocproc twoStacks true childFrame 0x800 0x900 forking.mem }

/-- The child when it calls `swtch`. -/
def switchingBack : Cpu := twoStacks.args true false (run swtch switching)

theorem forked_switches : Threads twoStacks forked false switching ∧ Switches twoStacks false true switching := by
  have hApart : ∀ v, Live (fun _ : Bool => (none : Option Cpu)) false v → v ≠ true → twoStacks.Apart v true := fun v _ hNe => by
    obtain rfl : v = false := by
      cases v with
      | false => rfl
      | true => exact absurd rfl hNe
    exact ⟨by decide, by decide, by decide, by decide⟩
  have hStart : Threads twoStacks (fun _ => none) false forking := .start (by decide) (by decide)
  have hCreate := hStart.create childFrame 0x800 0x900 (u := true) (by decide) (by decide) hApart
  exact hCreate.args (by decide) (by decide)

theorem forked_switchesBack : Threads twoStacks (Function.update forked false (some switching)) true switchingBack ∧
    Switches twoStacks true false switchingBack := by
  obtain ⟨hThreads, hSwitch⟩ := forked_switches
  have hSp : (run swtch switching).sp .svc = 0x3FB0 := (hThreads.inThreads.switches hSwitch rfl).sp
  exact (hThreads.switch hSwitch rfl).args (by decide) (by rw [hSp]; decide)

theorem switch_resumes_forked : Threads twoStacks forked false switching ∧ Switches twoStacks false true switching ∧
    (run swtch switching).pc = 0x804 ∧ (run swtch switching).sp .svc = 0x3FB0 ∧
    Threads twoStacks (Function.update forked false (some switching)) true switchingBack ∧ Switches twoStacks true false switchingBack ∧
    (run swtch switchingBack).pc = switching.lr .svc ∧ (run swtch switchingBack).sp .svc = 0x2000 := by
  obtain ⟨hThreads, hSwitch⟩ := forked_switches
  obtain ⟨hChild, hBack⟩ := forked_switchesBack
  have hResumes := switch_resumes hThreads hSwitch rfl
  have hReturns := switch_resumes hChild hBack rfl
  exact ⟨hThreads, hSwitch, hResumes.pc, hResumes.sp, hChild, hBack, hReturns.pc, hReturns.sp⟩

theorem child_starts_forked : Threads twoStacks forked false switching ∧ Switches twoStacks false true switching ∧
    (run swtch switching).pc = 0x804 ∧ (Instr.exec (run swtch switching) forkretPop).pc = 0x900 ∧
    (view onePage (run trapret (Instr.exec (run swtch switching) forkretPop))).r 0 = 0 ∧
    (view onePage (run trapret (Instr.exec (run swtch switching) forkretPop))).pc = firstInstr.pc + 4 := by
  obtain ⟨hThreads, hSwitch⟩ := forked_switches
  have hResumes := hThreads.inThreads.switches hSwitch rfl
  have hBody : ForkretBody twoStacks true (run swtch switching) (run swtch switching) := ⟨hResumes.mode, rfl, fun _ _ _ => rfl⟩
  obtain ⟨hForkret, hTrapret, hView⟩ := child_starts (L := onePage) hThreads hSwitch rfl (by decide) hBody
  exact ⟨hThreads, hSwitch, hForkret, hTrapret, (congrArg (fun v => v.r 0) hView).trans rfl, (congrArg View.pc hView).trans rfl⟩

theorem call_gives_up_twice : Kernel onePage true 0x2000 switching switching ∧
    Threads twoStacks (Function.update forked false (some switching)) true switchingBack ∧
    Kernel onePage true 0x2000 switching (run swtch switchingBack) := by
  have hIn := forked_switches.1.inThreads
  obtain ⟨hChild, hBack⟩ := forked_switchesBack
  have hStart : Keeps onePage true 0x2000 switching switching := ⟨hIn.mode, rfl, hIn.high, fun _ _ _ => rfl, fun _ _ _ => rfl⟩
  exact ⟨.start .., hChild, call_gives_up (.start ..) hStart hChild hBack rfl rfl rfl⟩

end Example

end Xv6Rpi.Trap
