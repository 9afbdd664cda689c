import Xv6Rpi.Process.Oom

/-! # pipe

A pipe lives in a chunk of 1024 bytes from `kmalloc`, which has the order of a page table; so
it is in use in the memory as page tables are. Two files refer to it.
-/

namespace Xv6Rpi.Process

open Prog Sched Uvm

/-- `struct pipe` without its lock and its data. -/
structure Pipe where
  nread : Nat
  nwrite : Nat
  readopen : Bool
  writeopen : Bool

/-- `fdPipe f` is the pipe of a file that has the type `FD_PIPE`, in place of its type. -/
structure PipeKernel where
  kernel : Kernel
  fdPipe : Nat → Option Nat
  pipe : Nat → Pipe

abbrev PipeM (α : Type) := Prog PipeKernel Stop Label α

namespace PipeKernel

def setKernel (k : Kernel) (s : PipeKernel) : PipeKernel := { s with kernel := k }

def setPipe (s : PipeKernel) (a : Nat) (x : Pipe) : PipeKernel := { s with pipe := Function.update s.pipe a x }

def setEnd (s : PipeKernel) (f a : Nat) (writable : Bool) : PipeKernel :=
  { s with
    kernel := s.kernel.setFs (Fs.setFile s.kernel.fs f
      { s.kernel.fs.file f with readable := !writable, writable := writable })
    fdPipe := Function.update s.fdPipe f (some a) }

end PipeKernel

section Calls

def actP {α : Type} (f : PipeKernel → Except Stop (α × PipeKernel)) : PipeM α := Prog.single .step f

def modifyP (f : PipeKernel → PipeKernel) : PipeM Unit := actP fun s => .ok ((), f s)

def onKernel {α : Type} (x : KernM α) : PipeM α := x.lift PipeKernel.kernel PipeKernel.setKernel id id

def kmallocPipe : UvmM Nat := Prog.single .allocChunk fun m =>
  if m.FreeChunk m.next then
    .ok (m.next, { m with answers := m.answers.tail, table := Function.update m.table m.next true })
  else .ok (0, { m with answers := m.answers.tail })

/-- The last end to be closed frees the pipe. -/
def pipeclose (a : Nat) (writable : Bool) : PipeM Unit := do
  modifyP fun s => s.setPipe a
    (if writable then { s.pipe a with writeopen := false } else { s.pipe a with readopen := false })
  let p ← actP fun s => .ok (s.pipe a, s)
  if !p.readopen && !p.writeopen then onKernel (onMem (kptFree a)) else return

def fileclose (f : Nat) : PipeM Unit := do
  match ← actP fun s => .ok (s.fdPipe f, s) with
  | none => onKernel (onFs (Fs.fileclose f))
  | some a =>
    let ff ← actP fun s =>
      let x := s.kernel.fs.file f
      let setFile := fun x => s.setKernel (s.kernel.setFs (Fs.setFile s.kernel.fs f x))
      if x.ref < 1 then .error (.fs (.panic .fileclose))
      else if 0 < x.ref - 1 then .ok (none, setFile { x with ref := x.ref - 1 })
      else .ok (some x.writable, { setFile { x with ref := 0 } with fdPipe := Function.update s.fdPipe f none })
    match ff with
    | none => return
    | some writable => pipeclose a writable

def pipeBad (f0 f1 : Option Nat) : PipeM (Option (Nat × Nat)) := do
  match f0 with
  | none => return none
  | some f0 =>
    fileclose f0
    match f1 with
    | none => return none
    | some f1 =>
      fileclose f1
      return none

/-- `none` is -1. The pipe is only looked for when there are two files, so no pipe has to be
freed at the failing end. -/
def pipealloc : PipeM (Option (Nat × Nat)) := do
  match ← onKernel (onFs Fs.filealloc) with
  | none => pipeBad none none
  | some f0 =>
    match ← onKernel (onFs Fs.filealloc) with
    | none => pipeBad (some f0) none
    | some f1 =>
      let a ← onKernel (onMem kmallocPipe)
      if a = 0 then pipeBad (some f0) (some f1)
      else
        modifyP fun s => s.setPipe a ⟨0, 0, true, true⟩
        modifyP fun s => s.setEnd f0 a false
        modifyP fun s => s.setEnd f1 a true
        return some (f0, f1)

def argptr (p : Slot) (size : Nat) : KernM (Option Nat) := getK fun s =>
  let i := (s.user p).tf.r 1
  if s.sz p ≤ i ∨ s.sz p < (i + size) % 2 ^ 32 then none else some i

/-- The kernel writes to user addresses of the calling process. -/
def putBytes (p : Slot) : Nat → List UInt8 → KernM Unit
  | _, [] => return
  | va, c :: bytes => do
    act fun s => match translate s.mem (s.pgdir p) va with
      | none => .error (.panic .outside)
      | some q => .ok ((), s.setMem (s.mem.store q.1 (va % pteSz) [c]))
    putBytes p (va + 1) bytes

def sysPipe (p : Slot) : PipeM Int := do
  match ← onKernel (argptr p 8) with
  | none => return -1
  | some fd =>
    match ← pipealloc with
    | none => return -1
    | some (rf, wf) =>
      match ← onKernel (onFs (Fs.fdalloc p rf)) with
      | none =>
        fileclose rf
        fileclose wf
        return -1
      | some fd0 =>
        match ← onKernel (onFs (Fs.fdalloc p wf)) with
        | none =>
          onKernel (onFs (Fs.modifyK fun s => Fs.setOfile s p fd0 none))
          fileclose rf
          fileclose wf
          return -1
        | some fd1 =>
          onKernel (putBytes p fd (wordBytes [fd0]))
          onKernel (putBytes p (fd + 4) (wordBytes [fd1]))
          return 0

end Calls

section Rules

variable {J : Judge PipeKernel Stop Label} {R : Rely PipeKernel Stop Label} {s s' : PipeKernel} {p : Slot} {α : Type}

/-- No `kmalloc` of the call returns NULL. -/
def PipeFound (l : Label) (s : PipeKernel) : Prop := MemoryFound l s.kernel

instance (l : Label) (s : PipeKernel) : Decidable (PipeFound l s) := inferInstanceAs (Decidable (MemoryFound ..))

/-- Memory has to be found; whatever stops the call before that is fine. -/
def pipeJudge : Judge PipeKernel Stop Label where
  may _ _ := True
  must _ _ := True
  good := PipeFound
  fine _ := True
  bad _ := False

theorem kernel_isPart : IsPart PipeKernel.kernel PipeKernel.setKernel := ⟨fun _ _ => rfl, fun _ => rfl, fun _ _ _ => rfl⟩

/-- Nothing is asked of the end of a call that finds its memory. -/
theorem judge_found {x : PipeM α} (hx : x.Checked pipeJudge) {Q B : α → PipeKernel → Prop} (hQ : ∀ a s', Q a s') :
    judge pipeJudge x Q B s := judge_of_wp hx (wp_trivial ⟨fun _ _ => trivial⟩ (fun _ => trivial) hQ)

theorem checked_actP (f : PipeKernel → Except Stop (α × PipeKernel)) : (actP f).Checked pipeJudge :=
  checked_of_good fun _ => ⟨trivial, trivial⟩

theorem checked_onFs (x : Fs.FsM α) : (onKernel (onFs x)).Checked pipeJudge := by
  refine checked_lift_part kernel_isPart fun s => checked_lift_part fs_isPart fun k => ?_
  exact checked_of_forall (fun _ _ => And.intro trivial trivial) x

theorem checked_onKernel (f : Kernel → Except Stop (α × Kernel)) : (onKernel (Process.act f)).Checked pipeJudge :=
  checked_lift_part kernel_isPart fun _ => checked_of_good fun _ => ⟨trivial, trivial⟩

theorem checked_pipeclose (a : Nat) (writable : Bool) : (pipeclose a writable).Checked pipeJudge := by
  refine checked_bind (checked_actP _) fun _ => checked_bind (checked_actP _) fun p => ?_
  split
  · refine checked_lift_part kernel_isPart fun s => checked_lift_part mem_isPart fun m => ?_
    exact checked_of_good fun _ => ⟨trivial, trivial⟩
  · exact checked_pure _

theorem checked_fileclose (f : Nat) : (fileclose f).Checked pipeJudge := by
  refine checked_bind (checked_actP _) fun r => ?_
  cases r with
  | none => exact checked_onFs _
  | some a =>
    refine checked_bind (checked_actP _) fun ff => ?_
    cases ff with
    | none => exact checked_pure _
    | some writable => exact checked_pipeclose a writable

theorem checked_putBytes (va : Nat) (bytes : List UInt8) : (onKernel (putBytes p va bytes)).Checked pipeJudge := by
  refine checked_lift_part kernel_isPart fun s => ?_
  induction bytes generalizing va with
  | nil => exact checked_pure _
  | cons c bytes ih => exact checked_bind (checked_of_good fun _ => ⟨trivial, trivial⟩) fun _ => ih _

theorem wp_actP (hR : R.Calm) {f : PipeKernel → Except Stop (α × PipeKernel)} {Q : α → PipeKernel → Prop} (h : match f s with
    | .error e => R.stop e
    | .ok (a, s') => Q a s') : wp R (actP f) Q s := by
  apply wp_calm hR
  revert h
  cases f s with
  | error e => exact id
  | ok r => exact id

structure PipesSame (s s' : PipeKernel) (p : Slot) : Prop where
  unharmed : Unharmed s.kernel s'.kernel p
  file : s'.kernel.fs.file = s.kernel.fs.file
  proc : s'.kernel.fs.proc = s.kernel.fs.proc
  fdPipe : s'.fdPipe = s.fdPipe

/-- A file that nobody refers to has the type `FD_NONE`. -/
def Closed (s : PipeKernel) : Prop :=
  ∀ f, (s.kernel.fs.file f).ref = 0 → (s.kernel.fs.file f).type = .none ∧ s.fdPipe f = none

variable {file : Nat → Fs.File} {m : Mem}

def PipeKernel.holding (s : PipeKernel) (file : Nat → Fs.File) (m : Mem) : PipeKernel :=
  s.setKernel ((s.kernel.setFs { s.kernel.fs with file := file }).setMem m)

theorem judge_filealloc {Q B : Option Nat → PipeKernel → Prop} (hNone : Q none (s.holding file m))
    (hSome : ∀ f, (file f).ref = 0 → Q (some f) (s.holding (Function.update file f { file f with ref := 1 }) m)) :
    judge pipeJudge (onKernel (onFs Fs.filealloc)) Q B (s.holding file m) := by
  apply judge_of_wp (checked_onFs _)
  refine wp_lift kernel_isPart (wp_lift fs_isPart ?_)
  rw [Fs.filealloc]
  apply wp_calm ⟨fun _ _ => trivial⟩
  cases hFind : (List.range Fs.nfile).find? fun f => ((s.holding file m).kernel.fs.file f).ref == 0 with
  | none => exact hNone
  | some f =>
    have hRef : (file f).ref == 0 := List.find?_some (p := fun f => (file f).ref == 0) hFind
    exact hSome f (beq_iff_eq.mp hRef)

theorem judge_kmallocPipe {Q B : Nat → PipeKernel → Prop} (hSome : ∀ a s', a ≠ 0 → Q a s')
    (hNone : B 0 (s.holding file { m with answers := m.answers.tail })) :
    judge pipeJudge (onKernel (onMem kmallocPipe)) Q B (s.holding file m) := by
  apply judge_lift kernel_isPart
  apply judge_lift mem_isPart
  rw [kmallocPipe]
  apply judge_single
  · rintro - ⟨-, hFree⟩
    refine ⟨trivial, ?_⟩
    have hFree : m.FreeChunk m.next := hFree
    rw [show (s.holding file m).kernel.mem = m from rfl, if_pos hFree]
    refine hSome _ _ ?_
    intro hZero
    have hLow := hFree.1.2.1
    rw [hZero] at hLow
    exact absurd hLow (by decide)
  · intro _ hNot
    have hFull : ¬m.FreeChunk m.next := fun hFree => hNot ⟨trivial, hFree⟩
    rw [Wrong, single, run, show (s.holding file m).kernel.mem = m from rfl, if_neg hFull]
    exact hNone

theorem wp_closeNew (hR : R.Calm) {f : Nat} (hNone : s.fdPipe f = none) (hRef : (file f).ref = 1) (hType : (file f).type = .none)
    {Q : Unit → PipeKernel → Prop} (hQ : Q () (s.holding (Function.update file f { file f with ref := 0, type := .none }) m)) :
    wp R (fileclose f) Q (s.holding file m) := by
  rw [fileclose, wp_bind]
  apply wp_actP hR
  dsimp only
  rw [show (s.holding file m).fdPipe f = none from hNone]
  refine wp_lift kernel_isPart (wp_lift fs_isPart ?_)
  rw [Fs.fileclose, wp_bind]
  apply wp_calm ((hR.part ..).part ..)
  have hNow : (s.holding file m).kernel.fs.file = file := rfl
  rw [hNow, hRef, if_neg (Nat.lt_irrefl 1), if_neg (show ¬0 < 1 - 1 from Nat.lt_irrefl 0)]
  dsimp only
  rw [hType, wp_pure]
  exact hQ

theorem judge_pipealloc (hClosed : ∀ f, (file f).ref = 0 → (file f).type = .none ∧ s.fdPipe f = none)
    {Q B : Option (Nat × Nat) → PipeKernel → Prop} (hQ : ∀ r s', Q r s')
    (hNone : B none (s.holding file { m with answers := m.answers.tail })) :
    judge pipeJudge pipealloc Q B (s.holding file m) := by
  have hBack : ∀ (file : Nat → Fs.File) (f : Nat), (file f).ref = 0 → (file f).type = .none →
      { file f with ref := 0, type := .none } = file f := by
    intro file f hRef hType
    rw [← hRef, ← hType]
  rw [pipealloc]
  apply judge_bind
  apply judge_filealloc
  · exact judge_pure (hQ ..)
  · intro f₀ hRef₀
    obtain ⟨hType₀, hFd₀⟩ := hClosed f₀ hRef₀
    apply judge_bind
    apply judge_filealloc
    · exact judge_found (checked_bind (checked_fileclose _) fun _ => checked_pure _) hQ
    · intro f₁ hRef₁
      have hNe : f₁ ≠ f₀ := by
        rintro rfl
        rw [Function.update_self] at hRef₁
        cases hRef₁
      rw [Function.update_of_ne hNe] at hRef₁ ⊢
      obtain ⟨hType₁, hFd₁⟩ := hClosed f₁ hRef₁
      apply judge_bind
      apply judge_kmallocPipe
      · intro a s' ha
        rw [if_neg ha]
        refine judge_found ?_ hQ
        exact checked_bind (checked_actP _) fun _ => checked_bind (checked_actP _) fun _ =>
          checked_bind (checked_actP _) fun _ => checked_pure _
      · -- the files are closed in the order in which they were opened
        apply wrong_of_wp
        rw [if_pos rfl, pipeBad, wp_bind]
        apply wp_closeNew (Judge.worse_calm _) hFd₀
        · rw [Function.update_of_ne hNe.symm, Function.update_self]
        · rw [Function.update_of_ne hNe.symm, Function.update_self]
          exact hType₀
        · have hNew : ∀ {file' : Nat → Fs.File}, file' f₀ = { file f₀ with ref := 1 } →
              { file' f₀ with ref := 0, type := .none } = file f₀ := by
            intro file' hEq
            rw [hEq, ← hBack file f₀ hRef₀ hType₀]
          rw [hNew (by rw [Function.update_of_ne hNe.symm, Function.update_self]), Function.update_comm hNe,
            Function.update_idem, Function.update_eq_self, wp_bind]
          apply wp_closeNew (Judge.worse_calm _) hFd₁
          · rw [Function.update_self]
          · rw [Function.update_self]
            exact hType₁
          · rw [Function.update_self, Function.update_idem]
            dsimp only
            rw [hBack file f₁ hRef₁ hType₁, Function.update_eq_self]
            exact hNone

/-- Without memory for a pipe -1 is returned, and the files are closed again. -/
theorem oomSafe_sysPipe (hClosed : Closed s) :
    OomSafe PipeFound (fun _ => False) (sysPipe p) (fun r s' => r = -1 ∧ PipesSame s s' p) s := by
  have hJudge : judge pipeJudge (sysPipe p) (fun _ _ => True) (fun r s' => r = -1 ∧ PipesSame s s' p) s := by
    rw [sysPipe]
    apply judge_bind
    apply judge_of_wp (checked_onKernel _)
    apply wp_lift kernel_isPart
    apply wp_getK ⟨fun _ _ => trivial⟩
    dsimp only
    split_ifs
    · exact judge_pure trivial
    · apply judge_bind
      apply @judge_pipealloc s s.kernel.fs.file s.kernel.mem hClosed
      · intro r s₁
        refine judge_found ?_ fun _ _ => trivial
        cases r with
        | none => exact checked_pure _
        | some q =>
          have hClose : (fileclose q.1 >>= fun _ => fileclose q.2 >>= fun _ => (Pure.pure (-1) : PipeM Int)).Checked pipeJudge :=
            checked_bind (checked_fileclose _) fun _ => checked_bind (checked_fileclose _) fun _ => checked_pure _
          refine checked_bind (checked_onFs _) fun fd0 => ?_
          cases fd0 with
          | none => exact hClose
          | some fd0 =>
            refine checked_bind (checked_onFs _) fun fd1 => ?_
            cases fd1 with
            | none => exact checked_bind (checked_onFs _) fun _ => hClose
            | some fd1 =>
              exact checked_bind (checked_putBytes ..) fun _ => checked_bind (checked_putBytes ..) fun _ => checked_pure _
      · exact wrong_of_wp ⟨rfl, ⟨⟨rfl, fun va => rfl⟩, fun va => rfl, rfl, rfl⟩, rfl, rfl, rfl⟩
  intro hNot
  exact .inl ((wrong_of_not_along hJudge (along_of_forall fun _ _ => trivial) hNot).returns fun _ => id)

end Rules

section OutOfMemory

variable {s : PipeKernel} {p : Slot} {header : List UInt8}

/-- `fork` and `exec` answer a NULL from `kmalloc` with -1 and give everything back exactly if
every `kpt_alloc` finds a page table; `sbrk` does exactly if moreover no page table has been
made when `alloc_page` fails, and `pipe` always does. -/
theorem out_of_memory_iff (hDir : IsDir s.kernel.mem (s.kernel.pgdir p))
    (hMaps : Maps s.kernel.mem (s.kernel.pgdir p) (s.kernel.sz p)) (hState : (s.kernel.tbl.proc p).state ≠ .unused)
    (hClosed : Closed s) :
    (OomSafe MemoryFound (fun _ => False) (fork p) (fun r s' => r = none ∧ Unharmed s.kernel s' p) s.kernel ↔
      (fork p).along TablesFound s.kernel) ∧
    (OomSafe MemoryFound (fun e => ∃ f, e = .fs f) (sysExec p header) (fun r s' => r = -1 ∧ Unharmed s.kernel s' p)
      s.kernel ↔ (sysExec p header).along TablesFound s.kernel) ∧
    (OomSafe MemoryFound (fun _ => False) (sysSbrk p) (fun r s' => r = -1 ∧ Unharmed s.kernel s' p) s.kernel ↔
      (sysSbrk p).along (TablesSame s.kernel) s.kernel) ∧
    OomSafe PipeFound (fun _ => False) (sysPipe p) (fun r s' => r = -1 ∧ PipesSame s s' p) s := by
  obtain ⟨T, P, hOld⟩ := hDir
  have hPages := hOld.maps_iff.mp hMaps
  refine ⟨?_, ?_, ?_, ?_⟩
  · exact oomSafe_fork hOld hPages hState
  · exact oomSafe_sysExec hOld hPages
  · exact oomSafe_sysSbrk hOld hPages
  · exact oomSafe_sysPipe hClosed

/-- A kernel without pipes. -/
def noPipes (k : Kernel) : PipeKernel := ⟨k, fun _ => none, fun _ => ⟨0, 0, false, false⟩⟩

/-- There is a page directory for `exec`, but no page. -/
def poorProcess : Kernel := execProcess [0x8001A000]

theorem poorProcess_dir : Dir poorProcess.mem (poorProcess.pgdir 0) onePageTables onePagePages := execProcess_dir _

/-- In all four calls a `kmalloc` returns NULL, and they return -1. -/
theorem out_of_memory_iff_poor :
    (∃ s', (fork 0).run poorProcess = .ok (none, s') ∧ Unharmed poorProcess s' 0) ∧
    (∃ s', (sysExec 0 []).run poorProcess = .ok (-1, s') ∧ Unharmed poorProcess s' 0) ∧
    (∃ s', (sysSbrk 0).run poorProcess = .ok (-1, s') ∧ Unharmed poorProcess s' 0) ∧
    ∃ s', (sysPipe 0).run (noPipes poorProcess) = .ok (-1, s') ∧ PipesSame (noPipes poorProcess) s' 0 := by
  obtain ⟨hFork, hExec, hSbrk, hPipe⟩ := @out_of_memory_iff (noPipes poorProcess) 0 []
    ⟨_, _, poorProcess_dir⟩ (poorProcess_dir.maps_iff.mpr onePage_maps) (by decide) fun f _ => ⟨rfl, rfl⟩
  have hTables : (sysSbrk 0).along (TablesSame poorProcess) poorProcess :=
    ⟨trivial, trivial, .inr rfl, trivial, trivial, trivial⟩
  rw [show (noPipes poorProcess).kernel = poorProcess from rfl] at hFork hExec hSbrk
  refine ⟨?_, ?_, ?_, ?_⟩
  · obtain ⟨r, s', hRun, rfl, hEnd⟩ := (hFork.mpr (by decide +kernel)).returns (by decide +kernel) fun _ => id
    exact ⟨s', hRun, hEnd⟩
  · have hResult : ((sysExec 0 []).run poorProcess).toOption.map Prod.fst = some (-1) := by decide +kernel
    obtain ⟨q, hRun, -⟩ := Option.map_eq_some_iff.mp hResult
    rw [toOption_eq_some] at hRun
    obtain ⟨r, s', hRun', rfl, hEnd⟩ | ⟨e, hStop, -⟩ := hExec.mpr (by decide +kernel) (by decide +kernel)
    · exact ⟨s', hRun', hEnd⟩
    · rw [hRun] at hStop
      cases hStop
  · obtain ⟨r, s', hRun, rfl, hEnd⟩ := (hSbrk.mpr hTables).returns (by decide +kernel) fun _ => id
    exact ⟨s', hRun, hEnd⟩
  · obtain ⟨r, s', hRun, rfl, hEnd⟩ := hPipe.returns (by decide +kernel) fun _ => id
    exact ⟨s', hRun, hEnd⟩

/-- The process calls `sbrk(9000)` and has no memory yet. -/
def emptyProcess (l : List Nat) : Kernel :=
  { oneProcess l with
    mem := bare l
    user := fun _ => ⟨0, ⟨0, 0, 0, 0, fun i => if i = 1 then 9000 else 0, 0⟩, []⟩ }

/-- `fork` panics when there is a kernel stack but no page directory, and `sbrk` when there is a
page but no page table for it; and when there is the page table but no second page, then `sbrk`
keeps the page table. -/
theorem out_of_memory_panics :
    (IsDir (oneProcess [0x80202000]).mem 0x80018000 ∧
      ¬OomSafe MemoryFound (fun _ => False) (fork 0) (fun r s' => r = none ∧ Unharmed (oneProcess [0x80202000]) s' 0)
        (oneProcess [0x80202000])) ∧
    (IsDir (emptyProcess [0x80200000]).mem 0x80018000 ∧
      ¬OomSafe MemoryFound (fun _ => False) (sysSbrk 0) (fun r s' => r = -1 ∧ Unharmed (emptyProcess [0x80200000]) s' 0)
        (emptyProcess [0x80200000])) ∧
    (IsDir (emptyProcess [0x80200000, 0x80019000]).mem 0x80018000 ∧
      ¬OomSafe MemoryFound (fun _ => False) (sysSbrk 0)
        (fun r s' => r = -1 ∧ Unharmed (emptyProcess [0x80200000, 0x80019000]) s' 0)
        (emptyProcess [0x80200000, 0x80019000])) := by
  refine ⟨⟨oneProcess_dir _, fun h => ?_⟩, ⟨⟨_, _, bare_dir _⟩, fun h => ?_⟩, ⟨_, _, bare_dir _⟩, fun h => ?_⟩
  · obtain ⟨r, s', hRun, -⟩ := h.returns (by decide +kernel) fun _ => id
    have hPanic : (fork 0).run (oneProcess [0x80202000]) = .error (.panic .oomKptAlloc) :=
      errorOf_eq_some.mp (by decide +kernel)
    rw [hPanic] at hRun
    cases hRun
  · obtain ⟨r, s', hRun, -⟩ := h.returns (by decide +kernel) fun _ => id
    have hPanic : (sysSbrk 0).run (emptyProcess [0x80200000]) = .error (.panic .oomKptAlloc) :=
      errorOf_eq_some.mp (by decide +kernel)
    rw [hPanic] at hRun
    cases hRun
  · obtain ⟨r, s', hRun, -, hUnharmed⟩ := h.returns (by decide +kernel) fun _ => id
    have hResult : ((sysSbrk 0).run (emptyProcess [0x80200000, 0x80019000])).toOption.map
        (fun r => r.2.mem.table 0x80019000) = some true := by decide +kernel
    rw [hRun] at hResult
    have hTable : s'.mem.table 0x80019000 = true := Option.some.inj hResult
    rw [hUnharmed.table] at hTable
    exact absurd hTable (by decide)

end OutOfMemory

end Xv6Rpi.Process
