import Xv6Rpi.Handles.Ends

/-! # Descriptors and children

The rules for the actions that change what a process has open. `fork` gives the references that its process has taken
on to the child, which runs no program yet.
-/

namespace Xv6Rpi.Handles

open Fs (Kern FsM File ProcFiles nfile nofile ninode)
open Pipes (Pipe Side)
open Prog Sharing
open Sched (Ptable Slot ProcState)

section Held

def atMost (o : Option Nat) : Multiset Nat := o.elim 0 ({·})

theorem held_set (v : ProcFiles) {fd : Nat} (hfd : fd < nofile) (o : Option Nat) :
    held { v with ofile := Function.update v.ofile fd o } + atMost (v.ofile fd) = held v + atMost o := by
  have hRest : ∑ i ∈ (Finset.range nofile).erase fd, atMost (Function.update v.ofile fd o i) =
      ∑ i ∈ (Finset.range nofile).erase fd, atMost (v.ofile i) :=
    Finset.sum_congr rfl fun i hi => by rw [Function.update_of_ne (Finset.ne_of_mem_erase hi)]
  have hIn := Finset.mem_range.mpr hfd
  change ∑ i ∈ Finset.range nofile, atMost (Function.update v.ofile fd o i) + _ = ∑ i ∈ Finset.range nofile, atMost (v.ofile i) + _
  rw [← Finset.add_sum_erase _ (fun i => atMost (Function.update v.ofile fd o i)) hIn, hRest, Function.update_self,
    ← Finset.add_sum_erase _ (fun i => atMost (v.ofile i)) hIn]
  abel

theorem mem_held {v : ProcFiles} {fd f : Nat} (hfd : fd < nofile) (hf : v.ofile fd = some f) : f ∈ held v :=
  Multiset.mem_sum.mpr ⟨fd, Finset.mem_range.mpr hfd, by rw [hf]; exact Multiset.mem_singleton_self f⟩

theorem NoFiles.held {v : ProcFiles} (h : NoFiles v) : held v = 0 :=
  Finset.sum_eq_zero fun fd hfd => by rw [h.ofile fd (Finset.mem_range.mp hfd)]; rfl

theorem NoFiles.cwdOf {v : ProcFiles} (h : NoFiles v) : cwdOf v = 0 := by
  rw [Handles.cwdOf, h.cwd]
  rfl

end Held

section Procs

variable {w w' : World} {g g' : Slot → Share} {p np : Slot} {y y' : Share} {v v' : ProcFiles}

theorem Owned.moved (h : Owned w g) (hFile : w'.fs.file = w.fs.file) (hInode : w'.fs.inode = w.fs.inode)
    (hPipeOf : w'.pipeOf = w.pipeOf) (hPipe : w'.pipe = w.pipe) (hFiles : all Share.files g' = all Share.files g)
    (hInodes : all Share.inodes g' = all Share.inodes g) (hEnds : all Share.ends g' = all Share.ends g)
    (hFrees : all Share.frees g' = all Share.frees g) (hProcs : ProcsInv w' g') (hKnows : ∀ q, KnowsInv w (g' q)) : Owned w' g' where
  files := by
    rw [hFiles]
    exact h.files.congr (fun f => congrArg File.ref (congrFun hFile f)) (fun f => congrArg File.type (congrFun hFile f)) hPipeOf
  inodes := by
    have hSame : fileInodes w' = fileInodes w := Finset.sum_congr rfl fun f _ => congrArg inodeOf (congrFun hFile f)
    rw [hInodes, hSame]
    exact h.inodes.congr hInode
  pipes := by
    have hSame : fileEnds w' = fileEnds w := Finset.sum_congr rfl fun f _ => congrArg₂ endOf (congrFun hFile f) (congrFun hPipeOf f)
    rw [hEnds, hFrees, hSame]
    exact h.pipes.congr hPipe
  procs := hProcs
  knows q := (hKnows q).congr
    (fun f _ => ⟨congrArg File.ref (congrFun hFile f), congrArg File.type (congrFun hFile f)⟩) fun f _ => congrFun hPipeOf f

theorem not_live_of_embryo {s : ProcState} (h : s = .embryo) : ¬Live s := by
  rw [h]
  rintro (hs | hs | hs) <;> cases hs

theorem not_live_of_dead {s : ProcState} (h : s = .unused ∨ s = .zombie) : ¬Live s := by
  rintro hs
  rcases h with hEq | hEq <;> rw [hEq] at hs <;> rcases hs with hs | hs | hs <;> cases hs

theorem ProcsInv.not_child (h : ProcsInv w g) (hCalling : (g p).calling = true) {q : Slot} {v : ProcFiles} : (g q).child ≠ some (p, v) :=
  fun hEq => not_live_of_embryo (h.child q p v hEq).1 (h.live p hCalling)

theorem ProcsInv.child_idle (h : ProcsInv w g) (hChild : (g p).child = some (np, v)) : (g np).calling = false := by
  by_contra hNot
  exact h.not_child (Bool.eq_true_of_not_eq_false hNot) hChild

theorem ProcsInv.setSlots (h : ProcsInv w g) (hg : g p = y) (hCalling : y.calling = true) (hCwd : ∀ j, v.cwd = some j → j < ninode)
    (hProc : w'.fs.proc = Function.update w.fs.proc p v) (hTbl : w'.tbl = w.tbl) :
    ProcsInv w' (Function.update g p { y with slots := v }) := by
  have hCalling' : (g p).calling = true := by rw [hg]; exact hCalling
  have hLive : Live (w.tbl.proc p).state := h.live p hCalling'
  let y' : Share := { y with slots := v }
  have hKid : ∀ q, (Function.update g p y' q).child = (g q).child := fun q => by
    by_cases hq : q = p
    · rw [hq, Function.update_self, hg]
    · rw [Function.update_of_ne hq]
  refine ⟨fun q => ?_, fun q hq => ?_, fun q hq => ?_, fun q hq => ?_, fun q r u hq => ?_, fun q q' r u u' hq hq' => ?_, fun n j hj => ?_⟩
  · rw [hProc]
    by_cases hqp : q = p
    · rw [hqp, Function.update_self, Function.update_self]
    · rw [Function.update_of_ne fun hEq => hqp (Fin.ext hEq), Function.update_of_ne hqp]
      exact h.slots q
  · by_cases hqp : q = p
    · rw [hqp, Function.update_self] at hq
      exact absurd (hCalling.symm.trans hq) (by decide)
    · rw [Function.update_of_ne hqp] at hq ⊢
      exact h.rest q hq
  · rw [hTbl]
    by_cases hqp : q = p
    · rwa [hqp]
    · rw [Function.update_of_ne hqp] at hq
      exact h.live q hq
  · rw [hTbl] at hq
    by_cases hqp : q = p
    · rw [hqp] at hq
      exact absurd hLive (not_live_of_dead hq)
    · rw [Function.update_of_ne hqp]
      exact h.dead q hq
  · rw [hKid] at hq
    have hNe : r ≠ p := fun hEq => h.not_child hCalling' (hEq ▸ hq)
    rw [hTbl, Function.update_of_ne hNe]
    exact h.child q r u hq
  · rw [hKid] at hq hq'
    exact h.one q q' r u u' hq hq'
  · rw [hProc] at hj
    by_cases hn : n = p
    · rw [hn, Function.update_self] at hj
      exact hCwd j hj
    · rw [Function.update_of_ne hn] at hj
      exact h.cwd n j hj

theorem ProcsInv.setChild (h : ProcsInv w g) (hg : g p = y) (hCalling : y.calling = true) (hChild : y.child = some (np, v))
    (hCwd : ∀ j, v'.cwd = some j → j < ninode) (hProc : w'.fs.proc = Function.update w.fs.proc np v') (hTbl : w'.tbl = w.tbl)
    {z : Share} (hz : z.calling = false) (hRest : AtRest z) (hUses : z.uses = none) (hSlots : z.slots = v')
    (hy : y'.calling = true) (hySlots : y'.slots = y.slots) (hyChild : y'.child = some (np, v')) :
    ProcsInv w' (Function.update (Function.update g np z) p y') := by
  have hCalling' : (g p).calling = true := by rw [hg]; exact hCalling
  have hChild' : (g p).child = some (np, v) := by rw [hg]; exact hChild
  have hNe : np ≠ p := fun hEq => h.not_child hCalling' (hEq ▸ hChild')
  have hEmbryo := (h.child p np v hChild').1
  let g' : Slot → Share := Function.update (Function.update g np z) p y'
  have hp : g' p = y' := Function.update_self ..
  have hnp : g' np = z := by
    change Function.update (Function.update g np z) p y' np = z
    rw [Function.update_of_ne hNe, Function.update_self]
  have hOther : ∀ q, q ≠ p → q ≠ np → g' q = g q := fun q hqp hq => by
    change Function.update (Function.update g np z) p y' q = g q
    rw [Function.update_of_ne hqp, Function.update_of_ne hq]
  have hBack : ∀ q r u, (g' q).child = some (r, u) → ∃ u', (g q).child = some (r, u') ∧ (q ≠ p → u' = u) ∧ (q = p → r = np ∧ u = v') := by
    intro q r u hq
    by_cases hqp : q = p
    · rw [hqp, hp, hyChild] at hq
      have hPair := Prod.mk.inj (Option.some.inj hq)
      rw [hqp, ← hPair.1]
      exact ⟨v, hChild', fun hNot => absurd rfl hNot, fun _ => ⟨rfl, hPair.2.symm⟩⟩
    · by_cases hqn : q = np
      · rw [hqn, hnp, hRest.child] at hq
        cases hq
      · rw [hOther q hqp hqn] at hq
        exact ⟨u, hq, fun _ => rfl, fun hEq => absurd hEq hqp⟩
  change ProcsInv w' g'
  refine ⟨fun q => ?_, fun q hq => ?_, fun q hq => ?_, fun q hq => ?_, fun q r u hq => ?_, fun q q' r u u' hq hq' => ?_, fun n j hj => ?_⟩
  · rw [hProc]
    by_cases hqn : q = np
    · rw [hqn, hnp, Function.update_self, hSlots]
    · rw [Function.update_of_ne fun hEq => hqn (Fin.ext hEq), h.slots]
      by_cases hqp : q = p
      · rw [hqp, hp, hySlots, hg]
      · rw [hOther q hqp hqn]
  · by_cases hqp : q = p
    · rw [hqp, hp] at hq
      exact absurd (hy.symm.trans hq) (by decide)
    · by_cases hqn : q = np
      · rw [hqn, hnp]
        exact ⟨hRest, hUses⟩
      · rw [hOther q hqp hqn] at hq ⊢
        exact h.rest q hq
  · rw [hTbl]
    by_cases hqp : q = p
    · rw [hqp]
      exact h.live p hCalling'
    · by_cases hqn : q = np
      · rw [hqn, hnp] at hq
        exact absurd (hz.symm.trans hq) (by decide)
      · rw [hOther q hqp hqn] at hq
        exact h.live q hq
  · rw [hTbl] at hq
    by_cases hqn : q = np
    · rw [hqn, hEmbryo] at hq
      rcases hq with hq | hq <;> cases hq
    · by_cases hqp : q = p
      · rw [hqp, hp, hySlots, ← hg]
        exact h.dead p (hqp ▸ hq)
      · rw [hOther q hqp hqn]
        exact h.dead q hq
  · obtain ⟨u', hWas, hSame, hMine⟩ := hBack q r u hq
    rw [hTbl]
    by_cases hqp : q = p
    · obtain ⟨hr, hu⟩ := hMine hqp
      rw [hr, hnp, hSlots]
      exact ⟨hEmbryo, hu.symm⟩
    · rw [hSame hqp] at hWas
      have hrn : r ≠ np := fun hEq => hqp (h.one q p np u v (hEq ▸ hWas) hChild')
      have hrp : r ≠ p := fun hEq => h.not_child hCalling' (hEq ▸ hWas)
      rw [hOther r hrp hrn]
      exact h.child q r u hWas
  · obtain ⟨u₁, h₁, -⟩ := hBack q r u hq
    obtain ⟨u₂, h₂, -⟩ := hBack q' r u' hq'
    exact h.one q q' r u₁ u₂ h₁ h₂
  · rw [hProc] at hj
    by_cases hn : n = np
    · rw [hn, Function.update_self] at hj
      exact hCwd j hj
    · rw [Function.update_of_ne hn] at hj
      exact h.cwd n j hj

end Procs

section Rules

variable {P : Share → Prop} {p np : Slot} {y : Share} {v : ProcFiles} {fd f ip : Nat} {m : Multiset Nat} {α : Type}

theorem all_same_pair {M : Type} [AddCommMonoid M] [IsCancelAdd M] {φ : Share → M} {g : Slot → Share} {z y' : Share} (hNe : np ≠ p)
    (h : φ z + φ y' = φ (g np) + φ (g p)) : all φ (Function.update (Function.update g np z) p y') = all φ g := by
  have hOuter := all_update φ (Function.update g np z) p y'
  have hInner := all_update φ g np z
  rw [Function.update_of_ne hNe.symm] at hOuter
  refine add_right_cancel (b := φ (g p) + φ (g np)) ?_
  calc all φ (Function.update (Function.update g np z) p y') + (φ (g p) + φ (g np))
      = all φ (Function.update g np z) + φ y' + φ (g np) := by rw [← add_assoc, hOuter]
    _ = all φ g + (φ z + φ y') := by rw [add_right_comm, hInner, add_assoc]
    _ = all φ g + (φ (g p) + φ (g np)) := by rw [h, add_comm (φ (g np))]

theorem Owned.setSlots {w : World} {g : Slot → Share} (h : Owned w g) (hg : g p = y) (hCalling : y.calling = true)
    (hCwd : ∀ j, v.cwd = some j → y.slots.cwd = some j ∨ j ∈ y.inodes) :
    Owned (setFs { w.fs with proc := Function.update w.fs.proc p v } w) (Function.update g p { y with slots := v }) := by
  let w' : World := setFs { w.fs with proc := Function.update w.fs.proc p v } w
  let y' : Share := { y with slots := v }
  have hLt : ∀ j, v.cwd = some j → j < ninode := fun j hj => by
    rcases hCwd j hj with hOld | hMem
    · exact h.procs.cwd p j (by rw [h.procs.slots, hg]; exact hOld)
    · have hMem' : j ∈ Share.inodes (g p) := by rwa [hg]
      exact h.inodes.lt j (Multiset.mem_add.mpr (Or.inr (mem_all hMem')))
  have hProcs : ProcsInv w' (Function.update g p y') := h.procs.setSlots hg hCalling hLt rfl rfl
  have hKnows : KnowsInv w y' := by
    have hMine := h.knows p
    rw [hg] at hMine
    exact ⟨hMine.made, hMine.uses⟩
  exact h.moved rfl rfl rfl rfl (all_same (by rw [hg])) (all_same (by rw [hg])) (all_same (by rw [hg])) (all_same (by rw [hg]))
    hProcs (knows_update (fun q _ => h.knows q) hKnows)

theorem does_setSlots (hP : P y) (hCalling : y.calling = true) {F : ProcFiles → ProcFiles}
    (hCwd : ∀ j, (F y.slots).cwd = some j → y.slots.cwd = some j ∨ j ∈ y.inodes) {Q : Unit → Share → Prop}
    (hQ : Q () { y with slots := F y.slots }) :
    Does P p (onFs (Fs.modifyK fun s => { s with proc := Function.update s.proc p (F (s.proc p)) })) y Q := by
  refine does_fsAct hP hCalling fun w g a s h hg hEq => ?_
  cases hEq
  have hSlots : w.fs.proc p = y.slots := by rw [h.procs.slots, hg]
  have hOwned := h.setSlots hg hCalling hCwd
  dsimp only
  rw [hSlots]
  refine ⟨_, hOwned, others_update p g _, ?_⟩
  rw [Function.update_self]
  exact hQ

theorem does_setChild (hP : P y) (hCalling : y.calling = true) (hChild : y.child = some (np, v)) (hMade : y.made = ∅)
    (hUses : y.uses = none) {F : ProcFiles → ProcFiles} {i : Multiset Nat} (hFiles : held (F v) + m = held v + y.files)
    (hInodes : cwdOf (F v) + i = cwdOf v + y.inodes) {Q : Unit → Share → Prop}
    (hQ : Q () { y with files := m, inodes := i, child := some (np, F v) }) :
    Does P p (onFs (Fs.modifyK fun s => { s with proc := Function.update s.proc np (F (s.proc np)) })) y Q := by
  refine does_fsAct hP hCalling fun w g a s h hg hEq => ?_
  cases hEq
  have hCalling' : (g p).calling = true := by rw [hg]; exact hCalling
  have hChild' : (g p).child = some (np, v) := by rw [hg]; exact hChild
  have hNe : np ≠ p := fun hEq => h.procs.not_child hCalling' (hEq ▸ hChild')
  have hIdle := h.procs.child_idle hChild'
  obtain ⟨hRest, hNone⟩ := h.procs.rest np hIdle
  obtain ⟨-, hSlots⟩ := h.procs.child p np v hChild'
  have hProc : w.fs.proc np = v := by rw [h.procs.slots, hSlots]
  let w' : World := setFs { w.fs with proc := Function.update w.fs.proc np (F (w.fs.proc np)) } w
  let z : Share := { g np with slots := F v, files := held (F v), inodes := cwdOf (F v) }
  let y' : Share := { y with files := m, inodes := i, child := some (np, F v) }
  have hAtRest : AtRest z := ⟨rfl, hRest.made, rfl, hRest.ends, hRest.frees, hRest.child⟩
  have hInodesSum : all Share.inodes (Function.update (Function.update g np z) p y') = all Share.inodes g := by
    refine all_same_pair hNe ?_
    rw [hRest.inodes, hSlots, hg]
    exact hInodes
  have hFilesSum : all Share.files (Function.update (Function.update g np z) p y') = all Share.files g := by
    refine all_same_pair hNe ?_
    rw [hRest.files, hSlots, hg]
    exact hFiles
  have hLt : ∀ j, (F v).cwd = some j → j < ninode := fun j hj => by
    have hMem : j ∈ all Share.inodes (Function.update (Function.update g np z) p y') := by
      refine mem_all (p := np) ?_
      rw [Function.update_of_ne hNe, Function.update_self]
      change j ∈ cwdOf (F v)
      rw [cwdOf, hj]
      exact Multiset.mem_singleton_self j
    rw [hInodesSum] at hMem
    exact h.inodes.lt j (Multiset.mem_add.mpr (Or.inr hMem))
  have hProcs : ProcsInv w' (Function.update (Function.update g np z) p y') := by
    have hProc' : w'.fs.proc = Function.update w.fs.proc np (F v) := congrArg (fun u => Function.update w.fs.proc np (F u)) hProc
    refine h.procs.setChild hg hCalling hChild hLt hProc' rfl ?_ hAtRest ?_ rfl ?_ rfl rfl
    · exact hIdle
    · exact hNone
    · exact hCalling
  have hKnowsChild : KnowsInv w z := by
    refine ⟨fun f hf => ?_, fun f pi hf => ?_⟩
    · change f ∈ (g np).made at hf
      rw [hRest.made] at hf
      exact absurd hf (Set.notMem_empty f)
    · exact absurd (hNone.symm.trans hf) (Option.some_ne_none _).symm
  have hKnows : KnowsInv w y' := by
    refine ⟨fun f hf => ?_, fun f pi hf => ?_⟩
    · change f ∈ y.made at hf
      rw [hMade] at hf
      exact absurd hf (Set.notMem_empty f)
    · exact absurd (hUses.symm.trans hf) (Option.some_ne_none _).symm
  have hOwned : Owned w' (Function.update (Function.update g np z) p y') := by
    refine h.moved rfl rfl rfl rfl hFilesSum hInodesSum (all_same_pair hNe ?_) (all_same_pair hNe ?_) hProcs
      (knows_update (fun q _ => knows_update (fun q _ => h.knows q) hKnowsChild q) hKnows)
    · rw [hg]
    · rw [hg]
  refine ⟨_, hOwned, fun q hq => ?_, ?_⟩
  · rw [Function.update_of_ne hq]
    by_cases hqn : q = np
    · rw [hqn, Function.update_self]
      exact Or.inr ⟨hIdle, hIdle⟩
    · rw [Function.update_of_ne hqn]
      exact Or.inl rfl
  · rw [Function.update_self]
    exact hQ

end Rules

section Descriptors

variable {P : Share → Prop} {p np : Slot} {y : Share} {v : ProcFiles} {fd f ip : Nat} {m : Multiset Nat}

theorem does_setOfile (hP : P y) (hCalling : y.calling = true) {o : Option Nat} {Q : Unit → Share → Prop}
    (hQ : Q () { y with slots := { y.slots with ofile := Function.update y.slots.ofile fd o } }) : Does P p (setOfile p fd o) y Q :=
  does_setSlots (F := fun v => { v with ofile := Function.update v.ofile fd o }) hP hCalling (fun _ hj => Or.inl hj) hQ

theorem does_setCwd (hP : P y) (hCalling : y.calling = true) {o : Option Nat} (ho : ∀ j, o = some j → j ∈ y.inodes)
    {Q : Unit → Share → Prop} (hQ : Q () { y with slots := { y.slots with cwd := o } }) :
    Does P p (onFs (Fs.modifyK fun s => Fs.setCwd s p o)) y Q :=
  does_setSlots (F := fun v => { v with cwd := o }) hP hCalling (fun j hj => Or.inr (ho j hj)) hQ

theorem does_fdalloc (hP : P y) (hCalling : y.calling = true) {Q : Option Nat → Share → Prop} (hNone : Q none y)
    (hSome : ∀ fd < nofile, y.slots.ofile fd = none →
      Q (some fd) { y with slots := { y.slots with ofile := Function.update y.slots.ofile fd (some f) } }) :
    Does P p (onFs (Fs.fdalloc p f)) y Q := by
  refine does_fsAct hP hCalling fun w g a s h hg hEq => ?_
  have hSlots : w.fs.proc p = y.slots := by rw [h.procs.slots, hg]
  cases hFind : (List.range nofile).find? fun fd => (w.fs.proc p).ofile fd == none with
  | none =>
    rw [hFind] at hEq
    cases hEq
    exact ⟨g, h, .refl p g, by rw [hg]; exact hNone⟩
  | some fd =>
    rw [hFind] at hEq
    cases hEq
    have hFree := List.find?_some hFind
    rw [beq_iff_eq, hSlots] at hFree
    have hOwned := h.setSlots (v := { y.slots with ofile := Function.update y.slots.ofile fd (some f) }) hg hCalling fun _ hj => Or.inl hj
    rw [Fs.setOfile, hSlots]
    refine ⟨_, hOwned, others_update p g _, ?_⟩
    rw [Function.update_self]
    exact hSome fd (List.mem_range.mp (List.mem_of_find?_eq_some hFind)) hFree

theorem does_argfd (hP : P y) (hCalling : y.calling = true) {Q : Option Nat → Share → Prop} (hNone : Q none y)
    (hSome : ∀ f, fd < nofile → y.slots.ofile fd = some f → Q (some f) y) : Does P p (onFs (Fs.argfd p fd)) y Q := by
  refine does_fsAct hP hCalling fun w g a s h hg hEq => ?_
  cases hEq
  refine ⟨g, h, .refl p g, ?_⟩
  dsimp only
  rw [hg, h.procs.slots p, hg]
  by_cases hfd : fd < nofile
  · rw [if_pos hfd]
    cases hf : y.slots.ofile fd with
    | none => exact hNone
    | some f => exact hSome f hfd hf
  · rw [if_neg hfd]
    exact hNone

end Descriptors

end Xv6Rpi.Handles
