import Xv6Rpi.Handles.Files

/-! # The ends of pipes

An end of a pipe belongs to the file that stands for it, or to the process that opens or closes it. The process that closes
the second end is the one that frees the pipe.
-/

namespace Xv6Rpi.Handles

open Fs (Kern FsM File ProcFiles nfile nofile ninode)
open Pipes (Pipe Side)
open Prog Sharing
open Sched (Ptable Slot ProcState)

section SetPipe

variable {P : Share → Prop} {w : World} {g : Slot → Share} {p : Slot} {pi : Nat} {side : Side} {o : Option Pipe} {q : Pipe}
  {y y' : Share} {e : Multiset (Nat × Side)} {d : Multiset Nat}

def opens (o : Option Pipe) (side : Side) : Nat := if o.any (isOpen · side) then 1 else 0

def closed (o : Option Pipe) : Nat := if o.any bothClosed then 1 else 0

theorem Owned.setPipe (h : Owned w g) (hg : g p = y) (hCalling : y.calling = true)
    (hEnds : ∀ side, e.count (pi, side) + opens (w.pipe pi) side = y.ends.count (pi, side) + opens o side)
    (hOther : ∀ pi' side, pi' ≠ pi → e.count (pi', side) = y.ends.count (pi', side))
    (hFrees : d.count pi + closed (w.pipe pi) = y.frees.count pi + closed o) (hOtherFrees : ∀ pi', pi' ≠ pi → d.count pi' = y.frees.count pi') :
    Owned (setPipe w pi o) (Function.update g p { y with ends := e, frees := d }) := by
  let y' : Share := { y with ends := e, frees := d }
  change Owned _ (Function.update g p y')
  have hAllEnds := all_update Share.ends g p y'
  have hAllFrees := all_update Share.frees g p y'
  rw [hg] at hAllEnds hAllFrees
  have hCount : ∀ x, (all Share.ends (Function.update g p y')).count x + y.ends.count x = (all Share.ends g).count x + e.count x :=
    fun x => by rw [← Multiset.count_add, hAllEnds, Multiset.count_add]
  have hCountFrees : ∀ x, (all Share.frees (Function.update g p y')).count x + y.frees.count x = (all Share.frees g).count x + d.count x :=
    fun x => by rw [← Multiset.count_add, hAllFrees, Multiset.count_add]
  have hSelf : (Handles.setPipe w pi o).pipe pi = o := Function.update_self ..
  have hNe : ∀ pi', pi' ≠ pi → (Handles.setPipe w pi o).pipe pi' = w.pipe pi' := fun pi' hPi => Function.update_of_ne hPi ..
  refine ⟨?_, ?_, ⟨fun pi' side => ?_, fun pi' => ?_⟩, ?_, ?_⟩
  · rw [all_same (show y'.files = (g p).files by rw [hg])]
    exact h.files.congr (fun _ => rfl) (fun _ => rfl) rfl
  · rw [all_same (show y'.inodes = (g p).inodes by rw [hg])]
    exact h.inodes.congr rfl
  · have hWas := h.pipes.ends pi' side
    have hThis := hCount (pi', side)
    rw [Multiset.count_add] at hWas ⊢
    change (fileEnds w).count (pi', side) + _ = _
    by_cases hPi : pi' = pi
    · rw [hPi] at hWas hThis ⊢
      have hEnd := hEnds side
      rw [hSelf]
      change _ = opens o side
      change _ = opens (w.pipe pi) side at hWas
      omega
    · rw [hNe pi' hPi]
      have hEnd := hOther pi' side hPi
      omega
  · have hWas := h.pipes.frees pi'
    have hThis := hCountFrees pi'
    by_cases hPi : pi' = pi
    · rw [hPi] at hWas hThis ⊢
      rw [hSelf]
      change _ = closed o
      change _ = closed (w.pipe pi) at hWas
      omega
    · rw [hNe pi' hPi]
      have hFree := hOtherFrees pi' hPi
      omega
  · have hProcs : ProcsInv (Handles.setPipe w pi o) g := h.procs.congr rfl rfl
    exact hProcs.update (by rw [hg]; exact hCalling) hCalling (by rw [hg]) (by rw [hg])
  · have hKnows : ∀ q, KnowsInv (Handles.setPipe w pi o) (g q) := fun q => (h.knows q).congr (fun _ _ => ⟨rfl, rfl⟩) fun _ _ => rfl
    have hMine := hKnows p
    rw [hg] at hMine
    exact knows_update (fun q _ => hKnows q) ⟨hMine.made, hMine.uses⟩

theorem Owned.isOpen (h : Owned w g) (hg : g p = y) (hEnd : (pi, side) ∈ y.ends) : ∃ q, w.pipe pi = some q ∧ isOpen q side = true := by
  have hMem : (pi, side) ∈ Share.ends (g p) := by rwa [hg]
  have hAll : (pi, side) ∈ all Share.ends g := mem_all hMem
  have hPos := Multiset.count_pos.mpr hAll
  have hWas := h.pipes.ends pi side
  rw [Multiset.count_add] at hWas
  cases hPi : w.pipe pi with
  | none =>
    rw [hPi, Option.any_none, if_neg Bool.false_ne_true] at hWas
    omega
  | some q =>
    refine ⟨q, rfl, ?_⟩
    by_contra hNot
    rw [hPi, Option.any_some, if_neg hNot] at hWas
    omega

theorem Owned.toFree (h : Owned w g) (hg : g p = y) (hFree : pi ∈ y.frees) : ∃ q, w.pipe pi = some q ∧ bothClosed q = true := by
  have hMem : pi ∈ Share.frees (g p) := by rwa [hg]
  have hAll : pi ∈ all Share.frees g := mem_all hMem
  have hPos := Multiset.count_pos.mpr hAll
  have hWas := h.pipes.frees pi
  cases hPi : w.pipe pi with
  | none =>
    rw [hPi, Option.any_none, if_neg Bool.false_ne_true] at hWas
    omega
  | some q =>
    refine ⟨q, rfl, ?_⟩
    by_contra hNot
    rw [hPi, Option.any_some, if_neg hNot] at hWas
    omega

theorem opens_some {q : Pipe} (h : isOpen q side = true) : opens (some q) side = 1 := if_pos h

theorem opens_of_not {q : Pipe} (h : isOpen q side = false) : opens (some q) side = 0 :=
  if_neg (show ¬isOpen q side = true by rw [h]; exact Bool.false_ne_true)

theorem isOpen_close (q : Pipe) (side : Side) : isOpen (q.close side) side = false := by
  cases side with
  | read => rfl
  | write => rfl

theorem isOpen_close_other (q : Pipe) {s t : Side} (h : t ≠ s) : isOpen (q.close s) t = isOpen q t := by
  cases s with
  | read =>
    cases t with
    | read => exact absurd rfl h
    | write => rfl
  | write =>
    cases t with
    | read => rfl
    | write => exact absurd rfl h

theorem not_bothClosed (h : isOpen q side = true) : bothClosed q = false := by
  cases side with
  | read =>
    have hOpen : q.readopen = true := h
    rw [bothClosed, hOpen]
    rfl
  | write =>
    have hOpen : q.writeopen = true := h
    rw [bothClosed, hOpen, Bool.not_true, Bool.and_false]

theorem isOpen_of_bothClosed (h : bothClosed q = true) (side : Side) : isOpen q side = false := by
  by_contra hOpen
  rw [not_bothClosed (Bool.eq_true_of_not_eq_false hOpen)] at h
  cases h

end SetPipe

section Rules

variable {P : Share → Prop} {p : Slot} {pi : Nat} {side : Side} {y : Share} {e : Multiset (Nat × Side)} {d : Multiset Nat}

theorem does_kfreePipe (hP : P y) (hCalling : y.calling = true) (hd : y.frees = pi ::ₘ d) {Q : Unit → Share → Prop}
    (hQ : Q () { y with frees := d }) : Does P p (kfreePipe pi) y Q := by
  refine does_act hP hCalling fun w g h hg => ?_
  obtain ⟨q, hPi, hBoth⟩ := h.toFree hg (by rw [hd]; exact Multiset.mem_cons_self pi d)
  have hClosed : closed (some q) = 1 := if_pos hBoth
  have hOwned : Owned (setPipe w pi none) (Function.update g p { y with ends := y.ends, frees := d }) := by
    refine h.setPipe hg hCalling (fun side => ?_) (fun _ _ _ => rfl) ?_ fun pi' hNe => ?_
    · rw [hPi, opens_of_not (isOpen_of_bothClosed hBoth side)]
      rfl
    · rw [hPi, hClosed, hd, Multiset.count_cons_self]
      rfl
    · rw [hd, Multiset.count_cons_of_ne hNe]
  rw [hPi]
  refine ⟨_, hOwned, others_update p g _, ?_⟩
  rw [Function.update_self]
  exact hQ

theorem does_pipeclose (hP : ∀ y, P y) (hCalling : y.calling = true) (he : y.ends = (pi, side) ::ₘ e) {Q : Unit → Share → Prop}
    (hQ : Q () { y with ends := e }) : Does P p (pipeclose pi side) y Q := by
  refine does_bind (does_act (hP y) hCalling fun w g h hg => ?_)
  obtain ⟨q, hPi, hOpen⟩ := h.isOpen hg (by rw [he]; exact Multiset.mem_cons_self (pi, side) e)
  have hNotBoth : closed (some q) = 0 := if_neg (by rw [Option.any_some, not_bothClosed hOpen]; exact Bool.false_ne_true)
  let d : Multiset Nat := if bothClosed (q.close side) then pi ::ₘ y.frees else y.frees
  have hOwned : Owned (setPipe w pi (some (q.close side))) (Function.update g p { y with ends := e, frees := d }) := by
    refine h.setPipe hg hCalling (fun t => ?_) (fun pi' t hNe => ?_) ?_ fun pi' hNe => ?_
    · rw [hPi, he]
      by_cases ht : t = side
      · rw [ht, opens_some hOpen, opens_of_not (isOpen_close q side), Multiset.count_cons_self]
      · have hSame : opens (some (q.close side)) t = opens (some q) t := by
          rw [opens, opens, Option.any_some, Option.any_some, isOpen_close_other q ht]
        rw [hSame, Multiset.count_cons_of_ne fun hEq => ht (Prod.mk.inj hEq).2]
    · rw [he, Multiset.count_cons_of_ne fun hEq => hNe (Prod.mk.inj hEq).1]
    · rw [hPi, hNotBoth]
      cases hBoth : bothClosed (q.close side) with
      | true =>
        have hd : d = pi ::ₘ y.frees := if_pos hBoth
        rw [hd, Multiset.count_cons_self, closed, Option.any_some, hBoth, if_pos rfl]
      | false =>
        have hd : d = y.frees := if_neg (by rw [hBoth]; exact Bool.false_ne_true)
        rw [hd, closed, Option.any_some, hBoth, if_neg Bool.false_ne_true]
    · cases hBoth : bothClosed (q.close side) with
      | true =>
        have hd : d = pi ::ₘ y.frees := if_pos hBoth
        rw [hd, Multiset.count_cons_of_ne hNe]
      | false =>
        have hd : d = y.frees := if_neg (by rw [hBoth]; exact Bool.false_ne_true)
        rw [hd]
  rw [hPi]
  refine ⟨_, hOwned, others_update p g _, ?_⟩
  rw [Function.update_self]
  cases hBoth : bothClosed (q.close side) with
  | true =>
    have hd : d = pi ::ₘ y.frees := if_pos hBoth
    rw [hd, if_pos rfl]
    refine does_kfreePipe (d := y.frees) (hP _) ?_ rfl hQ
    exact hCalling
  | false =>
    have hd : d = y.frees := if_neg (by rw [hBoth]; exact Bool.false_ne_true)
    rw [hd, if_neg Bool.false_ne_true]
    exact holds_pure hQ

theorem does_kmallocPipe (hP : P y) (hCalling : y.calling = true) {mem : Option (Nat × (Nat → UInt8))} {Q : Option Nat → Share → Prop}
    (hNone : Q none y) (hSome : ∀ pi, Q (some pi) { y with ends := (pi, .read) ::ₘ (pi, .write) ::ₘ y.ends }) :
    Does P p (kmallocPipe mem) y Q := by
  refine does_act hP hCalling fun w g h hg => ?_
  cases mem with
  | none => exact ⟨g, h, .refl p g, by rw [hg]; exact hNone⟩
  | some r =>
    obtain ⟨pi, data⟩ := r
    dsimp only
    cases hPi : w.pipe pi with
    | some q => exact fun hEq => by cases hEq
    | none =>
      have hOwned : Owned (setPipe w pi (some ⟨data, 0, 0, true, true⟩))
          (Function.update g p { y with ends := (pi, .read) ::ₘ (pi, .write) ::ₘ y.ends, frees := y.frees }) := by
        refine h.setPipe hg hCalling (fun t => ?_) (fun pi' t hNe => ?_) ?_ fun _ _ => rfl
        · rw [hPi]
          cases t with
          | read =>
            rw [Multiset.count_cons_self, Multiset.count_cons_of_ne (by simp)]
            rfl
          | write =>
            rw [Multiset.count_cons_of_ne (by simp), Multiset.count_cons_self]
            rfl
        · rw [Multiset.count_cons_of_ne fun hEq => hNe (Prod.mk.inj hEq).1, Multiset.count_cons_of_ne fun hEq => hNe (Prod.mk.inj hEq).1]
        · rw [hPi]
          rfl
      refine ⟨_, hOwned, others_update p g _, ?_⟩
      rw [Function.update_self]
      exact hSome pi

end Rules

end Xv6Rpi.Handles
