import Xv6Rpi.Fs.Directory
import Xv6Rpi.Fs.Elements
import Xv6Rpi.Fs.Reading

/-! # Walking along a path

`namex` goes from directory to directory, holding a reference to each while it is locked and
looked through. What it comes to is a fold over the elements of the path; what it leaves behind is one
reference to the inode that it returns.
-/

namespace Xv6Rpi.Fs

open Prog

/-- The inode `k` stays allocated when a reference to it is dropped that was not there in `s`. -/
structure Lasts (sb : Superblock) (s : Kern) (k : Nat) : Prop where
  lt : k < sb.ninodes
  type : (eff s k).type ≠ 0
  kept : (eff s k).nlink ≠ 0 ∨ ∃ j < ninode, 0 < (s.inode j).ref ∧ (s.inode j).inum = k

/-- A directory tree on which nobody else is at work. -/
structure Tree (sb : Superblock) (s : Kern) : Prop where
  sound : Sound sb s ∅
  held : ∀ n, s.held n = false
  idle : ∀ j < ninode, 0 < (s.inode j).ref → (s.inode j).busy = false
  refs : ∀ j < ninode, 0 ≤ (s.inode j).ref
  root : Lasts sb s rootino
  full : ∀ k < sb.ninodes, (files s k).type = tDir → NoHoles (home s) (eff s k) ∧ direntSz ∣ (files s k).size
  entry : ∀ k < sb.ninodes, (files s k).type = tDir → ∀ i name v, entries (files s k) i = some (name, v) → Lasts sb s v

/-- Since `s` the references in `l` have been taken, and the inode `lock` is locked. -/
structure Took (sb : Superblock) (s s' : Kern) (lock : Option Nat) (l : List Nat) : Prop where
  state : s' = { s with inode := s'.inode }
  lt : ∀ j ∈ l, j < ninode
  locked : ∀ j, lock = some j → j ∈ l
  refs : ∀ j, (s'.inode j).ref = (s.inode j).ref + l.count j
  inum : ∀ j, 0 < (s.inode j).ref → (s'.inode j).inum = (s.inode j).inum
  busy : ∀ j < ninode, 0 < (s'.inode j).ref → ((s'.inode j).busy = true ↔ lock = some j)
  fresh : ∀ j, (s.inode j).ref = 0 → LiveSlot s' j → (s'.inode j).di = dinodeOf (home s) (s'.inode j).inum
  sound : Sound sb s' ∅
  eff : ∀ k, eff s' k = eff s k

section Took

variable {sb : Superblock} {s s' : Kern} {lock lock' : Option Nat} {l l' : List Nat} {ip j k : Nat} {x : Inode}

theorem Tree.took (h : Tree sb s) : Took sb s s none [] where
  state := rfl
  lt _ hj := absurd hj List.not_mem_nil
  locked _ hj := absurd hj.symm (Option.some_ne_none _)
  refs j := by
    rw [List.count_nil]
    exact (Int.add_zero _).symm
  inum _ _ := rfl
  busy j hj hr := by
    rw [h.idle j hj hr]
    exact iff_of_false Bool.false_ne_true (Option.some_ne_none j).symm
  fresh j hz hl := absurd hl.ref (by omega)
  sound := h.sound
  eff _ := rfl

theorem Took.home (h : Took sb s s' lock l) : home s' = home s := by rw [h.state]; rfl

theorem Took.held (h : Took sb s s' lock l) : s'.held = s.held := by rw [h.state]

theorem Took.files (h : Took sb s s' lock l) (k : Nat) : files s' k = files s k := by
  rw [Fs.files, Fs.files, h.home, h.eff]

theorem Took.ref_pos (h : Took sb s s' lock l) (hT : Tree sb s) (hj : j ∈ l) : 0 < (s'.inode j).ref := by
  have hOld := hT.refs j (h.lt j hj)
  have hCount := List.count_pos_iff.mpr hj
  rw [h.refs]
  omega

theorem Took.set (h : Took sb s s' lock l) (hIn : ip < ninode) (hLt : ∀ j ∈ l', j < ninode)
    (hLocked : ∀ j, lock' = some j → j ∈ l') (hCount : ∀ j, j ≠ ip → l'.count j = l.count j) (hRef : x.ref = (s.inode ip).ref + l'.count ip)
    (hInum : 0 < (s.inode ip).ref → x.inum = (s.inode ip).inum) (hOthers : ∀ j, j ≠ ip → (lock' = some j ↔ lock = some j))
    (hBusy : 0 < x.ref → (x.busy = true ↔ lock' = some ip))
    (hUniq : 0 < x.ref → ∀ j < ninode, j ≠ ip → 0 < (s'.inode j).ref → (s'.inode j).inum ≠ x.inum)
    (hBound : 0 < x.ref → x.inum < sb.ninodes)
    (hGain : 0 < x.ref → x.valid = true → x.di = Fs.eff s' x.inum ∧
      ((s.inode ip).ref = 0 → x.di = dinodeOf (Fs.home s) x.inum))
    (hLose : LiveSlot s' ip → 0 < x.ref ∧ x.valid = true ∧ x.inum = (s'.inode ip).inum ∨
      (s'.inode ip).di = dinodeOf (Fs.home s) (s'.inode ip).inum) : Took sb s (setInode s' ip x) lock' l' := by
  have hs : Reslot ip s' (setInode s' ip x) := .of_set h.sound.mounted.log ip x
  have hSelf : (setInode s' ip x).inode ip = x := setInode_self ..
  have hC : CacheInv sb (setInode s' ip x) := by
    refine h.sound.cache.reslot hs ?_ ?_ fun hl => ?_
    · rwa [hSelf]
    · rwa [hSelf]
    · have hr := hl.ref
      have hv := hl.valid
      rw [hSelf] at hr hv ⊢
      rw [(hGain hr hv).1]
      exact h.sound.cache.eff_ok _
  have hEff : ∀ k, Fs.eff (setInode s' ip x) k = Fs.eff s' k := by
    refine hs.eff h.sound.cache hC (fun hl => ?_) fun hl => ?_
    · have hr := hl.ref
      have hv := hl.valid
      rw [hSelf] at hr hv ⊢
      exact (hGain hr hv).1
    · rw [hSelf]
      rcases hLose hl with ⟨hr, hv, hEq⟩ | hDisk
      · exact Or.inl ⟨⟨hIn, by rwa [hSelf], by rwa [hSelf]⟩, hEq⟩
      · exact Or.inr (by rw [hDisk, h.home])
  refine ⟨?_, hLt, hLocked, fun j => ?_, fun j hj => ?_, fun j hj hr => ?_, fun j hz hl => ?_, ?_, fun k => (hEff k).trans (h.eff k)⟩
  · rw [h.state]
    rfl
  · by_cases hj : j = ip
    · rw [hj, hSelf, hRef]
    · rw [setInode_of_ne hj, h.refs, hCount j hj]
  · by_cases hEq : j = ip
    · rw [hEq] at hj ⊢
      rw [hSelf, hInum hj]
    · rw [setInode_of_ne hEq, h.inum j hj]
  · by_cases hEq : j = ip
    · rw [hEq, hSelf] at hr ⊢
      exact hBusy hr
    · rw [setInode_of_ne hEq] at hr ⊢
      rw [h.busy j hj hr, hOthers j hEq]
  · by_cases hEq : j = ip
    · have hr := hl.ref
      have hv := hl.valid
      rw [hEq] at hz
      rw [hEq, hSelf] at hr hv ⊢
      exact (hGain hr hv).2 hz
    · rw [setInode_of_ne hEq]
      exact h.fresh j hz ((hs.live hEq).mp hl)
  · exact (h.sound.steady.reslot hs hC hEff).toSound

theorem Took.iget (h : Took sb s s' lock l) (hT : Tree sb s) (hk : k < sb.ninodes) :
    (∃ ip s₁, (iget k).run s' = .ok (ip, s₁) ∧ Took sb s s₁ lock (ip :: l) ∧ (s₁.inode ip).inum = k ∧
        ∀ j, 0 < (s'.inode j).ref → (s₁.inode j).inum = (s'.inode j).inum) ∨
      (Fs.iget k).run s' = .error (.panic .igetNoInodes) ∧ CacheFull s' k := by
  refine (run_iget s' k).imp_left ?_
  rintro ⟨ip, s₁, hRun, hGot⟩
  have hOld := hT.refs ip hGot.lt
  have hRef : (s₁.inode ip).ref = (s.inode ip).ref + (ip :: l).count ip := by
    rw [hGot.ref, h.refs, List.count_cons_self]
    push_cast
    ring
  have hInum : ∀ j, 0 < (s'.inode j).ref → (s₁.inode j).inum = (s'.inode j).inum := fun j hj => by
    rw [hGot.state]
    by_cases hEq : j = ip
    · rw [hEq] at hj ⊢
      rw [setInode_self, hGot.keep hj]
    · rw [setInode_of_ne hEq]
  refine ⟨ip, s₁, hRun, ?_, hGot.inum, hInum⟩
  have hUsed : 0 < (s'.inode ip).ref ∨ (s'.inode ip).ref = 0 := hGot.used.lt_or_eq.imp_right Eq.symm
  have hLive : ∀ {P : Prop}, (0 < (s'.inode ip).ref → s₁.inode ip = { s'.inode ip with ref := (s'.inode ip).ref + 1 } → P) →
      ((s'.inode ip).ref = 0 → P) → P := fun hPos hz => hUsed.elim (fun hj => hPos hj (hGot.keep hj)) hz
  rw [hGot.state]
  refine h.set hGot.lt (List.forall_mem_cons.mpr ⟨hGot.lt, h.lt⟩)
    (fun j hj => List.mem_cons_of_mem _ (h.locked j hj)) (fun j hj => List.count_cons_of_ne hj.symm) hRef
    (fun hj => ?_) (fun _ _ => Iff.rfl) (fun _ => ?_) (fun _ j hj hne hr hEq => ?_) (fun _ => by rwa [hGot.inum]) (fun hr hv => ?_)
    fun hl => ?_
  · have hPos : 0 < (s'.inode ip).ref := by
      rw [h.refs]
      omega
    rw [hInum ip hPos, h.inum ip hj]
  · refine hLive (fun hPos hSlot => ?_) fun hz => ?_
    · rw [hSlot]
      exact h.busy ip hGot.lt hPos
    · rw [(hGot.fresh hz).2]
      refine iff_of_false Bool.false_ne_true fun hLock => ?_
      have := h.ref_pos hT (h.locked ip hLock)
      omega
  · rw [hGot.inum] at hEq
    refine hLive (fun hPos hSlot => ?_) fun hz => hGot.new hz j hj hr hEq
    rw [← hGot.inum, hInum ip hPos] at hEq
    exact hne (h.sound.cache.uniq j hj ip hGot.lt hr hPos hEq)
  · refine hLive (fun hPos hSlot => ?_) fun hz => ?_
    · rw [hSlot] at hv ⊢
      have hl : LiveSlot s' ip := ⟨hGot.lt, hPos, hv⟩
      exact ⟨(h.sound.cache.eff_live hl).symm, fun hz => h.fresh ip hz hl⟩
    · rw [(hGot.fresh hz).1] at hv
      cases hv
  · rw [hGot.keep hl.ref]
    exact Or.inl ⟨by have := hl.ref; dsimp only; omega, hl.valid, rfl⟩

theorem Took.not_twoSpare (h : Took sb s s' lock l) (hLen : l.length ≤ 1) (hFull : CacheFull s' k) : ¬TwoSpare s := by
  rintro ⟨i, hi, j, hj, hne, hzi, hzj⟩
  have hIn : ∀ a < ninode, (s.inode a).ref = 0 → a ∈ l := fun a ha hz => by
    have hRef := (hFull a ha).1
    rw [h.refs, hz] at hRef
    rw [← List.count_pos_iff]
    omega
  obtain ⟨a, rfl⟩ : ∃ a, l = [a] := List.length_eq_one_iff.mp (by
    have := List.length_pos_of_mem (hIn i hi hzi)
    omega)
  have hi := List.mem_singleton.mp (hIn i hi hzi)
  have hj := List.mem_singleton.mp (hIn j hj hzj)
  exact hne (hi.trans hj.symm)

theorem Took.eff_slot (h : Took sb s s' lock l) (hIn : ip < ninode) (hPos : 0 < (s'.inode ip).ref) :
    Fs.eff s (s'.inode ip).inum =
      if (s'.inode ip).valid then (s'.inode ip).di else dinodeOf (Fs.home s') (s'.inode ip).inum := by
  rw [← h.eff]
  by_cases hValid : (s'.inode ip).valid = true
  · rw [if_pos hValid, h.sound.cache.eff_live ⟨hIn, hPos, hValid⟩]
  · rw [if_neg hValid]
    apply eff_of_dead
    intro j hl hEq
    obtain rfl := h.sound.cache.uniq j hl.lt ip hIn hl.ref hPos hEq
    exact hValid hl.valid

theorem Took.ilock (hG : Geom sb) (h : Took sb s s' none l) (hT : Tree sb s) (hIp : ip ∈ l)
    (hType : (Fs.eff s (s'.inode ip).inum).type ≠ 0) : ∃ s₁, (ilock ip).run s' = .ok ((), s₁) ∧ Took sb s s₁ (some ip) l ∧
      LiveSlot s₁ ip ∧ (s₁.inode ip).inum = (s'.inode ip).inum ∧ (s₁.inode ip).di = Fs.eff s (s'.inode ip).inum := by
  have hIn := h.lt ip hIp
  have hPos := h.ref_pos hT hIp
  have hBusy : (s'.inode ip).busy = false := by
    have := h.busy ip hIn hPos
    simpa using this
  have hEff := h.eff_slot hIn hPos
  have hBlk : dinodeOf (Fs.home s') (s'.inode ip).inum = dinodeOf s'.disk (s'.inode ip).inum := by
    have hNot := h.sound.mounted.not_holds (hG.iblock_lt_log (h.sound.cache.inum ip hIn hPos))
    rw [dinodeOf, dinodeOf, home_of_not_holds hNot]
  refine ⟨_, run_ilock (by rw [h.held]; exact hT.held) hPos hBusy (by rw [hEff, hBlk]) hType, ?_,
    ⟨hIn, by rw [setInode_self]; exact hPos, by rw [setInode_self]⟩, by rw [setInode_self], by rw [setInode_self]⟩
  refine h.set hIn h.lt (fun j hj => ?_) (fun _ _ => rfl) (h.refs ip) (h.inum ip) (fun j hj => ?_) (fun _ => iff_of_true rfl rfl)
    (fun _ j hj hne hr hEq => hne (h.sound.cache.uniq j hj ip hIn hr hPos hEq)) (fun _ => h.sound.cache.inum ip hIn hPos)
    (fun _ _ => ⟨by rw [h.eff], fun hz => ?_⟩) fun _ => Or.inl ⟨hPos, rfl, rfl⟩
  · rwa [← Option.some.inj hj]
  · exact iff_of_false (fun hEq => hj (Option.some.inj hEq).symm) (Option.some_ne_none j).symm
  · dsimp only
    rw [hEff, h.home]
    split
    · rename_i hValid
      exact h.fresh ip hz ⟨hIn, hPos, hValid⟩
    · rfl

theorem Took.iunlock (h : Took sb s s' (some ip) l) (hT : Tree sb s) : ∃ s₁, (iunlock ip).run s' = .ok ((), s₁) ∧
    Took sb s s₁ none l ∧ (s₁.inode ip).inum = (s'.inode ip).inum := by
  have hIp := h.locked ip rfl
  have hIn := h.lt ip hIp
  have hPos := h.ref_pos hT hIp
  refine ⟨_, run_iunlock ((h.busy ip hIn hPos).mpr rfl) hPos, ?_, by rw [setInode_self]⟩
  refine h.set hIn h.lt (fun j hj => absurd hj.symm (Option.some_ne_none j)) (fun _ _ => rfl) (h.refs ip) (h.inum ip)
    (fun j hj => ?_) (fun _ => iff_of_false Bool.false_ne_true (Option.some_ne_none ip).symm)
    (fun _ j hj hne hr hEq => hne (h.sound.cache.uniq j hj ip hIn hr hPos hEq)) (fun _ => h.sound.cache.inum ip hIn hPos)
    (fun _ hv => ?_) fun hl => Or.inl ⟨hPos, hl.valid, rfl⟩
  · exact iff_of_false (Option.some_ne_none j).symm fun hEq => hj (Option.some.inj hEq).symm
  · have hl : LiveSlot s' ip := ⟨hIn, hPos, hv⟩
    exact ⟨(h.sound.cache.eff_live hl).symm, fun hz => h.fresh ip hz hl⟩

theorem Took.drop (h : Took sb s s' lock l) (hT : Tree sb s) (hIp : ip ∈ l) (hLock : ∀ j, lock = some j → j = ip) :
    Took sb s (setInode s' ip { s'.inode ip with busy := false, ref := (s'.inode ip).ref - 1 }) none (l.erase ip) := by
  have hIn := h.lt ip hIp
  have hPos := h.ref_pos hT hIp
  have hOld := hT.refs ip hIn
  have hCount := List.count_pos_iff.mpr hIp
  have hRefs := h.refs ip
  have hSelf : (l.erase ip).count ip = l.count ip - 1 := List.count_erase_self ..
  refine h.set hIn (fun j hj => h.lt j (List.mem_of_mem_erase hj)) (fun j hj => absurd hj.symm (Option.some_ne_none j))
    (fun j hj => List.count_erase_of_ne hj) ?_ (h.inum ip) (fun j hj => ?_)
    (fun _ => iff_of_false Bool.false_ne_true (Option.some_ne_none ip).symm)
    (fun _ j hj hne hr hEq => hne (h.sound.cache.uniq j hj ip hIn hr hPos hEq)) (fun _ => h.sound.cache.inum ip hIn hPos)
    (fun _ hv => ?_) fun hl => ?_
  · dsimp only
    rw [hRefs, hSelf]
    omega
  · exact iff_of_false (Option.some_ne_none j).symm fun hEq => hj (hLock j hEq)
  · have hl : LiveSlot s' ip := ⟨hIn, hPos, hv⟩
    exact ⟨(h.sound.cache.eff_live hl).symm, fun hz => h.fresh ip hz hl⟩
  · dsimp only
    by_cases hOne : (s'.inode ip).ref = 1
    · exact Or.inr (h.fresh ip (by omega) hl)
    · exact Or.inl ⟨by omega, hl.valid, rfl⟩

theorem Took.kept (h : Took sb s s' lock l) (hT : Tree sb s) (hIp : ip ∈ l) (hLast : Lasts sb s (s'.inode ip).inum) :
    ¬((s'.inode ip).ref = 1 ∧ (s'.inode ip).valid = true ∧ (s'.inode ip).di.nlink = 0) := by
  rintro ⟨hOne, hValid, hLink⟩
  have hIn := h.lt ip hIp
  have hPos := h.ref_pos hT hIp
  rcases hLast.kept with hNz | ⟨j, hj, hRef, hEq⟩
  · rw [← h.eff, h.sound.cache.eff_live ⟨hIn, hPos, hValid⟩] at hNz
    exact hNz hLink
  · have hRefJ : 0 < (s'.inode j).ref := by
      rw [h.refs]
      omega
    rw [← h.inum j hRef] at hEq
    obtain rfl := h.sound.cache.uniq j hj ip hIn hRefJ hPos hEq
    have hCount := List.count_pos_iff.mpr hIp
    have := h.refs j
    omega

theorem Took.iput (h : Took sb s s' none l) (hT : Tree sb s) (hIp : ip ∈ l) (hLast : Lasts sb s (s'.inode ip).inum) :
    ∃ s₁, (iput ip).run s' = .ok ((), s₁) ∧ Took sb s s₁ none (l.erase ip) := by
  have hBusy : (s'.inode ip).busy = false := by
    have := h.busy ip (h.lt ip hIp) (h.ref_pos hT hIp)
    simpa using this
  have hDrop := h.drop hT hIp fun j hj => absurd hj.symm (Option.some_ne_none j)
  rw [← hBusy] at hDrop
  exact ⟨_, run_iput (h.kept hT hIp hLast), hDrop⟩

theorem Took.iunlockput (h : Took sb s s' (some ip) l) (hT : Tree sb s) (hLast : Lasts sb s (s'.inode ip).inum) :
    ∃ s₁, (iunlockput ip).run s' = .ok ((), s₁) ∧ Took sb s s₁ none (l.erase ip) ∧
      ∀ j, (s₁.inode j).inum = (s'.inode j).inum := by
  have hIp := h.locked ip rfl
  have hPos := h.ref_pos hT hIp
  have hUnlock := run_iunlock ((h.busy ip (h.lt ip hIp) hPos).mpr rfl) hPos
  have hDrop := h.drop hT hIp fun j hj => (Option.some.inj hj).symm
  refine ⟨_, ?_, hDrop, fun j => ?_⟩
  · have hKept := h.kept hT hIp hLast
    rw [Fs.iunlockput, run_bind, hUnlock]
    dsimp only
    rw [run_iput (by rwa [setInode_self]), setInode_idem, setInode_self]
  · by_cases hEq : j = ip
    · rw [hEq, setInode_self]
    · rw [setInode_of_ne hEq]

end Took

/-- One element further: the inode that its name has in the directory `k`. -/
def descend (s : Kern) (k : Nat) (elem : List UInt8) : Option Nat :=
  if (files s k).type = tDir then ((files s k).find elem).map Prod.fst else none

def walk (s : Kern) (parent : Bool) : Nat → List (List UInt8) → List UInt8 → Option (Nat × List UInt8)
  | k, [], name => if parent then none else some (k, name)
  | k, elem :: elems, _ =>
    if (files s k).type = tDir then
      if parent ∧ elems = [] then some (k, elem)
      else ((files s k).find elem).bind fun r => walk s parent r.1 elems elem
    else none

/-- `x` returns a reference to the inode that is looked for, and takes no other; or there is
no unused entry in the inode cache for one on the way. -/
def Arrives (sb : Superblock) (s s' : Kern) (x : FsM (Option (Nat × List UInt8))) (w : Option (Nat × List UInt8)) : Prop :=
  (∃ r s₁, x.run s' = .ok (r, s₁) ∧ Took sb s s₁ none (r.map Prod.fst).toList ∧
    r.map (fun e => ((s₁.inode e.1).inum, e.2)) = w) ∨
  x.run s' = .error (.panic .igetNoInodes) ∧ ¬TwoSpare s

section Walk

variable {sb : Superblock} {s s' : Kern} {ip fuel : Nat} {path name : List UInt8}

theorem run_namexFrom (hG : Geom sb) (hT : Tree sb s) (parent : Bool) (h : Took sb s s' none [ip])
    (hLast : Lasts sb s (s'.inode ip).inum) (hFuel : path.length < fuel) :
    Arrives sb s s' (namexFrom parent fuel ip path name) (walk s parent (s'.inode ip).inum (elems path) name) := by
  induction fuel generalizing s' ip path name with
  | zero => exact absurd hFuel (Nat.not_lt_zero _)
  | succ fuel ih =>
    have hIp : ip ∈ [ip] := List.mem_singleton_self ip
    rw [namexFrom]
    cases hSkip : skipelem path with
    | none =>
      rw [skipelem_none hSkip, walk]
      cases parent with
      | true =>
        obtain ⟨s₁, hRun, h₁⟩ := h.iput hT hIp hLast
        refine Or.inl ⟨none, s₁, ?_, ?_, rfl⟩
        · dsimp only
          rw [if_pos rfl, run_bind, hRun]
          rfl
        · rwa [List.erase_cons_head] at h₁
      | false => exact Or.inl ⟨some (ip, name), s', rfl, h, rfl⟩
    | some r =>
      obtain ⟨elem, rest⟩ := r
      obtain ⟨hElems, hEnd, hLen⟩ := skipelem_some hSkip
      obtain ⟨s₁, hRun₁, h₁, hl₁, hInum₁, hDi₁⟩ := h.ilock hG hT hIp hLast.type
      have hFile : files s₁ (s₁.inode ip).inum = files s (s'.inode ip).inum := by rw [h₁.files, hInum₁]
      have hType : (s₁.inode ip).di.type = (files s (s'.inode ip).inum).type := by
        rw [files, fileOf_type, hDi₁]
      have hLast₁ : Lasts sb s (s₁.inode ip).inum := by rwa [hInum₁]
      have hInode : (getInode ip).run s₁ = .ok (s₁.inode ip, s₁) := rfl
      have hPut := h₁.iunlockput hT hLast₁
      rw [List.erase_cons_head] at hPut
      rw [hElems, walk, Arrives]
      dsimp only
      rw [run_bind, hRun₁]
      dsimp only
      rw [run_bind, hInode]
      dsimp only
      rw [hType]
      by_cases hDir : (files s (s'.inode ip).inum).type = tDir
      · rw [if_neg (not_not.mpr hDir), if_pos hDir]
        by_cases hStop : parent = true ∧ rest = []
        · obtain ⟨s₂, hRun₂, h₂, hInum₂⟩ := h₁.iunlock hT
          rw [if_pos hStop, if_pos (by rw [← hEnd]; exact hStop), run_bind, hRun₂]
          exact Or.inl ⟨some (ip, elem), s₂, rfl, h₂, by rw [Option.map_some, hInum₂, hInum₁]⟩
        · rw [if_neg hStop, if_neg (by rw [← hEnd]; exact hStop), run_bind]
          have hShows : ShowsDir s₁ ip (files s (s'.inode ip).inum) := by
            obtain ⟨hFull, hAlign⟩ := hT.full _ hLast.lt hDir
            have hFull₁ : NoHoles (home s₁) (s₁.inode ip).di := by rwa [h₁.home, hDi₁]
            have hShows := h₁.sound.shows hl₁ (by rw [hDi₁]; exact hLast.type) hFull₁
            rw [hFile] at hShows
            exact ⟨hShows, hDir, hAlign⟩
          have hHeld₁ : ∀ n, s₁.held n = false := by
            rw [h₁.held]
            exact hT.held
          rw [(hShows.leads_dirlookup elem).run hHeld₁]
          cases hFind : (files s (s'.inode ip).inum).find elem with
          | none =>
            obtain ⟨s₂, hRun₂, h₂, -⟩ := hPut
            rw [dirFound, run_pure]
            dsimp only
            rw [run_bind, hRun₂]
            exact Or.inl ⟨none, s₂, rfl, h₂, rfl⟩
          | some r =>
            obtain ⟨k, i⟩ := r
            have hEntry := (slotFind_eq_some.mp hFind).1
            have hNext := hT.entry _ hLast.lt hDir i _ k hEntry
            rw [dirFound, run_bind]
            rcases h₁.iget hT hNext.lt with ⟨next, s₂, hRun₂, h₂, hInum₂, hSame₂⟩ | ⟨hRun₂, hFull⟩
            · have hIpInum : (s₂.inode ip).inum = (s'.inode ip).inum := by
                rw [hSame₂ ip hl₁.ref, hInum₁]
              obtain ⟨s₃, hRun₃, h₃, hSame₃⟩ := h₂.iunlockput hT (by rwa [hIpInum])
              have hErase : [next, ip].erase ip = [next] := by
                by_cases hEq : next = ip
                · rw [hEq, List.erase_cons_head]
                · rw [List.erase_cons_tail (by rwa [beq_iff_eq]), List.erase_cons_head]
              rw [hErase] at h₃
              have hRest := @ih _ _ _ elem h₃ (by rwa [hSame₃, hInum₂]) (show rest.length < fuel by omega)
              rw [hSame₃, hInum₂] at hRest
              rw [hRun₂]
              dsimp only [run_pure]
              rw [run_bind, hRun₃]
              exact hRest
            · rw [hRun₂]
              exact Or.inr ⟨rfl, h₁.not_twoSpare (by rw [List.length_singleton]) hFull⟩
      · obtain ⟨s₂, hRun₂, h₂, -⟩ := hPut
        rw [if_pos hDir, if_neg hDir, run_bind, hRun₂]
        exact Or.inl ⟨none, s₂, rfl, h₂, rfl⟩

theorem walk_false (s : Kern) (k : Nat) (es : List (List UInt8)) (name : List UInt8) :
    (walk s false k es name).map Prod.fst = es.foldlM (descend s) k := by
  induction es generalizing k name with
  | nil => rfl
  | cons e es ih =>
    rw [walk, List.foldlM_cons, descend]
    by_cases hDir : (files s k).type = tDir
    · rw [if_pos hDir, if_pos hDir, if_neg (fun hNo => Bool.false_ne_true hNo.1)]
      cases (files s k).find e with
      | none => rfl
      | some r => exact ih r.1 e
    · rw [if_neg hDir, if_neg hDir]
      rfl

theorem walk_true (s : Kern) (k : Nat) {es : List (List UInt8)} (hNe : es ≠ []) (name : List UInt8) :
    walk s true k es name = ((es.dropLast.foldlM (descend s) k).filter fun k' => (files s k').type = tDir).map
      fun k' => (k', es.getLast hNe) := by
  induction es generalizing k name with
  | nil => exact absurd rfl hNe
  | cons e es ih =>
    rw [walk]
    cases es with
    | nil =>
      rw [List.dropLast_singleton, List.foldlM_nil, List.getLast_singleton, Option.pure_def, Option.filter_some]
      by_cases hDir : (files s k).type = tDir
      · rw [if_pos hDir, if_pos ⟨rfl, rfl⟩, if_pos (by rwa [decide_eq_true_eq])]
        rfl
      · rw [if_neg hDir, if_neg (by rwa [decide_eq_true_eq])]
        rfl
    | cons e' es =>
      rw [List.dropLast_cons_cons, List.foldlM_cons, List.getLast_cons (List.cons_ne_nil _ _), descend]
      by_cases hDir : (files s k).type = tDir
      · rw [if_pos hDir, if_pos hDir, if_neg fun hNo => List.cons_ne_nil _ _ hNo.2]
        cases (files s k).find e with
        | none => rfl
        | some r => exact ih r.1 (List.cons_ne_nil _ _) e
      · rw [if_neg hDir, if_neg hDir]
        rfl

end Walk

/-- The process has a current directory, in the cache entry `ip`. -/
structure CwdAt (s : Kern) (p ip : Nat) : Prop where
  cwd : (s.proc p).cwd = some ip
  lt : ip < ninode
  ref : 0 < (s.inode ip).ref
  type : (eff s (s.inode ip).inum).type ≠ 0

def startOf (s : Kern) (ip : Nat) (path : List UInt8) : Nat :=
  if path.head? = some slash then rootino else (s.inode ip).inum

structure Resolves (sb : Superblock) (s : Kern) (p ip : Nat) (path : List UInt8) : Prop where
  elements : ∀ fuel, path.length < fuel → skipelems fuel path = elems path
  buffer : 0 ∉ path → ∀ elem ∈ elems path, ∀ name : List UInt8, name.length = dirsiz →
    (nameBuf name elem).length = dirsiz ∧ cstr (nameBuf name elem) = elem
  namei : (∃ r s', (namei p path).run s = .ok (r, s') ∧ Took sb s s' none r.toList ∧
      r.map (fun j => (s'.inode j).inum) = (elems path).foldlM (descend s) (startOf s ip path)) ∨
    (namei p path).run s = .error (.panic .igetNoInodes) ∧ ¬TwoSpare s
  nameiparent : (∃ r s', (nameiparent p path).run s = .ok (r, s') ∧ Took sb s s' none (r.map Prod.fst).toList ∧
      r.map (fun e => ((s'.inode e.1).inum, e.2)) = (elems path).getLast?.bind fun elem =>
        (((elems path).dropLast.foldlM (descend s) (startOf s ip path)).filter fun k => (files s k).type = tDir).map
          fun k => (k, elem)) ∨
    (nameiparent p path).run s = .error (.panic .igetNoInodes) ∧ ¬TwoSpare s

section Paths

variable {sb : Superblock} {s : Kern} {p ip : Nat}

theorem run_namex (hG : Geom sb) (hT : Tree sb s) (hCwd : CwdAt s p ip) (path : List UInt8) (parent : Bool) :
    Arrives sb s s (namex p path parent) (walk s parent (startOf s ip path) (elems path) []) := by
  rw [namex, startOf]
  by_cases hRoot : path.head? = some slash
  · rw [if_pos hRoot, if_pos hRoot, Arrives, run_bind]
    rcases hT.took.iget hT hT.root.lt with ⟨ip₁, s₁, hRun₁, h₁, hInum₁, -⟩ | ⟨hRun₁, hFull⟩
    · have hRest := @run_namexFrom _ _ _ _ _ _ [] hG hT parent h₁ (by rw [hInum₁]; exact hT.root) (Nat.lt_succ_self path.length)
      rw [hInum₁] at hRest
      rw [hRun₁]
      exact hRest
    · rw [hRun₁]
      exact Or.inr ⟨rfl, hT.took.not_twoSpare (Nat.zero_le _) hFull⟩
  · rw [if_neg hRoot, if_neg hRoot, Arrives, run_bind]
    have hRun : (idupCwd p).run s = .ok (ip, setInode s ip { s.inode ip with ref := (s.inode ip).ref + 1 }) := by
      simp only [idupCwd, act, Prog.single, Prog.run, hCwd.cwd]
    have hLast : Lasts sb s (s.inode ip).inum :=
      ⟨hT.sound.cache.inum ip hCwd.lt hCwd.ref, hCwd.type, Or.inr ⟨ip, hCwd.lt, hCwd.ref, rfl⟩⟩
    have h₁ : Took sb s (setInode s ip { s.inode ip with ref := (s.inode ip).ref + 1 }) none [ip] := by
      refine hT.took.set hCwd.lt (fun j hj => ?_) (fun j hj => absurd hj.symm (Option.some_ne_none j)) (fun j hj => ?_) ?_
        (fun _ => rfl) (fun _ _ => Iff.rfl) (fun _ => hT.took.busy ip hCwd.lt hCwd.ref)
        (fun _ j hj hne hr hEq => hne (hT.sound.cache.uniq j hj ip hCwd.lt hr hCwd.ref hEq))
        (fun _ => hLast.lt) (fun _ hv => ?_) fun hl => ?_
      · rw [List.mem_singleton.mp hj]
        exact hCwd.lt
      · exact List.count_cons_of_ne hj.symm
      · rw [List.count_singleton_self]
        rfl
      · exact ⟨(hT.sound.cache.eff_live ⟨hCwd.lt, hCwd.ref, hv⟩).symm, fun hz => absurd hz hCwd.ref.ne'⟩
      · exact Or.inl ⟨Int.lt_add_one_of_le hCwd.ref.le, hl.valid, rfl⟩
    have hInum : ((setInode s ip { s.inode ip with ref := (s.inode ip).ref + 1 }).inode ip).inum = (s.inode ip).inum := by
      rw [setInode_self]
    have hRest := @run_namexFrom _ _ _ _ _ _ [] hG hT parent h₁ (by rwa [hInum]) (Nat.lt_succ_self path.length)
    rw [hInum] at hRest
    rw [hRun]
    exact hRest

end Paths

section Example

def gapRoot : Kern := { gapDir with proc := fun _ => ⟨fun _ => none, some 0⟩ }

theorem gapRoot_eff : eff gapRoot 1 = gapDi := gapDir_sound.cache.eff_live gapDir_at.slot

theorem gapRoot_lasts : Lasts gapSb gapRoot 1 where
  lt := by decide
  type := by
    rw [gapRoot_eff]
    decide
  kept := Or.inl (by rw [gapRoot_eff]; decide)

theorem gapRoot_dir : ∀ k < 8, (files gapRoot k).type = tDir → k = 1 := by decide +kernel

theorem gapRoot_tree : Tree gapSb gapRoot where
  sound := gapDir_sound.of_home rfl rfl ⟨gapDir_sound.mounted.start, rfl, gapDir_sound.mounted.super, gapDir_sound.mounted.log⟩
  held _ := rfl
  idle j _ hr := by
    obtain rfl : j = 0 := lone_live (show 0 < ((lone gapSb gapImage gapDi fun _ => ⟨.none, 0, false, false, 0, 0⟩).inode j).ref from hr)
    rfl
  refs j _ := by
    by_cases hj : j = 0
    · rw [hj]
      decide
    · exact (show (gapRoot.inode j).ref = 0 by simp [gapRoot, gapDir, lone, hj]).ge
  root := gapRoot_lasts
  full k hk hDir := by
    obtain rfl := gapRoot_dir k hk hDir
    exact ⟨gapRoot_eff ▸ gapDir_at.full, gapDir_at.align⟩
  entry k hk hDir i name v hSlot := by
    obtain rfl := gapRoot_dir k hk hDir
    have hi : i < 3 := (entries_eq_some.mp hSlot).1
    have hAll : ∀ i < 3, (entries (files gapRoot 1) i).all fun e => e.2 = 1 := by decide +kernel
    have hOne := hAll i hi
    rw [hSlot, Option.all_some, decide_eq_true_eq] at hOne
    rw [show v = 1 from hOne]
    exact gapRoot_lasts

end Example

end Xv6Rpi.Fs
