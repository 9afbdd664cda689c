import Mathlib.Data.List.TakeWhile
import Xv6Rpi.Fs.Entries
import Xv6Rpi.Fs.Peek

/-! # Runs that only read

While nobody holds a buffer, the functions that look for blocks, bytes and names in files
without holes go through and leave the state as it is, apart from the references they take.
-/

namespace Xv6Rpi.Fs

open Prog

section Bytes

variable {s : Kern} {ip off n : Nat}

theorem run_readi (hHeld : ∀ n, s.held n = false) (hSize : (s.inode ip).di.size ≤ maxfile * bsize)
    (hDev : (s.inode ip).di.type ≠ tDev) (hIn : off + n ≤ (s.inode ip).di.size)
    (hPtr : ∀ j < n, ptr s.disk (s.inode ip).di (posOf ((off + j) / bsize)) ≠ 0) :
    (readi ip off n).run s =
      .ok (some ((List.range n).map fun j => byteAt s.disk (s.inode ip).di (off + j)), s) := by
  have hMax : maxfile * bsize < 2 ^ 32 := by decide
  have hNot : ¬((s.inode ip).di.size < off ∨ (off + n) % 2 ^ 32 < off) := by
    rw [Nat.mod_eq_of_lt (by omega)]
    omega
  rw [readi, run_bind, run_getInode]
  dsimp only
  rw [if_neg hDev, if_neg hNot, if_neg (Nat.not_lt.mpr hIn), run_bind,
    (leads_readiFrom n le_rfl (by omega) hPtr).run hHeld]
  rfl

end Bytes

/-! ## Directories -/

def dirBytes (es : List (Nat × List UInt8)) : List UInt8 := es.flatMap fun e => encodeDirent e.1 e.2

def findEntry (es : List (Nat × List UInt8)) (name : List UInt8) : Option (Nat × List UInt8) :=
  es.find? fun e => e.1 ≠ 0 && namecmp name e.2

section Entries

variable {es : List (Nat × List UInt8)} {e : Nat × List UInt8} {inum : Nat} {name : List UInt8}

theorem length_dirBytes (es : List (Nat × List UInt8)) : (dirBytes es).length = direntSz * es.length := by
  induction es with
  | nil => rfl
  | cons e es ih =>
    rw [dirBytes, List.flatMap_cons, List.length_append, length_encodeDirent, ← dirBytes, ih, List.length_cons]
    ring

theorem getD_dirBytes {k j : Nat} (hk : k < es.length) (hj : j < direntSz) :
    (dirBytes es).getD (direntSz * k + j) 0 = (encodeDirent es[k].1 es[k].2).getD j 0 := by
  induction es generalizing k with
  | nil => exact absurd hk (Nat.not_lt_zero k)
  | cons e es ih =>
    have hLen := length_encodeDirent e.1 e.2
    rw [dirBytes, List.flatMap_cons, ← dirBytes]
    cases k with
    | zero =>
      rw [Nat.mul_zero, Nat.zero_add, List.getD_append _ _ _ _ (by rw [hLen]; exact hj)]
      rfl
    | succ k =>
      have hSub : direntSz * (k + 1) + j - direntSz = direntSz * k + j := by
        rw [Nat.mul_succ]
        omega
      rw [List.getD_append_right _ _ _ _ (by rw [hLen, Nat.mul_succ]; omega), hLen, hSub,
        ih (Nat.lt_of_succ_lt_succ hk)]
      rfl

end Entries

section Lookup

variable {s : Kern} {dp : Nat} {es : List (Nat × List UInt8)} {e : Nat × List UInt8} {name : List UInt8}

structure HasEntries (d : Disk) (di : Dinode) (es : List (Nat × List UInt8)) : Prop where
  type : di.type = tDir
  size : di.size ≤ maxfile * bsize
  length : (dirBytes es).length ≤ di.size
  inums : ∀ e ∈ es, e.1 < 2 ^ 16
  ptr : ∀ j < (dirBytes es).length, ptr d di (posOf (j / bsize)) ≠ 0
  bytes : ∀ j < (dirBytes es).length, byteAt d di j = (dirBytes es).getD j 0

theorem HasEntries.run_readi (h : HasEntries s.disk (s.inode dp).di es) (hHeld : ∀ n, s.held n = false) {k : Nat} (hk : k < es.length) :
    (readi dp (direntSz * k) direntSz).run s = .ok (some (encodeDirent es[k].1 es[k].2), s) := by
  have hLen := length_dirBytes es
  have hLast : direntSz * k + direntSz ≤ direntSz * es.length := by
    rw [← Nat.mul_succ]
    exact Nat.mul_le_mul_left _ hk
  have hDev : (s.inode dp).di.type ≠ tDev := by
    rw [h.type]
    decide
  have hLength := h.length
  rw [Fs.run_readi hHeld h.size hDev (by omega) fun j hj => h.ptr _ (by omega)]
  have hBytes : (List.range direntSz).map (fun j => byteAt s.disk (s.inode dp).di (direntSz * k + j)) =
      encodeDirent es[k].1 es[k].2 := by
    apply List.ext_getElem
    · rw [List.length_map, List.length_range, length_encodeDirent]
    · intro j hj hj'
      rw [List.length_map, List.length_range] at hj
      rw [List.getElem_map, List.getElem_range, h.bytes _ (by omega), getD_dirBytes hk hj,
        List.getD_eq_getElem _ _ hj']
  rw [hBytes]

theorem HasEntries.run_dirlookupFrom (h : HasEntries s.disk (s.inode dp).di es) (hHeld : ∀ n, s.held n = false) {k fuel : Nat}
    (hFuel : es.length ≤ k + fuel) (hFind : findEntry (es.drop k) name = some e) :
    ∃ off, (dirlookupFrom dp name fuel (direntSz * k)).run s = (iget e.1 >>= fun ip => return some (ip, off)).run s := by
  induction fuel generalizing k with
  | zero =>
    rw [List.drop_eq_nil_of_le (by omega)] at hFind
    cases hFind
  | succ fuel ih =>
    by_cases hk : k < es.length
    · have hSize : ¬(s.inode dp).di.size ≤ direntSz * k := by
        have hLen := length_dirBytes es
        have hLength := h.length
        have hLast := Nat.mul_le_mul_left direntSz (Nat.succ_le_of_lt hk)
        have hPos : 0 < direntSz := by decide
        rw [Nat.mul_succ] at hLast
        omega
      rw [List.drop_eq_getElem_cons hk, findEntry, List.find?_cons, ← findEntry] at hFind
      rw [dirlookupFrom, run_bind, run_getInode]
      dsimp only
      rw [if_neg hSize, run_bind, h.run_readi hHeld hk]
      dsimp only
      rw [if_neg (not_not.mpr (length_encodeDirent _ _)), decodeDirent_inum (h.inums _ (List.getElem_mem hk)),
        decodeDirent_name]
      split at hFind
      · next hHere =>
        rw [Bool.and_eq_true, decide_eq_true_eq] at hHere
        obtain rfl := Option.some.inj hFind
        rw [if_neg (by rw [hHere.2]; exact fun hNo => hNo.elim hHere.1 fun hNot => hNot rfl)]
        exact ⟨_, rfl⟩
      · next hNext =>
        rw [Bool.and_eq_false_iff, decide_eq_false_iff_not, not_not] at hNext
        rw [if_pos (hNext.imp_right fun hNot => by rw [hNot]; exact Bool.false_ne_true), ← Nat.mul_succ]
        exact ih (by omega) hFind
    · rw [List.drop_eq_nil_of_le (by omega)] at hFind
      cases hFind

theorem HasEntries.run_dirlookup (h : HasEntries s.disk (s.inode dp).di es) (hHeld : ∀ n, s.held n = false)
    (hFind : findEntry es name = some e) :
    ∃ off, (dirlookup dp name).run s = (iget e.1 >>= fun ip => return some (ip, off)).run s := by
  have hLen := length_dirBytes es
  have hLength := h.length
  rw [hLen] at hLength
  have hFuel : es.length ≤ dirFuel (s.inode dp).di := by
    rw [dirFuel]
    have : es.length ≤ (s.inode dp).di.size / direntSz :=
      (Nat.le_div_iff_mul_le (by decide)).mpr (by rw [Nat.mul_comm]; exact hLength)
    omega
  rw [dirlookup, run_bind, run_getInode]
  dsimp only
  rw [if_neg (not_not.mpr h.type)]
  exact h.run_dirlookupFrom hHeld (k := 0) (by omega) hFind

end Lookup

/-! ## References and locks -/

/-- Nobody changes the file system of the disk `d`: no buffer is held, no inode but `lock` is
locked, and the copies of inodes in memory are those on disk. -/
structure Untouched (d : Disk) (lock : Option Nat) (s : Kern) : Prop where
  disk : s.disk = d
  held : ∀ n, s.held n = false
  refs : ∀ i < ninode, 0 ≤ (s.inode i).ref
  locked : ∀ i, lock = some i → i < ninode ∧ 0 < (s.inode i).ref
  busy : ∀ i < ninode, 0 < (s.inode i).ref → ((s.inode i).busy = true ↔ lock = some i)
  synced : ∀ i < ninode, 0 < (s.inode i).ref → (s.inode i).valid → (s.inode i).di = dinodeOf d (s.inode i).inum

/-- There is an unused entry in the inode cache. -/
def Spare (s : Kern) : Prop := ∃ i < ninode, (s.inode i).ref = 0

def TwoSpare (s : Kern) : Prop := ∃ i < ninode, ∃ j < ninode, i ≠ j ∧ (s.inode i).ref = 0 ∧ (s.inode j).ref = 0

section Inodes

variable {d : Disk} {lock lock' : Option Nat} {s : Kern} {ip inum : Nat} {x : Inode}

theorem Untouched.setInode (h : Untouched d lock s) (hRef : 0 ≤ x.ref) (hLock : lock' = some ip → ip < ninode ∧ 0 < x.ref)
    (hOthers : ∀ j, j ≠ ip → (lock' = some j ↔ lock = some j)) (hBusy : 0 < x.ref → (x.busy = true ↔ lock' = some ip))
    (hSynced : 0 < x.ref → x.valid → x.di = dinodeOf d x.inum) : Untouched d lock' (Fs.setInode s ip x) where
  disk := h.disk
  held := h.held
  refs i hi := by
    rcases eq_or_ne i ip with rfl | hne
    · rwa [setInode_self]
    · rw [setInode_of_ne hne]
      exact h.refs i hi
  locked i hi := by
    rcases eq_or_ne i ip with rfl | hne
    · rw [setInode_self]
      exact hLock hi
    · rw [setInode_of_ne hne]
      exact h.locked i ((hOthers i hne).mp hi)
  busy i hi := by
    rcases eq_or_ne i ip with rfl | hne
    · rwa [setInode_self]
    · rw [setInode_of_ne hne, hOthers i hne]
      exact h.busy i hi
  synced i hi := by
    rcases eq_or_ne i ip with rfl | hne
    · rwa [setInode_self]
    · rw [setInode_of_ne hne]
      exact h.synced i hi

theorem Untouched.run_iget (h : Untouched d lock s) (hRoom : Spare s) (inum : Nat) :
    ∃ ip x, (iget inum).run s = .ok (ip, Fs.setInode s ip x) ∧ Untouched d lock (Fs.setInode s ip x) ∧ ip < ninode ∧
      x.inum = inum ∧ x.ref = (s.inode ip).ref + 1 ∧ x.di = (s.inode ip).di := by
  cases hCached : cached s inum with
  | some ip =>
    have hIn : ip < ninode := List.mem_range.mp (List.mem_of_find?_eq_some hCached)
    have hHit := List.find?_some hCached
    rw [Bool.and_eq_true, decide_eq_true_eq, beq_iff_eq] at hHit
    have hPos : 0 < (s.inode ip).ref + 1 := by omega
    refine ⟨ip, { s.inode ip with ref := (s.inode ip).ref + 1 }, ?_, ?_, hIn, hHit.2, rfl, rfl⟩
    · simp only [iget, act, Prog.single, Prog.run, hCached]
    · exact h.setInode hPos.le (fun hLock => ⟨hIn, hPos⟩) (fun _ _ => Iff.rfl) (fun _ => h.busy ip hIn hHit.1)
        fun _ => h.synced ip hIn hHit.1
  | none =>
    have hSlot : ∃ ip, emptySlot s = some ip := by
      obtain ⟨i, hi, hRef⟩ := hRoom
      rw [← Option.isSome_iff_exists, emptySlot, List.find?_isSome]
      exact ⟨i, List.mem_range.mpr hi, beq_iff_eq.mpr hRef⟩
    obtain ⟨ip, hEmpty⟩ := hSlot
    have hIn : ip < ninode := List.mem_range.mp (List.mem_of_find?_eq_some hEmpty)
    have hRef := List.find?_some hEmpty
    rw [beq_iff_eq] at hRef
    have hFree : lock ≠ some ip := fun hLock => absurd (h.locked ip hLock).2 (by omega)
    refine ⟨ip, { s.inode ip with inum := inum, ref := 1, busy := false, valid := false }, ?_, ?_, hIn, rfl, by rw [hRef]; rfl, rfl⟩
    · simp only [iget, act, Prog.single, Prog.run, hCached, hEmpty]
    · exact h.setInode Int.one_nonneg (fun hLock => absurd hLock hFree) (fun _ _ => Iff.rfl)
        (fun _ => iff_of_false Bool.false_ne_true hFree) fun _ hNot => absurd hNot Bool.false_ne_true

theorem Untouched.run_ilock (h : Untouched d none s) (hIn : ip < ninode) (hRef : 0 < (s.inode ip).ref)
    (hType : (dinodeOf d (s.inode ip).inum).type ≠ 0) :
    ∃ x, (ilock ip).run s = .ok ((), Fs.setInode s ip x) ∧ Untouched d (some ip) (Fs.setInode s ip x) ∧
      x.inum = (s.inode ip).inum ∧ x.ref = (s.inode ip).ref ∧ x.valid = true ∧ x.di = dinodeOf d (s.inode ip).inum := by
  have hBusy : (s.inode ip).busy = false := by
    have := h.busy ip hIn hRef
    simpa using this
  have hDisk : (if (s.inode ip).valid then (s.inode ip).di else dinodeOf s.disk (s.inode ip).inum) =
      dinodeOf d (s.inode ip).inum := by
    split
    · rename_i hValid
      exact h.synced ip hIn hRef hValid
    · rw [h.disk]
  refine ⟨_, Fs.run_ilock h.held hRef hBusy hDisk.symm hType, ?_, rfl, rfl, rfl, rfl⟩
  refine h.setInode hRef.le (fun _ => ⟨hIn, hRef⟩) (fun j hj => ?_) (fun _ => iff_of_true rfl rfl) fun _ _ => rfl
  exact iff_of_false (fun hEq => hj (Option.some.inj hEq).symm) (Option.some_ne_none j).symm

theorem Untouched.run_iunlockput (h : Untouched d (some ip) s) (hLink : (s.inode ip).di.nlink ≠ 0) :
    ∃ x, (iunlockput ip).run s = .ok ((), Fs.setInode s ip x) ∧ Untouched d none (Fs.setInode s ip x) ∧
      x.inum = (s.inode ip).inum ∧ x.ref = (s.inode ip).ref - 1 := by
  obtain ⟨hIn, hRef⟩ := h.locked ip rfl
  have hBusy : (s.inode ip).busy = true := (h.busy ip hIn hRef).mpr rfl
  set x : Inode := { s.inode ip with busy := false, ref := (s.inode ip).ref - 1 } with hx
  have hPut : (iput ip).run (Fs.setInode s ip { s.inode ip with busy := false }) = .ok ((), Fs.setInode s ip x) := by
    rw [run_iput, setInode_idem, setInode_self]
    rw [setInode_self]
    exact fun hAll => hLink hAll.2.2
  refine ⟨x, ?_, ?_, rfl, rfl⟩
  · rw [iunlockput, run_bind, run_iunlock hBusy hRef]
    exact hPut
  · refine h.setInode (by change 0 ≤ (s.inode ip).ref - 1; omega) (fun hNo => absurd hNo (Option.some_ne_none ip).symm)
      (fun j hj => ?_) (fun _ => iff_of_false Bool.false_ne_true (Option.some_ne_none ip).symm)
      fun _ => h.synced ip hIn hRef
    exact iff_of_false (Option.some_ne_none j).symm fun hEq => hj (Option.some.inj hEq).symm

end Inodes

/-! ## Paths -/

section Paths

variable {d : Disk} {s : Kern} {es : List (Nat × List UInt8)} {e : Nat × List UInt8} {elem : List UInt8}

theorem skipelem_single (hNe : elem ≠ []) (hSlash : slash ∉ elem) :
    skipelem (slash :: elem) = some (elem.take dirsiz, []) := by
  have hTake : elem.takeWhile (· ≠ slash) = elem := by
    rw [List.takeWhile_eq_self_iff]
    intro c hc
    rw [decide_eq_true_eq]
    rintro rfl
    exact hSlash hc
  have hDrop : elem.dropWhile (· ≠ slash) = [] := by
    rw [List.dropWhile_eq_nil_iff]
    intro c hc
    rw [decide_eq_true_eq]
    rintro rfl
    exact hSlash hc
  have hHead : (slash :: elem).dropWhile (· == slash) = elem := by
    rw [List.dropWhile_cons_of_pos (by decide)]
    cases elem with
    | nil => rfl
    | cons c cs => exact List.dropWhile_cons_of_neg (by
        rw [beq_iff_eq]
        rintro rfl
        exact hSlash List.mem_cons_self)
  rw [skipelem, hHead]
  cases elem with
  | nil => exact absurd rfl hNe
  | cons c cs =>
    dsimp only
    rw [hTake, hDrop, List.dropWhile_nil]

theorem Spare.of_two {ip : Nat} {x : Inode} (h : TwoSpare s) : Spare (setInode s ip x) := by
  obtain ⟨i, hi, j, hj, hne, hRefI, hRefJ⟩ := h
  rcases eq_or_ne i ip with rfl | hOther
  · exact ⟨j, hj, by rw [setInode_of_ne hne.symm, hRefJ]⟩
  · exact ⟨i, hi, by rw [setInode_of_ne hOther, hRefI]⟩

/-- The path of a file in the root directory leads to its inode. -/
theorem Untouched.run_namei (h : Untouched d none s) (hRoom : TwoSpare s) (hRoot : HasEntries d (dinodeOf d rootino) es)
    (hLink : (dinodeOf d rootino).nlink ≠ 0) (hNe : elem ≠ []) (hSlash : slash ∉ elem)
    (hFind : findEntry es (elem.take dirsiz) = some e) (p : Nat) :
    ∃ ip s', (namei p (slash :: elem)).run s = .ok (some ip, s') ∧ Untouched d none s' ∧ ip < ninode ∧
      (s'.inode ip).inum = e.1 ∧ 0 < (s'.inode ip).ref := by
  have hDir : (dinodeOf d rootino).type ≠ 0 := by
    rw [hRoot.type]
    decide
  obtain ⟨dp, x₁, hRun₁, h₁, hIn, hInum₁, hRef₁, -⟩ := h.run_iget (by
    obtain ⟨i, hi, -, -, -, hRef, -⟩ := hRoom
    exact ⟨i, hi, hRef⟩) rootino
  have hPos₁ : 0 < x₁.ref := by
    have := h.refs dp hIn
    omega
  obtain ⟨x₂, hRun₂, h₂, hInum₂, hRef₂, -, hDi₂⟩ :=
    h₁.run_ilock hIn (by rwa [setInode_self]) (by rwa [setInode_self, hInum₁])
  rw [setInode_idem] at hRun₂ h₂
  rw [setInode_self] at hInum₂ hRef₂ hDi₂
  rw [hInum₁] at hDi₂
  set s₂ := Fs.setInode s dp x₂ with hs₂
  have hDp : s₂.inode dp = x₂ := setInode_self ..
  have hEntries : HasEntries s₂.disk (s₂.inode dp).di es := by
    rw [hDp, hDi₂, h₂.disk]
    exact hRoot
  obtain ⟨off, hRun₃⟩ := hEntries.run_dirlookup h₂.held hFind
  obtain ⟨ip, x₄, hRun₄, h₄, hIp, hInum₄, hRef₄, hDi₄⟩ := h₂.run_iget (Spare.of_two hRoom) e.1
  -- the root directory may itself be what the entry names
  have hDpDi : ((Fs.setInode s₂ ip x₄).inode dp).di = dinodeOf d rootino := by
    rcases eq_or_ne dp ip with rfl | hne
    · rw [setInode_self, hDi₄, hDp, hDi₂]
    · rw [setInode_of_ne hne, hDp, hDi₂]
  obtain ⟨x₅, hRun₅, h₅, hInum₅, hRef₅⟩ := h₄.run_iunlockput (by rwa [hDpDi])
  have hNotDir : ¬(s₂.inode dp).di.type ≠ tDir := not_not.mpr hEntries.type
  refine ⟨ip, _, ?_, h₅, hIp, ?_, ?_⟩
  · have hPath : (slash :: elem).head? = some slash := rfl
    rw [namei, run_bind, namex, if_pos hPath, run_bind, hRun₁]
    dsimp only
    rw [List.length_cons, namexFrom, skipelem_single hNe hSlash]
    dsimp only
    rw [run_bind, hRun₂]
    dsimp only
    rw [run_bind, run_getInode]
    dsimp only
    rw [if_neg hNotDir, if_neg (by exact fun hNo => Bool.false_ne_true hNo.1), run_bind, hRun₃, run_bind, hRun₄]
    dsimp only [run_pure]
    rw [run_bind, hRun₅]
    rfl
  · rcases eq_or_ne ip dp with rfl | hne
    · rw [setInode_self, hInum₅, setInode_self, hInum₄]
    · rw [setInode_of_ne hne, setInode_self, hInum₄]
  · have hOld := h₂.refs ip hIp
    rcases eq_or_ne ip dp with rfl | hne
    · rw [setInode_self, hRef₅, setInode_self, hRef₄, hDp, hRef₂]
      omega
    · rw [setInode_of_ne hne, setInode_self, hRef₄]
      omega

end Paths

end Xv6Rpi.Fs
