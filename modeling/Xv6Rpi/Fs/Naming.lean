import Xv6Rpi.Fs.Edits
import Xv6Rpi.Fs.Elements

/-! # Paths, and the calls that enter and remove names

`namex` holds one reference at a time and hands the last one to its caller. `create`, `sys_link`
and `sys_unlink` start from the directory that it finds. Whatever happens on the way, they
leave every inode as it should be between two calls, and no reference too many.
-/

namespace Xv6Rpi.Fs

open Prog

section Paths

variable {R : Rely Kern Stop Label} {sb : Superblock} {M : LowBits sb} {c : Multiset Nat} {A : Set Nat} {s s₁ s' : Kern}
  {ip p fuel : Nat} {path name : List UInt8}

theorem Rests.around (h : Rests A s s₁) (hIdle : (s₁.inode ip).busy = false) (h' : Rests {j | j ∈ A ∧ j ≠ ip} s₁ s')
    (hInum : (s'.inode ip).inum = (s₁.inode ip).inum) : Rests A s s' where
  file := h'.file.trans h.file
  proc := h'.proc.trans h.proc
  devsw := h'.devsw.trans h.devsw
  inum j hj := by
    by_cases hEq : j = ip
    · rw [hEq] at hj ⊢
      rw [hInum, h.inum ip hj]
    · rw [h'.inum j ⟨hj, hEq⟩, h.inum j hj]
  locked j hj hBusy := by
    have hOld := h.locked j hj hBusy
    have hne : j ≠ ip := fun hEq => by
      rw [← hEq, hOld] at hIdle
      rw [hBusy] at hIdle
      cases hIdle
    have hNew := h'.locked j ⟨hj, hne⟩ (by rw [hOld]; exact hBusy)
    rw [hNew, hOld]

/-- A locked entry is unlocked and dropped: it was the caller's to lock. -/
theorem Fit.wp_unlockAround (hR : Allows R) (hG : Geom sb) {s₀ : Kern} (h : Fit M (ip ::ₘ c) s₁)
    (hRests : Rests (inUse c) s s₀) (hIdle : (s₀.inode ip).busy = false) (hHeld : Rests (allBut c ip) s₀ s₁)
    (hInum : (s₁.inode ip).inum = (s₀.inode ip).inum) {Q : Unit → Kern → Prop}
    (hQ : ∀ s', Fit M c s' → (Gentle R → Looked s₁ s') → Rests (inUse c) s s' → Q () s') : wp R (iunlockput ip) Q s₁ := by
  refine h.wp_iunlockput hR hG fun s' h' hL hR' hInums => hQ s' h' hL ?_
  by_cases hIn : ip ∈ c
  · exact hRests.around hIdle (hHeld.trans hR') ((hInums ip hIn).trans hInum)
  · have hSub : inUse c ⊆ allBut c ip := fun j hj => ⟨hj, fun hEq => hIn (hEq ▸ hj)⟩
    exact hRests.trans ((hHeld.trans hR').mono hSub)

theorem Fit.wp_namexFrom (hR : Allows R) (hG : Geom sb) (hStop : R.stop (.panic .ilockNoType)) (parent : Bool)
    (h : Fit M (ip ::ₘ c) s) (hFuel : path.length < fuel) {Q : Option (Nat × List UInt8) → Kern → Prop}
    (hNone : ∀ s', Fit M c s' → (Gentle R → Looked s s') → Rests (inUse c) s s' → Q none s')
    (hSome : ∀ ip' name s', Fit M (ip' ::ₘ c) s' → (Gentle R → Looked s s') → Rests (inUse c) s s' →
      Q (some (ip', name)) s') : wp R (namexFrom parent fuel ip path name) Q s := by
  induction fuel generalizing s ip path name with
  | zero => exact absurd hFuel (Nat.not_lt_zero _)
  | succ fuel ih =>
    rw [namexFrom]
    cases hElem : skipelem path with
    | none =>
      dsimp only
      cases parent with
      | true =>
        rw [if_pos rfl, wp_bind]
        exact h.wp_iput hR hG fun s' h' hL hR' => hNone s' h' hL hR'
      | false =>
        rw [if_neg Bool.false_ne_true]
        exact hSome ip name s h (fun _ => .refl s) (.refl _ s)
    | some r =>
      obtain ⟨elem, rest⟩ := r
      have hShort : rest.length < path.length := (skipelem_some hElem).2.2
      dsimp only
      rw [wp_bind]
      refine h.wp_ilock hR hG hStop (Multiset.mem_cons_self ip c) fun s₁ h₁ hL₁ hR₁ hLock => ?_
      have hMine : Mine (ip ::ₘ c) s₁ ip := .of_locked (Multiset.mem_cons_self ip c) hLock
      have hHeld : Rests (allBut c ip) s s₁ := hR₁.mono fun j hj => Multiset.mem_cons_of_mem hj.1
      rw [wp_bind]
      apply wp_getK hR
      by_cases hDir : (s₁.inode ip).di.type = tDir
      · rw [if_neg (not_not.mpr hDir)]
        by_cases hLast : parent = true ∧ rest = []
        · rw [if_pos hLast, wp_bind]
          refine h₁.wp_iunlock hR hMine.mem fun s₂ h₂ hL₂ hs₂ hSlot => ?_
          refine hSome ip elem s₂ h₂ (fun _ => hL₁.trans hL₂) ?_
          have hRefl : Rests (inUse c) s s := .refl _ s
          refine hRefl.around hLock.idle (hHeld.trans (.allBut hs₂.file hs₂.proc hs₂.devsw hs₂.others)) ?_
          rw [hSlot]
          exact hLock.inum
        · rw [if_neg hLast, wp_bind]
          refine h₁.wp_dirlookup hR hMine (fun s₂ _ hs => ?_) fun next i s₂ _ _ h₂ hL₂ hR₂ => ?_
          · obtain ⟨h₂, hL₂⟩ := h₁.same hs
            dsimp only
            rw [wp_bind]
            refine h₂.wp_unlockAround hR hG (.refl _ s) hLock.idle (hHeld.trans (.of_same hs)) ?_
              fun s₃ h₃ hL₃ hR₃ => hNone s₃ h₃ (fun hGentle => (hL₁.trans hL₂).trans (hL₃ hGentle)) hR₃
            rw [hs.inode]
            exact hLock.inum
          · rw [Multiset.cons_swap] at h₂
            dsimp only
            rw [wp_bind]
            have hSub : allBut c ip ⊆ inUse (ip ::ₘ c) := fun j hj => Multiset.mem_cons_of_mem hj.1
            have hInum : (s₂.inode ip).inum = (s.inode ip).inum := (hR₂.inum ip hMine.mem).trans hLock.inum
            refine h₂.wp_iunlockput hR hG fun s₃ h₃ hL₃ hR₃ hInums => ?_
            have hLooked : Gentle R → Looked s s₃ := fun hGentle => (hL₁.trans hL₂).trans (hL₃ hGentle)
            have hOut : Rests (allBut c ip) s s₃ := (hHeld.trans (hR₂.mono hSub)).trans
              (hR₃.mono fun j hj => ⟨Multiset.mem_cons_of_mem hj.1, hj.2⟩)
            have hRests : Rests (inUse c) s s₃ := by
              by_cases hIn : ip ∈ c
              · have hRefl : Rests (inUse c) s s := .refl _ s
                exact hRefl.around hLock.idle hOut ((hInums ip (Multiset.mem_cons_of_mem hIn)).trans hInum)
              · exact hOut.mono fun j hj => ⟨hj, fun hEq => hIn (hEq ▸ hj)⟩
            refine ih h₃ (by omega) (fun s' h' hL' hR' => ?_) fun ip' name s' h' hL' hR' => ?_
            · exact hNone s' h' (fun hGentle => (hLooked hGentle).trans (hL' hGentle)) (hRests.trans hR')
            · exact hSome ip' name s' h' (fun hGentle => (hLooked hGentle).trans (hL' hGentle)) (hRests.trans hR')
      · rw [if_pos hDir, wp_bind]
        refine h₁.wp_unlockAround hR hG (.refl _ s) hLock.idle hHeld hLock.inum fun s₂ h₂ hL₂ hR₂ => ?_
        exact hNone s₂ h₂ (fun hGentle => hL₁.trans (hL₂ hGentle)) hR₂

theorem Fit.wp_namex (hR : Allows R) (hG : Geom sb) (hStop : R.stop (.panic .ilockNoType)) (h : Fit M c s)
    (hRoot : rootino < sb.ninodes) (hCwd : ∀ j, (s.proc p).cwd = some j → j ∈ c) (parent : Bool)
    {Q : Option (Nat × List UInt8) → Kern → Prop}
    (hNone : ∀ s', Fit M c s' → (Gentle R → Looked s s') → Rests (inUse c) s s' → Q none s')
    (hSome : ∀ ip name s', Fit M (ip ::ₘ c) s' → (Gentle R → Looked s s') → Rests (inUse c) s s' →
      Q (some (ip, name)) s') : wp R (namex p path parent) Q s := by
  have hWalk : ∀ ip s₁, Fit M (ip ::ₘ c) s₁ → Looked s s₁ → Rests (inUse c) s s₁ →
      wp R (namexFrom parent (path.length + 1) ip path []) Q s₁ := fun ip s₁ h₁ hL₁ hR₁ =>
    h₁.wp_namexFrom hR hG hStop parent (Nat.lt_succ_self _)
      (fun s' h' hL' hR' => hNone s' h' (fun hGentle => hL₁.trans (hL' hGentle)) (hR₁.trans hR'))
      fun ip' name s' h' hL' hR' => hSome ip' name s' h' (fun hGentle => hL₁.trans (hL' hGentle)) (hR₁.trans hR')
  rw [namex]
  by_cases hSlash : path.head? = some slash
  · rw [if_pos hSlash, wp_bind]
    exact h.wp_iget hR hRoot fun ip s₁ h₁ hL₁ hR₁ _ => hWalk ip s₁ h₁ hL₁ hR₁
  · rw [if_neg hSlash, wp_bind]
    exact h.wp_idupCwd hR hCwd hWalk

theorem Fit.wp_namei (hR : Allows R) (hG : Geom sb) (hStop : R.stop (.panic .ilockNoType)) (h : Fit M c s)
    (hRoot : rootino < sb.ninodes) (hCwd : ∀ j, (s.proc p).cwd = some j → j ∈ c) {Q : Option Nat → Kern → Prop}
    (hNone : ∀ s', Fit M c s' → (Gentle R → Looked s s') → Rests (inUse c) s s' → Q none s')
    (hSome : ∀ ip s', Fit M (ip ::ₘ c) s' → (Gentle R → Looked s s') → Rests (inUse c) s s' → Q (some ip) s') :
    wp R (namei p path) Q s := by
  rw [namei, wp_bind]
  exact h.wp_namex hR hG hStop hRoot hCwd false hNone fun ip _ s' h' hL' hR' => hSome ip s' h' hL' hR'

end Paths

structure Both (c : Multiset Nat) (s : Kern) (dp ip : Nat) : Prop where
  dir : Mine c s dp
  node : Mine c s ip
  ne : dp ≠ ip

section Both

variable {sb : Superblock} {M : LowBits sb} {c : Multiset Nat} {s s' : Kern} {dp ip : Nat}

theorem Both.of_ip (h : Both c s dp ip) (h' : Fit M c s') (hRests : Rests (allBut c ip) s s') (hSame : SameSlot ip s s') :
    Both c s' dp ip :=
  ⟨h.dir.rests hRests ⟨h.dir.mem, h.ne⟩ h' h.dir.mem, h.node.same hSame, h.ne⟩

theorem Both.of_dp (h : Both c s dp ip) (h' : Fit M c s') (hRests : Rests (allBut c dp) s s') (hSame : SameSlot dp s s') :
    Both c s' dp ip :=
  ⟨h.dir.same hSame, h.node.rests hRests ⟨h.node.mem, h.ne.symm⟩ h' h.node.mem, h.ne⟩

theorem Both.allBut_dir (h : Both c s dp ip) : ip ∈ allBut c dp := ⟨h.node.mem, h.ne.symm⟩

theorem Both.of_same (h : Both c s dp ip) (hs : Same s s') : Both c s' dp ip := ⟨h.dir.of_same hs, h.node.of_same hs, h.ne⟩

theorem Both.of_lock (h : Mine c s dp) (hMem : ip ∈ c) (hLock : LockedAt s s' ip) (hRests : Rests (inUse c) s s')
    (h' : Fit M c s') : Both c s' dp ip := by
  refine ⟨h.rests hRests h.mem h' h.mem, .of_locked hMem hLock, fun hEq => ?_⟩
  have hBusy := h.busy
  rw [hEq, hLock.idle] at hBusy
  cases hBusy

end Both

section Create

variable {R : Rely Kern Stop Label} {sb : Superblock} {M : LowBits sb} {c : Multiset Nat} {s s' : Kern}
  {dp ip p type major minor : Nat} {path name : List UInt8}

theorem Fit.wp_enter (hR : Relies M R) (hG : Geom sb) (hStop : R.stop (.panic .ilockNoType)) {inum : Nat}
    (h : Fit M (dp ::ₘ ip ::ₘ c) s) (hBoth : Both (dp ::ₘ ip ::ₘ c) s dp ip) (hi : inum < sb.ninodes)
    {Q : Unit → Kern → Prop} (hQ : ∀ s', Fit M (ip ::ₘ c) s' → Rests ∅ s s' → Mine (ip ::ₘ c) s' ip →
      (s'.inode ip).di.type = (s.inode ip).di.type → Q () s') :
    wp R (do if ← dirlink dp name inum then iunlockput dp else panic .createDirlink) Q s := by
  rw [wp_bind]
  refine h.wp_dirlink hR hG hStop hBoth.dir hi fun b s₁ h₁ hR₁ hSame₁ => ?_
  have hBoth₁ := hBoth.of_dp h₁ hR₁ hSame₁
  cases b with
  | false => exact wp_panic hR.stop (by simp) (by simp)
  | true =>
    rw [if_pos rfl]
    refine h₁.wp_iunlockput hR.stop hG fun s₂ h₂ _ hR₂ _ => ?_
    have hMem : ip ∈ ip ::ₘ c := Multiset.mem_cons_self ip c
    refine hQ s₂ h₂ (hR₁.none.trans hR₂.none) (hBoth₁.node.rests hR₂ ⟨hMem, hBoth.ne.symm⟩ h₂ hMem) ?_
    rw [hR₂.type ⟨hMem, hBoth.ne.symm⟩ hBoth₁.node.busy, hR₁.type hBoth.allBut_dir hBoth.node.busy]

theorem Fit.wp_createIn (hR : Relies M R) (hG : Geom sb) (hStop : R.stop (.panic .ilockNoType))
    (h : Fit M (dp ::ₘ ip ::ₘ c) s) (hBoth : Both (dp ::ₘ ip ::ₘ c) s dp ip) {Q : Unit → Kern → Prop}
    (hQ : ∀ s', Fit M (ip ::ₘ c) s' → Rests ∅ s s' → Mine (ip ::ₘ c) s' ip → (s'.inode ip).di.type = (s.inode ip).di.type →
      Q () s') : wp R (createIn dp ip name type major minor) Q s := by
  have hOk := h.cache.ok ip hBoth.node.live
  rw [createIn]
  refine h.wp_updateDi hR.stop hG hBoth.node
    (f := fun di => { di with major := major % 2 ^ 16, minor := minor % 2 ^ 16, nlink := 1 }) ?_ rfl rfl rfl
    fun s₁ h₁ hR₁ hSame₁ => ?_
  · exact { hOk with
      major := Nat.mod_lt _ (Nat.two_pow_pos 16)
      minor := Nat.mod_lt _ (Nat.two_pow_pos 16)
      nlink := by norm_num }
  have hBoth₁ := hBoth.of_ip h₁ hR₁ hSame₁
  have hI := h₁.inum_lt hBoth.node.mem
  have hD := h₁.inum_lt hBoth.dir.mem
  have hNone₁ : Rests ∅ s s₁ := hR₁.none
  rw [wp_bind]
  apply wp_getK hR.stop
  rw [wp_bind]
  apply wp_getK hR.stop
  by_cases hDir : type = tDir
  · rw [if_pos hDir]
    refine h₁.wp_addLink hR.stop hG hBoth₁.dir 1 fun s₂ h₂ hR₂ hSame₂ => ?_
    have hBoth₂ := hBoth₁.of_dp h₂ hR₂ hSame₂
    rw [wp_bind]
    refine h₂.wp_dirlink hR hG hStop hBoth₂.node hI fun b s₃ h₃ hR₃ hSame₃ => ?_
    have hBoth₃ := hBoth₂.of_ip h₃ hR₃ hSame₃
    cases b with
    | false => exact wp_panic hR.stop (by simp) (by simp)
    | true =>
      rw [if_pos rfl, wp_bind]
      refine h₃.wp_dirlink hR hG hStop hBoth₃.node hD fun b s₄ h₄ hR₄ hSame₄ => ?_
      have hBoth₄ := hBoth₃.of_ip h₄ hR₄ hSame₄
      cases b with
      | false => exact wp_panic hR.stop (by simp) (by simp)
      | true =>
        rw [if_pos rfl]
        have hNone₄ : Rests ∅ s s₄ := ((hNone₁.trans hR₂.none).trans
          hR₃.none).trans hR₄.none
        have hType₄ : (s₄.inode ip).di.type = (s.inode ip).di.type := by
          rw [hSame₄.type, hSame₃.type, hR₂.type hBoth₁.allBut_dir hBoth₁.node.busy, hSame₁.type]
        exact h₄.wp_enter hR hG hStop hBoth₄ hI fun s' h' hR' hMine hType => hQ s' h' (hNone₄.trans hR') hMine (hType.trans hType₄)
  · rw [if_neg hDir]
    exact h₁.wp_enter hR hG hStop hBoth₁ hI fun s' h' hR' hMine hType => hQ s' h' (hNone₁.trans hR') hMine (hType.trans hSame₁.type)

/-- `create` returns a locked inode of the given type with a reference to it, or none. -/
theorem Fit.wp_create (hR : Relies M R) (hG : Geom sb) (hStop : R.stop (.panic .ilockNoType)) (h : Fit M c s)
    (hRoot : rootino < sb.ninodes) (hCwd : ∀ j, (s.proc p).cwd = some j → j ∈ c) (hType : type < 2 ^ 16)
    {Q : Option Nat → Kern → Prop} (hNone : ∀ s', Fit M c s' → Rests ∅ s s' → Q none s')
    (hSome : ∀ ip s', Fit M (ip ::ₘ c) s' → Rests ∅ s s' → Mine (ip ::ₘ c) s' ip → (s'.inode ip).di.type = type → Q (some ip) s') :
    wp R (create p path type major minor) Q s := by
  rw [create, wp_bind]
  refine h.wp_namex hR.stop hG hStop hRoot hCwd true (fun s₁ h₁ _ hR₁ => ?_) fun dp name s₁ h₁ _ hR₁ => ?_
  · exact hNone s₁ h₁ hR₁.none
  have hNone₁ : Rests ∅ s s₁ := hR₁.none
  dsimp only
  rw [wp_bind]
  refine h₁.wp_ilock hR.stop hG hStop (Multiset.mem_cons_self dp c) fun s₂ h₂ _ hR₂ hLock => ?_
  have hMine : Mine (dp ::ₘ c) s₂ dp := .of_locked (Multiset.mem_cons_self dp c) hLock
  have hNone₂ : Rests ∅ s s₂ := hNone₁.trans hR₂.none
  rw [wp_bind]
  refine h₂.wp_dirlookup hR.stop hMine (fun s₃ _ hs => ?_) fun ip i s₃ _ _ h₃ _ hR₃ => ?_
  · obtain ⟨h₃, -⟩ := h₂.same hs
    have hMine₃ := hMine.of_same hs
    dsimp only
    rw [wp_bind]
    refine h₃.wp_ialloc hR.stop hG hRoot hType fun ip s₄ h₄ hR₄ hType₄ => ?_
    have hMine₄ : Mine (ip ::ₘ dp ::ₘ c) s₄ dp :=
      hMine₃.rests hR₄ hMine.mem h₄ (Multiset.mem_cons_of_mem hMine.mem)
    rw [wp_bind]
    refine h₄.wp_ilock hR.stop hG hStop (Multiset.mem_cons_self ip _) fun s₅ h₅ hLooked₅ hR₅ hLock₅ => ?_
    have hType₅ : (s₅.inode ip).di.type = type := by rw [h₅.synced ip hLock₅.live, hLock₅.inum, hLooked₅.home, hType₄]
    have hBoth : Both (ip ::ₘ dp ::ₘ c) s₅ dp ip := .of_lock hMine₄ (Multiset.mem_cons_self ip _) hLock₅ hR₅ h₅
    have hNone₅ : Rests ∅ s s₅ := ((hNone₂.trans (.of_same hs)).trans hR₄.none).trans
      hR₅.none
    rw [Multiset.cons_swap] at h₅ hBoth
    rw [wp_bind]
    exact h₅.wp_createIn hR hG hStop hBoth fun s' h' hR' hMine' hSame =>
      hSome ip s' h' (hNone₅.trans hR') hMine' (hSame.trans hType₅)
  · have hNone₃ : Rests ∅ s s₃ := hNone₂.trans hR₃.none
    rw [Multiset.cons_swap] at h₃
    dsimp only
    rw [wp_bind]
    refine h₃.wp_iunlockput hR.stop hG fun s₄ h₄ _ hR₄ _ => ?_
    have hNone₄ : Rests ∅ s s₄ := hNone₃.trans hR₄.none
    rw [wp_bind]
    refine h₄.wp_ilock hR.stop hG hStop (Multiset.mem_cons_self ip c) fun s₅ h₅ _ hR₅ hLock₅ => ?_
    have hNone₅ : Rests ∅ s s₅ := hNone₄.trans hR₅.none
    rw [wp_bind]
    apply wp_getK hR.stop
    by_cases hFile : type = tFile ∧ (s₅.inode ip).di.type = tFile
    · rw [if_pos hFile]
      exact hSome ip s₅ h₅ hNone₅ (.of_locked (Multiset.mem_cons_self ip c) hLock₅) (hFile.2.trans hFile.1.symm)
    · rw [if_neg hFile, wp_bind]
      exact h₅.wp_iunlockput hR.stop hG fun s₆ h₆ _ hR₆ _ => hNone s₆ h₆ (hNone₅.trans hR₆.none)

end Create

section Calls

variable {R : Rely Kern Stop Label} {sb : Superblock} {M : LowBits sb} {c : Multiset Nat} {s s' : Kern}
  {dp ip off p : Nat} {name : List UInt8} {path old new : Option (List UInt8)} {Q : Int → Kern → Prop} [CommitsIn R (InOrder M)]

theorem Fit.wp_linkBad (hR : Allows R) (hG : Geom sb) (hStop : R.stop (.panic .ilockNoType)) (h : Fit M (ip ::ₘ c) s)
    (hQ : ∀ r s', Fit M c s' → Rests ∅ s s' → Q r s') : wp R (linkBad ip) Q s := by
  have hMem : ip ∈ ip ::ₘ c := Multiset.mem_cons_self ip c
  rw [linkBad, wp_bind]
  refine h.wp_ilock hR hG hStop hMem fun s₁ h₁ _ hR₁ hLock => ?_
  refine h₁.wp_addLink hR hG (.of_locked hMem hLock) (2 ^ 16 - 1) fun s₂ h₂ hR₂ _ => ?_
  rw [wp_bind]
  refine h₂.wp_iunlockput hR hG fun s₃ h₃ _ hR₃ _ => ?_
  rw [wp_bind]
  refine h₃.wp_commitTransK hR fun s₄ h₄ _ hR₄ _ => hQ (-1) s₄ h₄ ?_
  exact ((hR₁.none.trans hR₂.none).trans
    hR₃.none).trans hR₄.none

theorem Fit.wp_sysLink (hR : Relies M R) (hG : Geom sb) (hStop : R.stop (.panic .ilockNoType)) (h : Fit M c s)
    (hRoot : rootino < sb.ninodes) (hCwd : ∀ j, (s.proc p).cwd = some j → j ∈ c)
    (hQ : ∀ r s', Fit M c s' → Rests ∅ s s' → Q r s') : wp R (sysLink p old new) Q s := by
  cases old with
  | none => exact hQ (-1) s h (.refl ∅ s)
  | some old =>
    cases new with
    | none => exact hQ (-1) s h (.refl ∅ s)
    | some new =>
      rw [sysLink, wp_bind]
      refine h.wp_namei hR.stop hG hStop hRoot hCwd (fun s₁ h₁ _ hR₁ => hQ (-1) s₁ h₁ hR₁.none)
        fun ip s₁ h₁ _ hR₁ => ?_
      have hMem : ip ∈ ip ::ₘ c := Multiset.mem_cons_self ip c
      dsimp only
      rw [wp_bind]
      refine h₁.wp_beginTransK hR.stop fun s₂ h₂ _ hR₂ _ => ?_
      rw [wp_bind]
      refine h₂.wp_ilock hR.stop hG hStop hMem fun s₃ h₃ _ hR₃ hLock => ?_
      have hNone₃ : Rests ∅ s s₃ := (hR₁.none.trans hR₂.none).trans
        hR₃.none
      rw [wp_bind]
      apply wp_getK hR.stop
      by_cases hDir : (s₃.inode ip).di.type = tDir
      · rw [if_pos hDir, wp_bind]
        refine h₃.wp_iunlockput hR.stop hG fun s₄ h₄ _ hR₄ _ => ?_
        rw [wp_bind]
        exact h₄.wp_commitTransK hR.stop fun s₅ h₅ _ hR₅ _ => hQ (-1) s₅ h₅
          ((hNone₃.trans hR₄.none).trans hR₅.none)
      · rw [if_neg hDir]
        refine h₃.wp_addLink hR.stop hG (.of_locked hMem hLock) 1 fun s₄ h₄ hR₄ _ => ?_
        rw [wp_bind]
        refine h₄.wp_iunlock hR.stop hMem fun s₅ h₅ _ hs₅ _ => ?_
        have hNone₅ : Rests ∅ s s₅ := (hNone₃.trans hR₄.none).trans
          (.of_others hs₅.file hs₅.proc hs₅.devsw hs₅.others (Set.notMem_empty ip))
        have hCwd₅ : ∀ j, (s₅.proc p).cwd = some j → j ∈ ip ::ₘ c := fun j hj =>
          Multiset.mem_cons_of_mem (hCwd j (by rwa [hNone₅.proc] at hj))
        rw [wp_bind]
        refine h₅.wp_namex hR.stop hG hStop hRoot hCwd₅ true (fun s₆ h₆ _ hR₆ => ?_) fun dp name s₆ h₆ _ hR₆ => ?_
        · exact h₆.wp_linkBad hR.stop hG hStop fun r s' h' hR' =>
            hQ r s' h' ((hNone₅.trans hR₆.none).trans hR')
        · have hMemD : dp ∈ dp ::ₘ ip ::ₘ c := Multiset.mem_cons_self dp _
          dsimp only
          rw [wp_bind]
          refine h₆.wp_ilock hR.stop hG hStop hMemD fun s₇ h₇ _ hR₇ hLock₇ => ?_
          rw [wp_bind]
          apply wp_getK hR.stop
          rw [wp_bind]
          refine h₇.wp_dirlink hR hG hStop (.of_locked hMemD hLock₇) (h₇.inum_lt (Multiset.mem_cons_of_mem hMem))
            fun b s₈ h₈ hR₈ _ => ?_
          have hNone₈ : Rests ∅ s s₈ := ((hNone₅.trans hR₆.none).trans
            hR₇.none).trans hR₈.none
          cases b with
          | true =>
            rw [if_pos rfl, wp_bind]
            refine h₈.wp_iunlockput hR.stop hG fun s₉ h₉ _ hR₉ _ => ?_
            rw [wp_bind]
            refine h₉.wp_iput hR.stop hG fun s₁₀ h₁₀ _ hR₁₀ => ?_
            rw [wp_bind]
            exact h₁₀.wp_commitTransK hR.stop fun s' h' _ hR' _ => hQ 0 s' h'
              (((hNone₈.trans hR₉.none).trans hR₁₀.none).trans
                hR'.none)
          | false =>
            rw [if_neg Bool.false_ne_true, wp_bind]
            refine h₈.wp_iunlockput hR.stop hG fun s₉ h₉ _ hR₉ _ => ?_
            exact h₉.wp_linkBad hR.stop hG hStop fun r s' h' hR' =>
              hQ r s' h' ((hNone₈.trans hR₉.none).trans hR')

theorem Fit.wp_unlinkBad (hR : Allows R) (hG : Geom sb) (h : Fit M (dp ::ₘ c) s)
    (hQ : ∀ r s', Fit M c s' → Rests ∅ s s' → Q r s') : wp R (unlinkBad dp) Q s := by
  rw [unlinkBad, wp_bind]
  refine h.wp_iunlockput hR hG fun s₁ h₁ _ hR₁ _ => ?_
  rw [wp_bind]
  exact h₁.wp_commitTransK hR fun s' h' _ hR' _ => hQ (-1) s' h'
    (hR₁.none.trans hR'.none)

theorem Fit.wp_unlinkEnd (hR : Allows R) (hG : Geom sb) (h : Fit M (dp ::ₘ ip ::ₘ c) s)
    (hBoth : Both (dp ::ₘ ip ::ₘ c) s dp ip) (hQ : ∀ r s', Fit M c s' → Rests ∅ s s' → Q r s') :
    wp R (do
      iunlockput dp
      nlinkDec ip
      iupdate ip
      iunlockput ip
      commitTransK
      return 0) Q s := by
  have hMem : ip ∈ ip ::ₘ c := Multiset.mem_cons_self ip c
  rw [wp_bind]
  refine h.wp_iunlockput hR hG fun s₁ h₁ _ hR₁ _ => ?_
  have hMine : Mine (ip ::ₘ c) s₁ ip := hBoth.node.rests hR₁ ⟨hMem, hBoth.ne.symm⟩ h₁ hMem
  refine h₁.wp_addLink hR hG hMine (2 ^ 16 - 1) fun s₂ h₂ hR₂ _ => ?_
  rw [wp_bind]
  refine h₂.wp_iunlockput hR hG fun s₃ h₃ _ hR₃ _ => ?_
  rw [wp_bind]
  exact h₃.wp_commitTransK hR fun s' h' _ hR' _ => hQ 0 s' h' (((hR₁.none.trans
    hR₂.none).trans hR₃.none).trans hR'.none)

theorem Fit.wp_unlinkEntry (hR : Relies M R) (hG : Geom sb) (hStop : R.stop (.panic .ilockNoType)) {i : Nat}
    (h : Fit M (dp ::ₘ ip ::ₘ c) s) (hBoth : Both (dp ::ₘ ip ::ₘ c) s dp ip) (hi : i < (s.inode dp).di.size / direntSz)
    (hQ : ∀ r s', Fit M c s' → Rests ∅ s s' → Q r s') : wp R (unlinkEntry dp ip (direntSz * i)) Q s := by
  have hZero : (decodeDirent (List.replicate direntSz 0)).inum < sb.ninodes := by
    rw [decodeDirent_zeros]
    exact Nat.zero_lt_of_lt (h.inum_lt hBoth.dir.mem)
  rw [unlinkEntry, wp_bind]
  refine h.wp_writei hR hG hStop hBoth.dir (fun _ => ⟨i, hi.le, rfl, List.length_replicate .., hZero⟩)
    fun r s₁ h₁ hR₁ hSame₁ _ => ?_
  have hBoth₁ := hBoth.of_dp h₁ hR₁ hSame₁
  have hNone₁ : Rests ∅ s s₁ := hR₁.none
  by_cases hWrote : r = some direntSz
  · rw [if_neg (not_not.mpr hWrote), wp_bind]
    apply wp_getK hR.stop
    by_cases hDir : (s₁.inode ip).di.type = tDir
    · rw [if_pos hDir]
      refine h₁.wp_addLink hR.stop hG hBoth₁.dir (2 ^ 16 - 1) fun s₂ h₂ hR₂ hSame₂ => ?_
      exact h₂.wp_unlinkEnd hR.stop hG (hBoth₁.of_dp h₂ hR₂ hSame₂) fun r s' h' hR' =>
        hQ r s' h' ((hNone₁.trans hR₂.none).trans hR')
    · rw [if_neg hDir]
      exact h₁.wp_unlinkEnd hR.stop hG hBoth₁ fun r s' h' hR' => hQ r s' h' (hNone₁.trans hR')
  · rw [if_pos hWrote]
    exact wp_panic hR.stop (by simp) (by simp)

theorem Fit.wp_sysUnlink (hR : Relies M R) (hG : Geom sb) (hStop : R.stop (.panic .ilockNoType)) (h : Fit M c s)
    (hRoot : rootino < sb.ninodes) (hCwd : ∀ j, (s.proc p).cwd = some j → j ∈ c)
    (hQ : ∀ r s', Fit M c s' → Rests ∅ s s' → Q r s') : wp R (sysUnlink p path) Q s := by
  cases path with
  | none => exact hQ (-1) s h (.refl ∅ s)
  | some path =>
    rw [sysUnlink, wp_bind]
    refine h.wp_namex hR.stop hG hStop hRoot hCwd true (fun s₁ h₁ _ hR₁ => hQ (-1) s₁ h₁ hR₁.none)
      fun dp name s₁ h₁ _ hR₁ => ?_
    have hMem : dp ∈ dp ::ₘ c := Multiset.mem_cons_self dp c
    dsimp only
    rw [wp_bind]
    refine h₁.wp_beginTransK hR.stop fun s₂ h₂ _ hR₂ _ => ?_
    rw [wp_bind]
    refine h₂.wp_ilock hR.stop hG hStop hMem fun s₃ h₃ _ hR₃ hLock => ?_
    have hMine : Mine (dp ::ₘ c) s₃ dp := .of_locked hMem hLock
    have hNone₃ : Rests ∅ s s₃ := (hR₁.none.trans hR₂.none).trans
      hR₃.none
    by_cases hDots : namecmp name dot = true ∨ namecmp name dotdot = true
    · rw [if_pos hDots]
      exact h₃.wp_unlinkBad hR.stop hG fun r s' h' hR' => hQ r s' h' (hNone₃.trans hR')
    · rw [if_neg hDots, wp_bind]
      refine h₃.wp_dirlookup hR.stop hMine (fun s₄ _ hs => ?_) fun ip i s₄ _ hi h₄ _ hR₄ => ?_
      · obtain ⟨h₄, -⟩ := h₃.same hs
        exact h₄.wp_unlinkBad hR.stop hG fun r s' h' hR' => hQ r s' h' ((hNone₃.trans (.of_same hs)).trans hR')
      · have hMine₄ : Mine (ip ::ₘ dp ::ₘ c) s₄ dp := hMine.rests hR₄ hMem h₄ (Multiset.mem_cons_of_mem hMem)
        have hDir₄ : (s₄.inode dp).di = (s₃.inode dp).di := by rw [hR₄.locked dp hMem hMine.busy]
        dsimp only
        rw [wp_bind]
        refine h₄.wp_ilock hR.stop hG hStop (Multiset.mem_cons_self ip _) fun s₅ h₅ _ hR₅ hLock₅ => ?_
        have hBoth : Both (ip ::ₘ dp ::ₘ c) s₅ dp ip := .of_lock hMine₄ (Multiset.mem_cons_self ip _) hLock₅ hR₅ h₅
        have hi₅ : i < (s₅.inode dp).di.size / direntSz := by rwa [hLock₅.others dp hBoth.ne, hDir₄]
        have hNone₅ : Rests ∅ s s₅ := (hNone₃.trans hR₄.none).trans hR₅.none
        rw [Multiset.cons_swap] at h₅ hBoth
        rw [wp_bind]
        apply wp_getK hR.stop
        by_cases hLinks : (s₅.inode ip).di.nlink = 0 ∨ 2 ^ 15 ≤ (s₅.inode ip).di.nlink
        · rw [if_pos hLinks]
          exact wp_panic hR.stop (by simp) (by simp)
        rw [if_neg hLinks]
        by_cases hDir : (s₅.inode ip).di.type = tDir
        · rw [if_pos hDir, wp_bind]
          refine h₅.wp_isdirempty hR.stop hBoth.node hDir fun b s₆ hs => ?_
          obtain ⟨h₆, -⟩ := h₅.same hs
          have hBoth₆ := hBoth.of_same hs
          have hNone₆ : Rests ∅ s s₆ := hNone₅.trans (.of_same hs)
          cases b with
          | true =>
            rw [if_pos rfl]
            exact h₆.wp_unlinkEntry hR hG hStop hBoth₆ (by rwa [hs.inode]) fun r s' h' hR' =>
              hQ r s' h' (hNone₆.trans hR')
          | false =>
            rw [if_neg Bool.false_ne_true, wp_bind]
            rw [Multiset.cons_swap] at h₆
            refine h₆.wp_iunlockput hR.stop hG fun s₇ h₇ _ hR₇ _ => ?_
            exact h₇.wp_unlinkBad hR.stop hG fun r s' h' hR' =>
              hQ r s' h' ((hNone₆.trans hR₇.none).trans hR')
        · rw [if_neg hDir]
          exact h₅.wp_unlinkEntry hR hG hStop hBoth hi₅ fun r s' h' hR' => hQ r s' h' (hNone₅.trans hR')

end Calls

end Xv6Rpi.Fs
