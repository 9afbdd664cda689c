import Xv6Rpi.Process.Args

/-! # The end of exec

Either `exec` fails, and all it has taken has been given back, or the process has the new image
and its argument stack.
-/

namespace Xv6Rpi.Process

open Prog Sched Uvm

/-- Of the whole kernel only the registers `r0` and `r1` of the process may have changed. -/
structure Kept (s s' : Kernel) (p : Slot) : Prop where
  tbl : s'.tbl = s.tbl
  ttbr : s'.ttbr = s.ttbr
  files : (s'.fs.file, s'.fs.proc, s'.fs.devsw) = (s.fs.file, s.fs.proc, s.fs.devsw)
  mem : Restored s.mem s'.mem
  user : ∃ r, s'.user = Function.update s.user p { s.user p with tf := { (s.user p).tf with r := r } } ∧
    ∀ i, i ≠ 0 → i ≠ 1 → r i = (s.user p).tf.r i

/-- The process starts with `argv`: the guard page is page `K`, the stack page `v` holds the
strings at the addresses `l` and below them the array. -/
structure Started (s s' : Kernel) (p : Slot) (argv : List (List UInt8)) (K v off : Nat) (l : List Nat) : Prop where
  size : s'.sz p = (K + 2) * pteSz
  low : K + 1 < npages
  top : ∀ va, va / pteSz = K + 1 → translate s'.mem (s'.pgdir p) va = some (v, apKu)
  guard : ∀ va, va / pteSz = K → ∃ g, translate s'.mem (s'.pgdir p) va = some (g, apKo)
  argc : (s'.user p).tf.r 0 = argv.length
  argvPtr : (s'.user p).tf.r 1 = (K + 1) * pteSz + off
  sp : (s'.user p).tf.spUsr = (K + 1) * pteSz + off
  aligned : off % 4 = 0
  array : Has (s'.mem.byte v) off (wordBytes (l ++ [0]))
  laid : Laid (s'.mem.byte v) ((K + 1) * pteSz) pteSz argv l (off + 4 * (argv.length + 1))

section Ends

variable {w : Watch} {R : Rely Kernel Stop Label} {s₀ s s' : Kernel} {p : Slot} {d K v sz : Nat} {T T₀ : Nat → Option Nat}
  {P P₀ : Nat → Option (Nat × Nat)}

theorem wordBytes_length (l : List Nat) : (wordBytes l).length = 4 * l.length := by
  induction l with
  | nil => rfl
  | cons w l ih =>
    rw [wordBytes, List.flatMap_cons, List.length_append, ← wordBytes, ih, List.length_cons]
    simp only [List.length_cons, List.length_nil]
    omega

theorem Kept.of_same (h : SameProc s₀ s) (hMem : Restored s₀.mem s.mem) : Kept s₀ s p where
  tbl := h.tbl
  ttbr := h.ttbr
  files := h.files
  mem := hMem
  user := ⟨(s₀.user p).tf.r, by rw [h.user]; exact (Function.update_eq_self p s₀.user).symm, fun _ _ _ => rfl⟩

theorem wp_execBad (hR : Loads R True) {m : Mem} (h : Built m s.mem d T P) (ip : Option Nat) {Q : Int → Kernel → Prop}
    (hQ : ∀ m' k, Restored m m' → (k.file, k.proc, k.devsw) = (s.fs.file, s.fs.proc, s.fs.devsw) →
      Q (-1) ((s.setMem m').setFs k)) : wp R (execBad d ip) Q s := by
  obtain ⟨m₁, hBegun, hTouch⟩ := h.begun
  rw [execBad.eq_def]
  dsimp only
  rw [if_pos (ne_zero_of_dir h.dir), wp_bind]
  apply wp_onMem
  apply wp_freevm (hR.mem s) h.dir h.solid
  intro m' hFreed
  have hRestored := hBegun.restored hTouch hFreed
  cases ip with
  | none => exact hQ m' s.fs hRestored rfl
  | some ip =>
    dsimp only
    rw [wp_bind]
    refine wp_lift fs_isPart (wp_keeps ⟨fun l _ => hR.must (.fs l) _ fun _ => trivial⟩ (fun e => hR.fs e)
      (Fs.files_iunlockput ip) fun _ k hFiles => ?_)
    exact hQ m' k hRestored hFiles

theorem checked_execBad {J : Judge Kernel Stop Label} (hJ : Guards J) (ip : Option Nat) : (execBad d ip).Checked J := by
  rw [execBad.eq_def]
  dsimp only
  cases ip with
  | none =>
    split
    · exact checked_bind (hJ.checked_onMem fun h => h.freevm d) fun _ => checked_pure _
    · exact checked_pure _
  | some ip =>
    have hEnd : (onFs (Fs.iunlockput ip) >>= fun _ => (Pure.pure (-1) : KernM Int)).Checked J :=
      checked_bind (hJ.checked_onFs _) fun _ => checked_pure _
    split
    · exact checked_bind (hJ.checked_onMem fun h => h.freevm d) fun _ => hEnd
    · exact hEnd

theorem Watch.loads (w : Watch) : Loads w.judge.rely True where
  must _ _ h _ := h trivial
  fs _ := trivial
  panic h := absurd trivial h

theorem Watch.worse_loads (hPages : w.pages) : Loads w.judge.worse True where
  must _ _ _ := trivial
  fs _ := Or.inr hPages
  panic h := absurd trivial h

theorem judge_execBad_zero (ip : Nat) {Q B : Int → Kernel → Prop}
    (hQ : ∀ k, (k.file, k.proc, k.devsw) = (s.fs.file, s.fs.proc, s.fs.devsw) → Q (-1) (s.setFs k)) :
    judge w.judge (execBad 0 (some ip)) Q B s := by
  rw [execBad]
  dsimp only
  rw [if_neg (not_not.mpr rfl)]
  apply judge_bind
  apply w.guards.judge_keeps (Fs.files_iunlockput ip)
  exact fun _ k hFiles => judge_pure (hQ k hFiles)

theorem judge_execCommit {path : List UInt8} {entry sp : Nat} (hOld : Dir s.mem (s.pgdir p) T₀ P₀)
    (hSolid : Solid P₀ 0 npages) (hNew : Dir s.mem d T P) {Q B : Int → Kernel → Prop}
    (hQ : ∀ s', Freed s.mem s'.mem (s.pgdir p) T₀ P₀ → s'.pgdir p = d → s'.sz p = sz →
      (s'.user p).tf = { (s.user p).tf with pc := entry, spUsr := sp } → Q 0 s') :
    judge w.judge (execCommit p path d sz entry sp) Q B s := by
  have hJ := w.guards
  rw [execCommit]
  apply judge_bind
  apply hJ.judge_getK
  apply judge_bind
  apply hJ.judge_modifyK
  apply judge_bind
  apply hJ.judge_modifyK
  apply judge_bind
  apply hJ.judge_modifyK
  apply judge_bind
  apply hJ.judge_act
  have hPgdir : ∀ (t : Ptable) (s' : Kernel), s'.tbl = t.set p (fun x => { x with pgdir := d }) → s'.pgdir p = d := by
    intro t s' hTbl
    rw [Kernel.pgdir, hTbl, Ptable.set_proc]
  rw [if_neg]
  · apply judge_bind
    apply judge_onMem ((hJ.mem _).freevm _)
    apply wp_freevm (hJ.mem _).allows.toCalm hOld hSolid
    intro m' hFreed
    refine judge_pure (hQ _ hFreed (hPgdir s.tbl _ rfl) ?_ ?_)
    · simp only [Kernel.sz, Kernel.setMem, Kernel.setTtbr, Kernel.setUser, Function.update_self]
    · simp only [Kernel.setMem, Kernel.setTtbr, Kernel.setTbl, Kernel.setUser, Function.update_self]
  · exact (hPgdir s.tbl _ rfl).trans_ne (ne_zero_of_dir hNew)

theorem judge_execArgs {path : List UInt8} {entry lo : Nat} {argv : List (List UInt8)} {l : List Nat}
    (hOld : Dir s₀.mem (s₀.pgdir p) T₀ P₀) (hSolid : Solid P₀ 0 npages) (hSame : SameProc s₀ s)
    (h : Stacked s₀.mem s.mem d K v T P) (hLaid : Laid (s.mem.byte v) ((K + 1) * pteSz) pteSz argv l lo)
    (hLo : lo % 4 = 0) (hCount : argv.length ≤ maxarg) {Q B : Int → Kernel → Prop}
    (hDone : ∀ s' off, Started s₀ s' p argv K v off l → Q 0 s')
    (hFail : ∀ s', Kept s₀ s' p → w.array ∨ s'.user = s₀.user → Q (-1) s') :
    judge w.judge (execArgs p path d ((K + 2) * pteSz) entry ((K + 1) * pteSz + lo) l) Q B s := by
  have hLength := hLaid.length
  have hTop := hLaid.le
  have hK := h.low
  simp only [npages, numUpde, numPte] at hK
  have hAddr : ((K + 1) * pteSz + lo + 2 ^ 32 - (l.length + 1) * 4) % 2 ^ 32 =
      (K + 1) * pteSz + lo - (l.length + 1) * 4 := by
    simp only [pteSz, maxarg] at *
    omega
  have hBuf : (wordBytes (l ++ [0])).length = (l.length + 1) * 4 := by
    rw [wordBytes_length, List.length_append, List.length_singleton, Nat.mul_comm]
  have hRoom : (l.length + 1) * 4 ≤ (K + 1) * pteSz := by
    simp only [pteSz, maxarg] at *
    omega
  have hJ := w.guards
  rw [execArgs]
  dsimp only
  rw [hAddr]
  apply judge_mark
  · exact fun _ => trivial
  · intro hMay _
    apply judge_bind
    apply hJ.judge_modifyK
    apply judge_bind
    apply judge_onMem ((hJ.mem _).copyout ..)
    refine wp_push (hJ.mem _).allows.toCalm h ?_ ?_ ?_ ?_ ?_
    · rw [hBuf]
      omega
    · rw [hBuf]
      omega
    · rw [hBuf, show (K + 2) * pteSz = (K + 1) * pteSz + pteSz from Nat.succ_mul ..]
      omega
    · intro off hOff
      have hEnd : off + 4 * (argv.length + 1) = lo := by omega
      have h' := h.store off (wordBytes (l ++ [0]))
      obtain ⟨m₁, hBegun, hTouch⟩ := h'.begun
      obtain ⟨hOld₁, hApart₁⟩ := hBegun.other hOld
      obtain ⟨hOld₂, hApart⟩ := hTouch.other hOld₁ hApart₁
      have hPgdir : s.pgdir p = s₀.pgdir p := by rw [Kernel.pgdir, hSame.tbl, Kernel.pgdir]
      rw [← hPgdir] at hOld₂ hApart
      rw [if_neg (by decide), hOff]
      refine judge_execCommit hOld₂ hSolid h'.dir fun s' hFreed hNew hSize hTf => hDone s' off ?_
      have hDir : Dir s'.mem (s'.pgdir p) T P := hNew ▸ hFreed.other h'.dir hApart.symm
      have hR : (s'.user p).tf.r = Function.update (Function.update (s.user p).tf.r 0 l.length) 1 ((K + 1) * pteSz + off) := by
        rw [hTf]
        simp only [Kernel.setMem, Kernel.setUser, Function.update_self]
      constructor
      · exact hSize
      · exact h.low
      · intro va hVa
        rw [hDir.translate, hVa, h.top]
      · intro va hVa
        obtain ⟨g, hg⟩ := h.guard
        exact ⟨g, by rw [hDir.translate, hVa, hg]⟩
      · rw [hR, Function.update_of_ne (by decide), Function.update_self, hLength]
      · rw [hR, Function.update_self]
      · rw [hTf]
      · omega
      · rw [hFreed.byte]
        exact has_store s.mem v off _
      · rw [hFreed.byte, hEnd]
        exact hLaid.congr fun j hj => store_above s.mem v off _ (by rw [hBuf]; omega)
    · intro m' _ h'
      rw [if_pos (by decide)]
      refine judge_of_wp (checked_execBad hJ none) (wp_execBad w.loads h'.toBuilt none fun m₁ k hRestored hFiles =>
        hFail _ ?_ (.inl hMay))
      refine ⟨hSame.tbl, hSame.ttbr, hFiles.trans hSame.files, hRestored, ?_⟩
      rw [← hSame.user]
      refine ⟨_, rfl, fun i h₀ h₁ => ?_⟩
      rw [Function.update_of_ne h₁, Function.update_of_ne h₀]
  · exact fun hNot => absurd (fun _ => trivial) hNot

theorem Image.stacked {m m₁ m' : Mem} (h : Image m m₁ d ((K + 2) * pteSz) T P) {g : Nat}
    (hv : P (K + 1) = some (v, apKu)) (hDir : Dir m' d T (Function.update P K (some (g, apKo))))
    (hTouch : Touch m₁ m' d T T P (Function.update P K (some (g, apKo)))) :
    Stacked m m' d K v T (Function.update P K (some (g, apKo))) := by
  have hPages : pages ((K + 2) * pteSz) = K + 2 := by
    simp only [pages, pteSz]
    omega
  have hPage : ∀ k, Function.update P K (some (g, apKo)) k ≠ none ↔ k < K + 2 := by
    intro k
    by_cases hk : k = K
    · rw [hk, Function.update_self]
      exact ⟨fun _ => by omega, fun _ => Option.some_ne_none _⟩
    · rw [Function.update_of_ne hk, h.page k, hPages]
  have hAll := pages_le_npages h.size.le
  rw [hPages] at hAll
  constructor
  · exact h.touch hTouch hDir (solid_of_pages hPage npages)
  · rw [Function.update_of_ne (by omega), hv]
  · exact ⟨g, Function.update_self ..⟩
  · intro j hj
    rw [h.table, hPages]
    omega
  · omega

theorem judge_execStack {path : List UInt8} {entry : Nat} {argv : List (List UInt8)} {seen : List Proghdr}
    (hOld : Dir s₀.mem (s₀.pgdir p) T₀ P₀) (hSolid : Solid P₀ 0 npages) (hSame : SameProc s₀ s)
    (h : Image s₀.mem s.mem d (imageSize seen) T P) (hLen : ∀ str ∈ argv, str.length + 1 ≤ uaddrSz)
    {Q B : Int → Kernel → Prop} (hDone : ∀ s' K v off l, Started s₀ s' p argv K v off l → Q 0 s')
    (hFail : ∀ s', Kept s₀ s' p → w.array ∨ s'.user = s₀.user → Q (-1) s')
    (hWrong : w.pages → ∀ s', Kept s₀ s' p → s'.user = s₀.user → B (-1) s') :
    judge w.judge (execStack p path argv d (imageSize seen) entry seen) Q B s := by
  have hJ := w.guards
  have hKept : ∀ {s₁ : Kernel} {m' : Mem} {k : Fs.Kern}, SameProc s₀ s₁ → Restored s₀.mem m' →
      (k.file, k.proc, k.devsw) = (s₁.fs.file, s₁.fs.proc, s₁.fs.devsw) → Kept s₀ ((s₁.setMem m').setFs k) p :=
    fun hSame₁ hRestored hFiles => .of_same ((hSame₁.setMem _).setFs hFiles) hRestored
  have hBad : ∀ {s₁ : Kernel} {T₁ : Nat → Option Nat} {P₁ : Nat → Option (Nat × Nat)}, SameProc s₀ s₁ →
      Built s₀.mem s₁.mem d T₁ P₁ → judge w.judge (execBad d none) Q B s₁ := fun hSame₁ hBuilt =>
    judge_of_wp (checked_execBad hJ none) (wp_execBad w.loads hBuilt none fun m' k hRestored hFiles => hFail _
      (hKept hSame₁ hRestored hFiles) (.inr hSame₁.user))
  generalize hSeen : imageSize seen = sz at h ⊢
  have hUp := alignUp_pages h.size.le
  have hAll := pages_le_npages h.size.le
  have hNew : (pages sz * pteSz + 2 * pteSz) % 2 ^ 32 = (pages sz + 2) * pteSz := by
    simp only [npages, numUpde, numPte, pteSz] at *
    omega
  have hTop : (pages sz + 2) * pteSz = (pages sz + 1) * pteSz + pteSz := Nat.succ_mul ..
  have hArgs : w.judge.good (.args seen (argv.map List.length)) s ↔
      (w.fits → ArgsFit ((pages sz + 1) * pteSz) maxarg ((pages sz + 1) * pteSz + pteSz) (argv.map List.length)) := by
    rw [← hTop, Nat.succ_mul, Nat.add_mul, ← hUp, ← hSeen]
    exact Iff.rfl
  rw [execStack, hUp, hNew]
  apply judge_bind
  apply judge_lift mem_isPart
  by_cases hBig : uaddrSz ≤ (pages sz + 2) * pteSz
  · rw [allocuvm, if_pos hBig]
    apply judge_pure
    rw [if_pos rfl]
    exact hBad hSame h.toBuilt
  · have hSize : pages sz * pteSz < uaddrSz := by
      simp only [pteSz] at *
      omega
    have hPages : pages (pages sz * pteSz) = pages sz := by
      simp only [pages, pteSz]
      omega
    have hMax : max (pages sz * pteSz) ((pages sz + 2) * pteSz) = (pages sz + 2) * pteSz :=
      max_eq_right (Nat.mul_le_mul_right _ (Nat.le_add_right _ 2))
    apply judge_growImage (hJ.mem s) (h.resize hSize hPages)
    · rw [hMax]
      intro m' T' P' h'
      have hUser : ∀ k < pages sz + 2, ∃ v, P' k = some (v, apKu) := by
        intro k hk
        have hSome : P' k ≠ none := (h'.page k).mpr (by simp only [pages, pteSz] at *; omega)
        obtain ⟨⟨v, ap⟩, hv⟩ := Option.ne_none_iff_exists'.mp hSome
        exact ⟨v, by rw [hv, h'.user k v ap hv]⟩
      obtain ⟨g, hg⟩ := hUser (pages sz) (by omega)
      obtain ⟨v, hv⟩ := hUser (pages sz + 1) (by omega)
      have hGuard : (pages sz + 2) * pteSz - 2 * pteSz = pages sz * pteSz := by
        rw [Nat.add_mul, Nat.add_sub_cancel]
      rw [if_neg (by simp only [pteSz]; omega), hGuard]
      apply judge_bind
      apply judge_onMem ((hJ.mem _).clearpteu ..)
      apply wp_clearpteu (hJ.mem _).allows.toCalm h'.dir hg
      intro m₁ hDir hTouch _
      have hSame' := (hSame.setMem m').setMem m₁
      have hStacked := h'.stacked hv hDir hTouch
      rw [hTop]
      apply judge_mark
      · exact fun _ => trivial
      · intro _ hFits
        have hFits' := hArgs.mp hFits
        apply judge_bind
        refine judge_of_wp (hJ.checked_pushArgs ..) (wp_pushArgs argv ⟨?_, fun _ => trivial, ?_⟩ hSame' hStacked le_rfl
          (by decide) hLen (Nat.zero_add _) ?_ ?_)
        · exact fun l s hInside hw => hInside (hFits' hw)
        · exact fun hNot p hp => Watch.fine_panic hp fun hw => hNot (hFits' hw)
        · intro s' lo l _ hSame'' hStacked' hLo hLaid _ hCount
          rw [List.nil_append]
          rw [← hTop]
          exact judge_execArgs hOld hSolid hSame'' hStacked' hLaid hLo hCount (fun s'' off => hDone s'' _ _ off l) hFail
        · exact fun s' _ => hBad
      · intro hNot
        obtain ⟨hw, hNot⟩ := Classical.not_imp.mp (mt hArgs.mpr hNot)
        apply wrong_of_wp
        rw [wp_bind]
        refine wp_pushArgs argv ⟨fun _ _ _ => trivial, fun _ => Or.inl hw, fun _ p hp => Watch.bad_panic hp hw⟩ hSame' hStacked
          le_rfl (by decide) hLen (Nat.zero_add _) ?_ ?_
        · exact fun _ _ _ hFits => absurd hFits hNot
        · exact fun _ hFits => absurd hFits hNot
    · intro m' T' P' hBuilt
      rw [if_pos rfl]
      exact hBad (hSame.setMem m') hBuilt
    · intro m₂ m' T' P' hNot hBuilt
      have hPagesWatched := Watch.pages_of_not_good hNot
      rw [if_pos rfl]
      apply wrong_of_wp
      refine wp_execBad (Watch.worse_loads hPagesWatched) hBuilt none fun m₁ k hRestored hFiles => ?_
      exact hWrong hPagesWatched _ (hKept (hSame.setMem m') hRestored hFiles) hSame.user

theorem judge_execFile {path elf : List UInt8} {argv : List (List UInt8)} {ip : Nat}
    (hOld : Dir s₀.mem (s₀.pgdir p) T₀ P₀) (hSolid : Solid P₀ 0 npages) (hSame : SameProc s₀ s) (hMem : s.mem = s₀.mem)
    (hValid : (s.fs.inode ip).valid = true) (hLen : ∀ str ∈ argv, str.length + 1 ≤ uaddrSz) {Q B : Int → Kernel → Prop}
    (hDone : ∀ s' K v off l, Started s₀ s' p argv K v off l → Q 0 s')
    (hFail : ∀ s', Kept s₀ s' p → w.array ∨ s'.user = s₀.user → Q (-1) s')
    (hWrong : w.pages → ∀ s', Kept s₀ s' p → s'.user = s₀.user → B (-1) s') :
    judge w.judge (execFile p path argv ip elf) Q B s := by
  have hJ := w.guards
  rw [execFile]
  apply judge_bind
  apply judge_onMem (hJ.mem s).checkedKptAlloc
  apply wp_begin (hJ.mem s).allows
  intro d m' hBegun
  rw [hMem] at hBegun
  apply judge_bind
  have hEmpty : Image s₀.mem (s.setMem m').mem d (imageSize []) (fun _ => none) fun _ => none :=
    image_of_begun hBegun hOld.heap
  refine judge_loadSegments _ (hSame.setMem m') hValid hEmpty ?_ ?_ ?_
  · intro seen s' T P hSame' hImage
    apply judge_bind
    apply hJ.judge_keeps (Fs.files_iunlockput ip)
    exact fun _ k hFiles => judge_execStack hOld hSolid (hSame'.setFs hFiles) hImage hLen hDone hFail hWrong
  · intro s' T P hSame' hBuilt
    refine judge_of_wp (checked_execBad hJ _) (wp_execBad w.loads hBuilt (some ip) fun m₁ k hRestored hFiles => hFail _ ?_ ?_)
    · exact .of_same ((hSame'.setMem m₁).setFs hFiles) hRestored
    · exact .inr hSame'.user
  · intro hPages s' T P hSame' hBuilt
    apply wrong_of_wp
    refine wp_execBad (Watch.worse_loads hPages) hBuilt (some ip) fun m₁ k hRestored hFiles => hWrong hPages _ ?_ hSame'.user
    exact .of_same ((hSame'.setMem m₁).setFs hFiles) hRestored

theorem judge_exec {path header : List UInt8} {argv : List (List UInt8)} (hOld : Dir s.mem (s.pgdir p) T₀ P₀)
    (hSolid : Solid P₀ 0 npages) (hLen : ∀ str ∈ argv, str.length + 1 ≤ uaddrSz) {Q B : Int → Kernel → Prop}
    (hDone : ∀ s' K v off l, Started s s' p argv K v off l → Q 0 s')
    (hFail : ∀ s', Kept s s' p → w.array ∨ s'.user = s.user → Q (-1) s')
    (hWrong : w.pages → ∀ s', Kept s s' p → s'.user = s.user → B (-1) s') :
    judge w.judge (exec p path argv header) Q B s := by
  have hJ := w.guards
  rw [exec]
  apply judge_bind
  apply hJ.judge_keeps (Fs.files_namei ..)
  intro r k₁ hFiles₁
  have hSame₁ := (SameProc.refl s).setFs hFiles₁
  cases r with
  | none => exact judge_pure (hFail _ (.of_same hSame₁ (.refl _)) (.inr rfl))
  | some ip =>
    apply judge_bind
    apply hJ.judge_ilock
    intro k₂ hFiles₂ hValid
    have hSame₂ := hSame₁.setFs hFiles₂
    apply judge_bind
    apply hJ.judge_readi
    intro r k₃ hFile₃
    have hSame₃ := hSame₂.setFs hFile₃.files
    dsimp only
    split_ifs with hHeader
    · exact judge_execBad_zero ip fun k hFiles => hFail _ (.of_same (hSame₃.setFs hFiles) (.refl _)) (.inr rfl)
    · exact judge_execFile hOld hSolid hSame₃ rfl (hFile₃.inode hValid).1 hLen hDone hFail hWrong

end Ends

end Xv6Rpi.Process
