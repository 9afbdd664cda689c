import Xv6Rpi.Process.State

/-! # growproc and sbrk -/

namespace Xv6Rpi.Process

open Prog Sched Uvm

def growTo (p : Slot) (sz : Nat) : KernM Int := do
  modifyK fun s => s.setSz p sz
  switchuvm p
  return 0

def growproc (p : Slot) (n : BitVec 32) : KernM Int := do
  let s ← getK id
  if 0 < n.toInt then
    let sz ← onMem (allocuvm (s.pgdir p) (s.sz p) ((s.sz p + n.toNat) % 2 ^ 32))
    if sz = 0 then return -1 else growTo p sz
  else if n.toInt < 0 then
    let sz ← onMem (deallocuvm (s.pgdir p) (s.sz p) ((s.sz p + n.toNat) % 2 ^ 32))
    if sz = 0 then return -1 else growTo p sz
  else growTo p (s.sz p)

def sysSbrk (p : Slot) : KernM Int := do
  let s ← getK id
  let r ← growproc p (BitVec.ofNat 32 ((s.user p).tf.r 1))
  if r < 0 then return -1 else return (BitVec.ofNat 32 (s.sz p)).toInt

section Growing

variable {R : Rely Kernel Stop Label} {s s' : Kernel} {p : Slot} {n : BitVec 32}

/-- The size has changed by `n`, and the pages are those of the new size: the old ones with
their contents and new ones full of zeros. -/
structure Resized (s s' : Kernel) (p : Slot) (n : Int) : Prop where
  size : (s'.sz p : Int) = s.sz p + n
  maps : Maps s'.mem (s'.pgdir p) (s'.sz p)
  kept : ∀ va v ap, translate s.mem (s.pgdir p) va = some (v, ap) → va < pages (s'.sz p) * pteSz →
    translate s'.mem (s'.pgdir p) va = some (v, ap) ∧ s'.mem.byte v = s.mem.byte v
  zero : ∀ va v ap, translate s.mem (s.pgdir p) va = none → translate s'.mem (s'.pgdir p) va = some (v, ap) →
    ∀ i, s'.mem.byte v i = 0

structure SameSpace (s s' : Kernel) (p : Slot) : Prop where
  size : s'.sz p = s.sz p
  maps : ∀ va, translate s'.mem (s'.pgdir p) va = translate s.mem (s.pgdir p) va

/-- A call of `growproc` does what it says by its result. -/
def Exact (s : Kernel) (p : Slot) (n : BitVec 32) : Prop :=
  ∀ r s', (growproc p n).run s = .ok (r, s') → (r = 0 → Resized s s' p n.toInt) ∧ (r = -1 → SameSpace s s' p)

theorem SameSpace.refl (s : Kernel) (p : Slot) : SameSpace s s p := ⟨rfl, fun _ => rfl⟩

theorem wp_switchuvm (hR : R.Calm) (hPgdir : s.pgdir p ≠ 0) {Q : Unit → Kernel → Prop}
    (hQ : ∀ t, Q () (s.setTtbr t)) : wp R (switchuvm p) Q s := by
  apply wp_act hR
  rw [if_neg hPgdir]
  exact hQ _

theorem wp_growTo (hR : R.Calm) (hPgdir : s.pgdir p ≠ 0) {sz : Nat} {Q : Int → Kernel → Prop}
    (hQ : ∀ t, Q 0 ((s.setSz p sz).setTtbr t)) : wp R (growTo p sz) Q s := by
  rw [growTo, wp_bind]
  apply wp_modifyK hR
  rw [wp_bind]
  refine wp_switchuvm hR ?_ hQ
  exact hPgdir

theorem ne_zero_of_dir {m : Mem} {d : Nat} {T : Nat → Option Nat} {P : Nat → Option (Nat × Nat)} (h : Dir m d T P) :
    d ≠ 0 := by
  rintro rfl
  exact absurd h.addr.2.1 (by decide)

variable {T : Nat → Option Nat} {P : Nat → Option (Nat × Nat)}

theorem maps_le {d sz : Nat} {m : Mem} (h : Dir m d T P) (hMaps : ∀ k, P k ≠ none ↔ k < pages sz) : sz ≤ uaddrSz := by
  by_contra hLt
  have hPage : npages < pages sz := lt_pages.mpr (by
    simp only [npages, numUpde, numPte, pteSz, uaddrSz] at *
    omega)
  exact (hMaps npages).mpr hPage (h.lt_npages le_rfl)

/-- What a directory stands for before and after says whether the call did what it should. -/
theorem resized_of {m' : Mem} {T' : Nat → Option Nat} {P' : Nat → Option (Nat × Nat)} {sz' t : Nat} {x : Int}
    (hDir : Dir s.mem (s.pgdir p) T P) (hDir' : Dir m' (s.pgdir p) T' P') (hSize : (sz' : Int) = s.sz p + x)
    (hMaps : ∀ k, P' k ≠ none ↔ k < pages sz')
    (hKept : ∀ k v ap, P k = some (v, ap) → k < pages sz' → P' k = some (v, ap) ∧ m'.byte v = s.mem.byte v)
    (hZero : ∀ k v ap, P k = none → P' k = some (v, ap) → m'.byte v = fun _ => 0) :
    Resized s (((s.setMem m').setSz p sz').setTtbr t) p x := by
  have hNew : (((s.setMem m').setSz p sz').setTtbr t).sz p = sz' := Kernel.setSz_sz ..
  have hIdx : ∀ va, va < pages sz' * pteSz ↔ va / pteSz < pages sz' := fun va =>
    (Nat.div_lt_iff_lt_mul (by decide)).symm
  constructor
  · rw [hNew, hSize]
  · rw [hNew]
    exact hDir'.maps_iff.mpr hMaps
  · intro va v ap hOld hLt
    rw [hNew, hIdx] at hLt
    rw [hDir.translate] at hOld
    obtain ⟨hSame, hByte⟩ := hKept _ v ap hOld hLt
    exact ⟨(hDir'.translate va).trans hSame, hByte⟩
  · intro va v ap hOld hIs i
    rw [hDir.translate] at hOld
    have hPage := hZero _ v ap hOld ((hDir'.translate va).symm.trans hIs)
    exact congrFun hPage i

theorem toNat_of_pos (hn : 0 < n.toInt) : (n.toNat : Int) = n.toInt := by
  rw [BitVec.toInt_eq_toNat_cond] at *
  split at * <;> omega

theorem toNat_of_neg (hn : n.toInt < 0) : (n.toNat : Int) = n.toInt + 2 ^ 32 := by
  rw [BitVec.toInt_eq_toNat_cond] at *
  split at * <;> omega

theorem wp_grow (hR : R.Calm) (hStop : ∀ e, R.stop e) (hDir : Dir s.mem (s.pgdir p) T P)
    (hMaps : ∀ k, P k ≠ none ↔ k < pages (s.sz p)) (hn : 0 < n.toInt) {Q : Int → Kernel → Prop}
    (hDone : ∀ s', Resized s s' p n.toInt → Q 0 s') (hFail : ∀ s', SameSpace s s' p → Q (-1) s') :
    wp R (growproc p n) Q s := by
  have hNat := toNat_of_pos hn
  have hSz := maps_le hDir hMaps
  have hSum : (s.sz p + n.toNat) % 2 ^ 32 = s.sz p + n.toNat := by
    have hTop := BitVec.toInt_lt (x := n)
    simp only [uaddrSz] at hSz
    omega
  rw [growproc, wp_bind]
  apply wp_getK hR
  rw [if_pos hn, wp_bind]
  apply wp_onMem
  simp only [id]
  rw [hSum]
  by_cases hBig : uaddrSz ≤ s.sz p + n.toNat
  · rw [allocuvm, if_pos hBig, wp_pure, if_pos rfl, wp_pure]
    exact hFail s (.refl s p)
  · have hAllows : Allows (memRely R s) := ⟨hR.part .., fun _ _ _ => hStop _⟩
    have hNone : ∀ k, pages (s.sz p) ≤ k → k < pages (s.sz p + n.toNat) → P k = none := fun k hk _ =>
      not_not.mp fun hNe => absurd ((hMaps k).mp hNe) (Nat.not_lt.mpr hk)
    apply wp_allocuvm hAllows (Nat.le_add_right _ _) (Nat.lt_of_not_le hBig) hDir hNone
    · intro m' T' P' hGrew
      rw [if_neg (by omega)]
      refine wp_growTo hR ?_ fun t => hDone _ (resized_of hDir hGrew.dir ?_ ?_ ?_ ?_)
      · exact ne_zero_of_dir hDir
      · omega
      · intro k
        by_cases hk : pages (s.sz p) ≤ k ∧ k < pages (s.sz p + n.toNat)
        · obtain ⟨v, hv, -⟩ := hGrew.fresh k hk.1 hk.2
          rw [hv]
          exact ⟨fun _ => hk.2, fun _ => Option.some_ne_none _⟩
        · have hMono := pages_mono (Nat.le_add_right (s.sz p) n.toNat)
          rw [hGrew.other k hk, hMaps k]
          omega
      · intro k v ap hk _
        have hOut : ¬(pages (s.sz p) ≤ k ∧ k < pages (s.sz p + n.toNat)) := by
          rintro ⟨h₁, h₂⟩
          rw [hNone k h₁ h₂] at hk
          cases hk
        exact ⟨by rw [hGrew.other k hOut, hk], hGrew.kept v (hDir.pageUsed ⟨k, ap, hk⟩).used⟩
      · intro k v ap hk hk'
        by_cases hIn : pages (s.sz p) ≤ k ∧ k < pages (s.sz p + n.toNat)
        · obtain ⟨v', hv', hZero⟩ := hGrew.fresh k hIn.1 hIn.2
          rw [hv'] at hk'
          obtain ⟨rfl, -⟩ := Prod.mk.inj (Option.some.inj hk')
          exact hZero
        · rw [hGrew.other k hIn, hk] at hk'
          cases hk'
    · intro m' T' hUndone
      rw [if_pos rfl, wp_pure]
      refine hFail _ ⟨rfl, fun va => ?_⟩
      exact (hUndone.dir.translate va).trans (hDir.translate va).symm

theorem solid_of_maps {lo sz : Nat} (hMaps : ∀ k, P k ≠ none ↔ k < pages sz) : Solid P lo (pages sz) := by
  intro k k' _ hLe hLt hNone
  exact absurd hNone ((hMaps k').mpr (hLe.trans_lt hLt))

/-- `growproc` with a negative argument; the new size is computed modulo `2 ^ 32`. -/
theorem wp_shrink (hR : R.Calm) (hDir : Dir s.mem (s.pgdir p) T P) (hMaps : ∀ k, P k ≠ none ↔ k < pages (s.sz p))
    (hn : n.toInt < 0) {newsz : Nat} (hNew : (s.sz p + n.toNat) % 2 ^ 32 = newsz) {Q : Int → Kernel → Prop}
    (hQ : ∀ m', Dir m' (s.pgdir p) T (cleared P (pages newsz) (pages (s.sz p))) → m'.byte = s.mem.byte →
      (min newsz (s.sz p) = 0 → Q (-1) (s.setMem m')) ∧
      (min newsz (s.sz p) ≠ 0 → ∀ t, Q 0 (((s.setMem m').setSz p (min newsz (s.sz p))).setTtbr t))) :
    wp R (growproc p n) Q s := by
  rw [growproc, wp_bind]
  apply wp_getK hR
  rw [if_neg (by omega), if_pos hn, wp_bind]
  apply wp_onMem
  simp only [id]
  rw [hNew]
  apply wp_deallocuvm (hR.part ..) (maps_le hDir hMaps) hDir (solid_of_maps hMaps)
  intro m' hDir' _ hByte
  obtain ⟨hZero, hPos⟩ := hQ m' hDir' hByte
  by_cases hMin : min newsz (s.sz p) = 0
  · rw [if_pos hMin, wp_pure]
    exact hZero hMin
  · rw [if_neg hMin]
    refine wp_growTo hR ?_ (hPos hMin)
    exact ne_zero_of_dir hDir

/-- All memory or more is taken away: the call returns, but not with what it should. -/
theorem not_exact (hDir : Dir s.mem (s.pgdir p) T P) (hMaps : ∀ k, P k ≠ none ↔ k < pages (s.sz p))
    (hPos : 0 < s.sz p) (hBelow : n.toInt ≤ -(s.sz p : Int)) : ¬Exact s p n := by
  intro hExact
  have hSz := maps_le hDir hMaps
  have hLow := BitVec.le_toInt n
  have hNeg : n.toInt < 0 := by omega
  have hNat := toNat_of_neg hNeg
  simp only [uaddrSz] at hSz
  have hWrong : wp .strict (growproc p n) (fun r s' =>
      ¬((r = 0 → Resized s s' p n.toInt) ∧ (r = -1 → SameSpace s s' p))) s := by
    apply wp_shrink Rely.strict_calm hDir hMaps hNeg rfl
    intro m' hDir' _
    constructor
    · rintro hMin ⟨-, hSame⟩
      have hEmpty := (hSame rfl).maps 0
      have hNew : (s.sz p + n.toNat) % 2 ^ 32 = 0 := by omega
      rw [hNew] at hDir'
      have hPage : 0 < pages (s.sz p) := lt_pages.mpr (by omega)
      have hGone : cleared P (pages 0) (pages (s.sz p)) (0 / pteSz) = none := if_pos ⟨le_rfl, hPage⟩
      rw [hDir.translate] at hEmpty
      have hOld := (hMaps 0).mpr hPage
      exact hOld (hEmpty.symm.trans ((hDir'.translate 0).trans hGone))
    · rintro hMin t ⟨hResized, -⟩
      have hSize := (hResized rfl).size
      rw [show (((s.setMem m').setSz p _).setTtbr t).sz p = _ from Kernel.setSz_sz ..] at hSize
      omega
  obtain ⟨r, s', hRun, hBad⟩ := wp_strict hWrong
  exact hBad (hExact r s' hRun)

def onePage (l : List Nat) : Mem :=
  Mem.setEntry { (bare l).withTable 0x80018000 0 0x80019000 with
    page := fun v => v == 0x80200000
    answers := l } 0x80019000 0 (pteWord (v2p 0x80200000) apKu)

def onePageTables : Nat → Option Nat := Function.update (fun _ => none) 0 (some 0x80019000)

def onePagePages : Nat → Option (Nat × Nat) := Function.update (fun _ => none) 0 (some (0x80200000, apKu))

theorem onePage_dir (l : List Nat) : Dir (onePage l) 0x80018000 onePageTables onePagePages := by
  have hFree : (bare l).FreeTable 0x80019000 :=
    ⟨by decide, by decide, by decide, (by decide : 0x80019000 ≠ 0x80014000), rfl, rfl⟩
  have hTab : (onePage l).tab = (Mem.setEntry ((bare l).withTable 0x80018000 0 0x80019000) 0x80019000 (0 % 256)
      ((some (0x80200000, apKu)).elim 0 fun q => pteWord (v2p q.1) q.2)).tab := by
    rw [Option.elim_some]
    rfl
  refine ((bare_dir l).withTable (by decide) rfl hFree).1.setPte (Function.update_self ..) rfl rfl rfl hTab ?_ ?_
  · intro v ap hEq
    obtain ⟨rfl, rfl⟩ := Prod.mk.inj (Option.some.inj hEq)
    exact ⟨⟨by decide, (by decide : 0x80200000 ≤ 0x80200000), by decide, beq_self_eq_true _⟩, by decide,
      fun _ _ h => by cases h⟩
  · intro _ _ _ _ h
    cases h

theorem onePage_maps (k : Nat) : onePagePages k ≠ none ↔ k < pages pteSz := by
  rw [show pages pteSz = 1 from rfl, Nat.lt_one_iff, onePagePages]
  by_cases hk : k = 0
  · rw [hk, Function.update_self]
    exact ⟨fun _ => rfl, fun _ => Option.some_ne_none _⟩
  · rw [Function.update_of_ne hk]
    exact ⟨fun h => absurd rfl h, fun h => absurd h hk⟩

def oneProcess (l : List Nat) : Kernel where
  fs := ⟨fun _ _ => 0, fun _ => false, ⟨0, 0, false, 0, fun _ => 0⟩, fun _ => ⟨0, 1, false, false, Fs.Dinode.zero⟩,
    fun _ => ⟨.none, 0, false, false, 0, 0⟩, fun _ => ⟨fun _ => none, some 0⟩, fun _ => none⟩
  mem := onePage l
  tbl := .userinit 0x80201000 0x80018000
  user _ := ⟨pteSz, ⟨0, 0, 0, 0, fun _ => 0, 0⟩, []⟩
  ttbr := 0

theorem oneProcess_dir (l : List Nat) : IsDir (oneProcess l).mem ((oneProcess l).pgdir 0) := ⟨_, _, onePage_dir l⟩

theorem oneProcess_maps (l : List Nat) : Maps (oneProcess l).mem ((oneProcess l).pgdir 0) ((oneProcess l).sz 0) :=
  (onePage_dir l).maps_iff.mpr onePage_maps

/-- A call of `growproc` does what it says except when it is to take away all of the memory
or more: for `-sz` it frees everything and returns -1, and below that it does nothing and
returns 0. -/
theorem growproc_exact_iff (hDir : IsDir s.mem (s.pgdir p)) (hMaps : Maps s.mem (s.pgdir p) (s.sz p)) :
    Exact s p n ↔ 0 ≤ n.toInt ∨ -(s.sz p : Int) < n.toInt ∨ s.sz p = 0 := by
  obtain ⟨T, P, hDir⟩ := hDir
  rw [hDir.maps_iff] at hMaps
  have hSz := maps_le hDir hMaps
  have hLow := BitVec.le_toInt n
  simp only [uaddrSz] at hSz
  constructor
  · intro hExact
    by_contra hNot
    rw [not_or, not_or] at hNot
    exact not_exact hDir hMaps (by omega) (by omega) hExact
  · intro hCond r s' hRun
    refine wp_loose (Q := fun r s' => (r = 0 → Resized s s' p n.toInt) ∧ (r = -1 → SameSpace s s' p)) ?_ hRun
    have hResult : ∀ s', Resized s s' p n.toInt →
        ((0 : Int) = 0 → Resized s s' p n.toInt) ∧ ((0 : Int) = -1 → SameSpace s s' p) :=
      fun s' h => ⟨fun _ => h, fun hFalse => absurd hFalse (by decide)⟩
    have hFailure : ∀ s', SameSpace s s' p →
        ((-1 : Int) = 0 → Resized s s' p n.toInt) ∧ ((-1 : Int) = -1 → SameSpace s s' p) :=
      fun s' h => ⟨fun hFalse => absurd hFalse (by decide), fun _ => h⟩
    obtain hPos | hZero | hNeg := lt_trichotomy 0 n.toInt
    · exact wp_grow Rely.loose_calm (fun _ => trivial) hDir hMaps hPos hResult hFailure
    · rw [growproc, wp_bind]
      apply wp_getK Rely.loose_calm
      rw [if_neg (by omega), if_neg (by omega)]
      refine wp_growTo Rely.loose_calm (ne_zero_of_dir hDir) fun t => hResult _ ?_
      exact resized_of hDir hDir (by rw [id]; omega) hMaps (fun k v ap hk _ => ⟨hk, rfl⟩) fun k v ap h₁ h₂ => by
        rw [h₁] at h₂
        cases h₂
    · have hNat := toNat_of_neg hNeg
      apply wp_shrink Rely.loose_calm hDir hMaps hNeg rfl
      intro m' hDir' hByte
      constructor
      · intro hMin
        have hEmpty : s.sz p = 0 := by omega
        refine hFailure _ ⟨rfl, fun va => (hDir'.translate va).trans ?_⟩
        rw [hDir.translate, cleared_none]
        intro k _ hk
        rw [hEmpty] at hk
        exact absurd hk (Nat.not_lt_zero k)
      · intro hMin t
        have hLt : (s.sz p + n.toNat) % 2 ^ 32 < s.sz p := by omega
        have hMono := pages_mono hLt.le
        rw [min_eq_left hLt.le]
        refine hResult _ (resized_of hDir hDir' (by omega) (fun k => ?_) (fun k v ap hk hLt' => ?_) fun k v ap h₁ h₂ => ?_)
        · rw [cleared]
          split
          · next hk => exact ⟨fun hNe => absurd rfl hNe, fun hk' => absurd hk' (Nat.not_lt.mpr hk.1)⟩
          · rw [hMaps k]
            omega
        · exact ⟨(if_neg fun hIn => absurd hIn.1 (Nat.not_le.mpr hLt')).trans hk, congrFun hByte v⟩
        · rw [cleared, h₁, ite_self] at h₂
          cases h₂

/-- The second page is found. -/
theorem growproc_exact_iff_second_page : ∃ s', (growproc 0 4096).run (oneProcess [0x80202000]) = .ok (0, s') ∧
    Resized (oneProcess [0x80202000]) s' 0 4096 := by
  have hExact : Exact (oneProcess [0x80202000]) 0 4096 :=
    (growproc_exact_iff (oneProcess_dir _) (oneProcess_maps _)).mpr (.inl (by decide))
  have hResult : ((growproc 0 4096).run (oneProcess [0x80202000])).toOption.map Prod.fst = some 0 := by decide +kernel
  obtain ⟨⟨r, s'⟩, hRun, rfl⟩ := Option.map_eq_some_iff.mp hResult
  rw [toOption_eq_some] at hRun
  exact ⟨s', hRun, (hExact _ _ hRun).1 rfl⟩

theorem growproc_all_fails : IsDir (oneProcess []).mem ((oneProcess []).pgdir 0) ∧
    Maps (oneProcess []).mem ((oneProcess []).pgdir 0) ((oneProcess []).sz 0) ∧ ¬Exact (oneProcess []) 0 (-4096) :=
  ⟨oneProcess_dir _, oneProcess_maps _,
    not_exact (onePage_dir []) onePage_maps (by decide : 0 < pteSz) (by decide : (-4096 : BitVec 32).toInt ≤ -(pteSz : Int))⟩

end Growing

end Xv6Rpi.Process
