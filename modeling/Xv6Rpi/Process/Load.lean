import Xv6Rpi.Process.Exec

/-! # Loading an image

While `exec` builds the new image nothing of its caller changes, and whenever it gives up, all
it has taken is given back. What can go wrong is decided by the program headers and the lengths of the
arguments: where the pages of a segment lie, and how far down the stack pointer goes.
-/

namespace Xv6Rpi.Process

open Prog Sched Uvm

def imageSize (seen : List Proghdr) : Nat := seen.foldl (fun sz ph => max sz ((ph.vaddr + ph.memsz) % 2 ^ 32)) 0

def pageBytes (k : Fs.Kern) (ip : Nat) (ph : Proghdr) (j : Nat) : Nat :=
  Fs.readLength k ip ((ph.off + j * pteSz) % 2 ^ 32) (min (ph.filesz - j * pteSz) pteSz)

/-- Page `j` of a segment has a page table, and it lies below the size `sz` of the image if the file has a
byte for it. -/
def PageFits (k : Fs.Kern) (ip sz : Nat) (ph : Proghdr) (j : Nat) : Prop :=
  ph.vaddr + j * pteSz < alignUp sz pdeSz ∧ (pageBytes k ip ph j = 0 ∨ ph.vaddr + j * pteSz < sz)

/-- The segment begins at a page, and its pages fit, up to the first that the file does not have all of. -/
def SegmentFits (k : Fs.Kern) (ip sz : Nat) (ph : Proghdr) : Prop :=
  ph.vaddr % pteSz = 0 ∧
    ∀ j < pages ph.filesz, (∀ i < j, pageBytes k ip ph i = min (ph.filesz - i * pteSz) pteSz) → PageFits k ip sz ph j

/-- Strings of these lengths, at most `left` of them, are pushed below `sp`: none is longer than the stack
pointer, up to the first that does not fit into the stack page, which begins at `base`. -/
def ArgsFit (base : Nat) : Nat → Nat → List Nat → Prop
  | 0, _, _ | _ + 1, _, [] => True
  | left + 1, sp, n :: lens => n + 1 ≤ sp ∧ (base + (n + 1) ≤ sp → ArgsFit base left ((sp - (n + 1)) / 4 * 4) lens)

instance (k : Fs.Kern) (ip sz : Nat) (ph : Proghdr) (j : Nat) : Decidable (PageFits k ip sz ph j) :=
  inferInstanceAs (Decidable (_ ∧ _))

instance (k : Fs.Kern) (ip sz : Nat) (ph : Proghdr) : Decidable (SegmentFits k ip sz ph) :=
  inferInstanceAs (Decidable (_ ∧ _))

instance (base : Nat) : (left sp : Nat) → (lens : List Nat) → Decidable (ArgsFit base left sp lens)
  | 0, _, _ => .isTrue trivial
  | _ + 1, _, [] => .isTrue trivial
  | left + 1, sp, n :: lens =>
    have := instDecidableArgsFit base left ((sp - (n + 1)) / 4 * 4) lens
    inferInstanceAs (Decidable (_ ∧ _))

/-- Page tables are found, and the segments and the arguments fit. -/
def Fits : Label → Kernel → Prop
  | .mem l, s => Tables l s.mem
  | .segment ip seen ph, s => SegmentFits s.fs ip (imageSize (seen ++ [ph])) ph
  | .args seen lens, _ =>
    ArgsFit (alignUp (imageSize seen) pteSz + pteSz) maxarg (alignUp (imageSize seen) pteSz + 2 * pteSz) lens
  | .step, _ | .fs _, _ | .fill .., _ | .ustack, _ => True

instance : (l : Label) → (s : Kernel) → Decidable (Fits l s)
  | .mem l, s => inferInstanceAs (Decidable (Tables l s.mem))
  | .segment ip seen ph, s => inferInstanceAs (Decidable (SegmentFits s.fs ip (imageSize (seen ++ [ph])) ph))
  | .args seen lens, _ => inferInstanceAs (Decidable (ArgsFit (alignUp (imageSize seen) pteSz + pteSz) maxarg _ lens))
  | .step, _ | .fs _, _ | .fill .., _ | .ustack, _ => .isTrue trivial

/-- What is read to a page lies within the pages that have been allocated. -/
def Inside : Label → Kernel → Prop
  | .fill va sz n, _ => n = 0 ∨ va + n ≤ alignUp sz pteSz
  | _, _ => True

/-- What is watched in a run of `exec`: whether the segments and the arguments fit, whether page tables and
pages are found; and whether the argument array is reached. -/
structure Watch where
  fits : Prop
  tables : Prop
  pages : Prop
  array : Prop

/-- Where it is watched whether the image fits, every panic is bad. What the file system stops with hides
whatever would have come after it. -/
def Watch.judge (w : Watch) : Judge Kernel Stop Label where
  may
    | .ustack, _ => w.array
    | _, _ => True
  must l s := w.fits → Inside l s
  good
    | .mem l, s => (w.tables → Tables l s.mem) ∧ (w.pages → Uvm.PagesFound l s.mem)
    | l, s => w.fits → Fits l s
  fine
    | .fs _ => True
    | .panic .oomKptAlloc => ¬w.tables
    | .panic _ => ¬w.fits
  bad
    | .fs _ => w.fits ∨ w.pages
    | .panic .oomKptAlloc => w.tables
    | .panic _ => w.fits

section Rules

variable {w : Watch} {J : Judge Kernel Stop Label} {s : Kernel} {α : Type} {Q B : α → Kernel → Prop} {p : Panic}

theorem Watch.guards (w : Watch) : Guards w.judge where
  mem _ := {
    allows := ⟨⟨fun _ _ _ => trivial⟩, fun _ hMay hNot hTables => hNot (hMay.2.1 hTables)⟩
    step := fun _ => ⟨fun _ => trivial, fun _ => trivial⟩
    allocPage := fun _ hFree => ⟨fun _ => trivial, fun _ => hFree⟩
    kptAlloc := fun _ hNot => by
      have hTables : w.tables := by
        by_contra hTables
        exact hNot ⟨fun h => absurd h hTables, fun _ => trivial⟩
      exact ⟨fun hFree => hNot ⟨fun _ => hFree, fun _ => trivial⟩, hTables⟩ }
  step _ := ⟨fun _ => trivial, fun _ => trivial⟩
  fs _ _ := ⟨fun _ => trivial, fun _ => trivial⟩
  stop _ := trivial

theorem Watch.fine_panic (hp : p ≠ .oomKptAlloc) (h : ¬w.fits) : w.judge.fine (.panic p) := by
  cases p <;> first | exact h | exact absurd rfl hp

theorem Watch.bad_panic (hp : p ≠ .oomKptAlloc) (h : w.fits) : w.judge.bad (.panic p) := by
  cases p <;> first | exact h | exact absurd rfl hp

theorem Watch.pages_of_not_good (h : ¬w.judge.good (.mem .allocPage) s) : w.pages := by
  by_contra hPages
  exact h ⟨fun _ => trivial, fun hp => absurd hp hPages⟩

theorem Guards.checked_onMem (hJ : Guards J) {x : UvmM α} (hx : ∀ {J' : Judge Mem Panic Uvm.Label}, Watches J' → x.Checked J') :
    (onMem x).Checked J := checked_lift_part mem_isPart fun s => hx (hJ.mem s)

theorem Guards.checked_act (hJ : Guards J) (f : Kernel → Except Stop (α × Kernel)) : (act f).Checked J :=
  checked_of_good fun s => (hJ.step s).1

theorem Guards.checked_onFs (hJ : Guards J) (x : Fs.FsM α) : (onFs x).Checked J :=
  checked_lift_part fs_isPart fun _ => checked_of_forall (fun l _ => (hJ.fs l _).1) x

theorem Guards.judge_keeps (hJ : Guards J) {x : Fs.FsM α} (hx : Fs.KeepsFiles x)
    (hQ : ∀ a k, (k.file, k.proc, k.devsw) = (s.fs.file, s.fs.proc, s.fs.devsw) → Q a (s.setFs k)) :
    judge J (onFs x) Q B s := by
  refine judge_of_wp (hJ.checked_onFs x) (wp_lift fs_isPart ?_)
  exact wp_keeps ⟨fun l k => (hJ.fs l _).2⟩ (fun e => hJ.stop e) hx fun a k h => hQ a k h

theorem Guards.judge_readi (hJ : Guards J) {ip off n : Nat} {Q B : Option (List UInt8) → Kernel → Prop}
    (hQ : ∀ r k, Fs.SameFile ip s.fs k → Q r (s.setFs k)) : judge J (onFs (Fs.readi ip off n)) Q B s := by
  refine judge_of_wp (hJ.checked_onFs _) (wp_lift fs_isPart ?_)
  exact Fs.wp_readi_same ⟨fun l k => (hJ.fs l _).2⟩ (fun e => hJ.stop e) fun r k h _ => hQ r k h

theorem Guards.judge_ilock (hJ : Guards J) {ip : Nat} {Q B : Unit → Kernel → Prop}
    (hQ : ∀ k, (k.file, k.proc, k.devsw) = (s.fs.file, s.fs.proc, s.fs.devsw) → (k.inode ip).valid = true →
      Q () (s.setFs k)) : judge J (onFs (Fs.ilock ip)) Q B s := by
  refine judge_of_wp (hJ.checked_onFs _) (wp_lift fs_isPart ?_)
  have hKeeps : wp (J.rely.part Kernel.setFs .fs .fs s) (Fs.ilock ip)
      (fun _ k => (k.file, k.proc, k.devsw) = (s.fs.file, s.fs.proc, s.fs.devsw)) s.fs :=
    wp_keeps ⟨fun l k => (hJ.fs l _).2⟩ (fun e => hJ.stop e) (Fs.files_ilock ip) fun _ _ h => h
  exact wp_mono (wp_and hKeeps (Fs.valid_ilock ip s.fs)) fun _ k h => hQ k h.1 h.2

/-- A place that is watched, with what follows: beyond it the place is known to be good, and where it is not
good, what follows comes to a bad end. -/
theorem judge_mark {l : Label} {x : Unit → KernM α} (hMust : ∀ s, Inside l s)
    (hGood : w.judge.may l s → w.judge.good l s → judge w.judge (x ()) Q B s)
    (hBad : ¬w.judge.good l s → Wrong w.judge B (x ()) s) : judge w.judge (mark l >>= x) Q B s := by
  apply judge_bind
  exact judge_single (fun hMay hl => ⟨fun _ => hMust s, hGood hMay hl⟩) fun _ hl => hBad hl

end Rules

section Image

variable {w : Watch} {s₀ s s' : Kernel} {d sz va ip off n : Nat} {T T' : Nat → Option Nat}
  {P P' : Nat → Option (Nat × Nat)}

structure SameProc (s₀ s : Kernel) : Prop where
  tbl : s.tbl = s₀.tbl
  user : s.user = s₀.user
  ttbr : s.ttbr = s₀.ttbr
  files : (s.fs.file, s.fs.proc, s.fs.devsw) = (s₀.fs.file, s₀.fs.proc, s₀.fs.devsw)

/-- All that has been taken since `m` belongs to the new directory `d`. -/
structure Built (m m' : Mem) (d : Nat) (T : Nat → Option Nat) (P : Nat → Option (Nat × Nat)) : Prop where
  dir : Dir m' d T P
  solid : Solid P 0 npages
  begun : ∃ m₁, Begun m m₁ d ∧ Touch m₁ m' d (fun _ => none) T (fun _ => none) P

/-- The new directory maps the pages of the size, all of them for user programs, and it has no
more tables than it needs. -/
structure Image (m m' : Mem) (d sz : Nat) (T : Nat → Option Nat) (P : Nat → Option (Nat × Nat)) : Prop extends
    Built m m' d T P where
  size : sz < uaddrSz
  page : ∀ k, P k ≠ none ↔ k < pages sz
  user : ∀ k v ap, P k = some (v, ap) → ap = apKu
  table : ∀ i, T i ≠ none ↔ 256 * i < pages sz

variable {m m₁ m' : Mem}

theorem Built.touch (h : Built m m₁ d T P) (hTouch : Touch m₁ m' d T T' P P') (hDir : Dir m' d T' P')
    (hSolid : Solid P' 0 npages) : Built m m' d T' P' where
  dir := hDir
  solid := hSolid
  begun := by
    obtain ⟨m₀, hBegun, hOld⟩ := h.begun
    exact ⟨m₀, hBegun, hOld.trans hTouch⟩

theorem solid_of_pages {hi : Nat} (h : ∀ k, P k ≠ none ↔ k < hi) (top : Nat) : Solid P 0 top := by
  intro k k' _ hLe _ hNone
  have hOut : ¬k' < hi := fun hLt => (h k').mpr hLt hNone
  by_contra hNe
  exact hOut (hLe.trans_lt ((h k).mp hNe))

theorem image_of_begun (h : Begun m m' d) (hHeap : kernbase < m.heap) : Image m m' d 0 (fun _ => none) fun _ => none where
  dir := h.dir hHeap
  solid _ _ _ _ _ _ := rfl
  begun := ⟨m', h, .refl (h.dir hHeap)⟩
  size := by decide
  page k := by
    rw [show pages 0 = 0 from rfl]
    exact ⟨fun hNe => absurd rfl hNe, fun hk => absurd hk (Nat.not_lt_zero k)⟩
  user _ _ _ hk := by cases hk
  table i := by
    rw [show pages 0 = 0 from rfl]
    exact ⟨fun hNe => absurd rfl hNe, fun hk => absurd hk (Nat.not_lt_zero _)⟩

theorem Image.resize (h : Image m m' d sz T P) {sz' : Nat} (hSize : sz' < uaddrSz) (hPages : pages sz' = pages sz) :
    Image m m' d sz' T P where
  toBuilt := h.toBuilt
  size := hSize
  page := by rw [hPages]; exact h.page
  user := h.user
  table := by rw [hPages]; exact h.table

theorem Image.grow (h : Image m m₁ d sz T P) {sz' : Nat} (hLe : sz ≤ sz') (hSize : sz' < uaddrSz)
    (hGrew : Grew m₁ m' d (pages sz) (pages sz') T T' P P') : Image m m' d sz' T' P' := by
  have hPages := pages_mono hLe
  have hPage : ∀ k, P' k ≠ none ↔ k < pages sz' := by
    intro k
    by_cases hk : pages sz ≤ k ∧ k < pages sz'
    · obtain ⟨v, hv, -⟩ := hGrew.fresh k hk.1 hk.2
      rw [hv]
      exact ⟨fun _ => hk.2, fun _ => Option.some_ne_none _⟩
    · rw [hGrew.other k hk, h.page k]
      omega
  constructor
  · exact h.touch hGrew.touch hGrew.dir (solid_of_pages hPage npages)
  · exact hSize
  · exact hPage
  · intro k v ap hk
    by_cases hIn : pages sz ≤ k ∧ k < pages sz'
    · obtain ⟨v', hv', -⟩ := hGrew.fresh k hIn.1 hIn.2
      rw [hk] at hv'
      exact (Prod.mk.inj (Option.some.inj hv')).2
    · rw [hGrew.other k hIn] at hk
      exact h.user k v ap hk
  · intro i
    constructor
    · intro hi
      obtain hOld | ⟨k, -, hk, rfl⟩ := hGrew.added i hi
      · exact ((h.table i).mp hOld).trans_le hPages
      · omega
    · intro hi
      obtain ⟨⟨v, ap⟩, hk⟩ := Option.ne_none_iff_exists'.mp ((hPage _).mpr hi)
      obtain ⟨-, -, t, ht⟩ := hGrew.dir.page _ v ap hk
      rw [Nat.mul_div_cancel_left i (by decide)] at ht
      rw [ht]
      exact Option.some_ne_none t

/-- `allocuvm` as `exec` uses it: the new size is any word. -/
theorem judge_growImage {J : Judge Mem Panic Uvm.Label} (hJ : Watches J) (h : Image m m₁ d sz T P) {newsz : Nat}
    {Q B : Nat → Mem → Prop} (hDone : ∀ m' T' P', Image m m' d (max sz newsz) T' P' → Q (max sz newsz) m')
    (hFail : ∀ m' T' P', Built m m' d T' P' → Q 0 m')
    (hWrong : ∀ m₂ m' T' P', ¬J.good .allocPage m₂ → Built m m' d T' P' → B 0 m') :
    judge J (allocuvm d sz newsz) Q B m₁ := by
  by_cases hBig : uaddrSz ≤ newsz
  · rw [allocuvm, if_pos hBig]
    exact judge_pure (hFail m₁ T P h.toBuilt)
  · by_cases hLt : newsz < sz
    · rw [allocuvm, if_neg hBig, if_pos hLt]
      rw [max_eq_left hLt.le] at hDone
      exact judge_pure (hDone m₁ T P h)
    · have hLe : sz ≤ newsz := Nat.le_of_not_lt hLt
      have hNone : ∀ k, pages sz ≤ k → k < pages newsz → P k = none := fun k hk _ =>
        not_not.mp fun hNe => absurd ((h.page k).mp hNe) (Nat.not_lt.mpr hk)
      have hBack : ∀ {m' T'}, Undone m₁ m' d T T' P → Built m m' d T' P := fun hUndone =>
        h.touch hUndone.touch hUndone.dir h.solid
      apply judge_allocuvm hJ hLe (Nat.lt_of_not_le hBig) h.dir hNone
      · rw [max_eq_right hLe] at hDone
        exact fun m' T' P' hGrew => hDone m' T' P' (h.grow hLe (Nat.lt_of_not_le hBig) hGrew)
      · exact fun _ m' T' _ _ _ hUndone => hFail m' T' P (hBack hUndone)
      · exact fun m₂ m' T' _ hNot _ hUndone => hWrong m₂ m' T' P hNot (hBack hUndone)

theorem Image.store (h : Image m m₁ d sz T P) {v : Nat} (hIn : InPages P v) (bytes : List UInt8) :
    Image m (m₁.store v 0 bytes) d sz T P where
  toBuilt := by
    obtain ⟨hDir, hTouch⟩ := h.dir.store hIn 0 bytes
    exact h.touch hTouch hDir h.solid
  size := h.size
  page := h.page
  user := h.user
  table := h.table

/-- There is a page table for an address exactly below the size rounded up to 1 MB. -/
theorem Image.find_iff (h : Image m m₁ d sz T P) : va < alignUp sz pdeSz ↔ T (pdeIdx va) ≠ none := by
  have hSize := h.size
  rw [h.table, pdeIdx_eq, lt_pages, show pdeSz = 2 ^ 20 from rfl,
    alignUp_eq sz 20 (by decide) (by simp only [uaddrSz] at hSize; omega)]
  simp only [pteSz]
  omega

/-- The entry that `walkpgdir` finds leads to the page, or to no user page at all. -/
theorem Image.entry (h : Image m m₁ d sz T P) {t : Nat} (hT : T (pdeIdx va) = some t) :
    (InPages P (p2v (pteAddr (m₁.tab t (pteIdx va)))) ∧ va < pages sz * pteSz) ∨
      (p2v (pteAddr (m₁.tab t (pteIdx va))) < m₁.heap ∧ pages sz * pteSz ≤ va) := by
  have hPage := h.page (va / pteSz)
  rw [Nat.div_lt_iff_lt_mul (by decide)] at hPage
  cases hP : P (va / pteSz) with
  | none =>
    refine .inr ⟨?_, Nat.le_of_not_lt fun hLt => hPage.mpr hLt hP⟩
    rw [← idx_add] at hP
    rw [h.dir.pte_none hT (pteIdx_lt va) hP]
    exact (by decide : p2v (pteAddr 0) = kernbase).trans_lt h.dir.heap
  | some q =>
    obtain ⟨v, ap⟩ := q
    refine .inl ⟨?_, hPage.mp (hP ▸ Option.some_ne_none _)⟩
    rw [← idx_add] at hP
    obtain ⟨-, hAddr, hV, -⟩ := h.dir.pte_some hT (pteIdx_lt va) hP
    rw [hAddr, hV]
    exact ⟨_, ap, hP⟩

end Image

section Load

variable {w : Watch} {R : Rely Kernel Stop Label} {s₀ s s' : Kernel} {k₀ : Fs.Kern} {d sz va ip off n : Nat}
  {T T' : Nat → Option Nat} {P P' : Nat → Option (Nat × Nat)} {ph : Proghdr}

theorem SameProc.refl (s : Kernel) : SameProc s s := ⟨rfl, rfl, rfl, rfl⟩

theorem SameProc.setMem (h : SameProc s₀ s) (m : Mem) : SameProc s₀ (s.setMem m) := ⟨h.tbl, h.user, h.ttbr, h.files⟩

theorem SameProc.setFs (h : SameProc s₀ s) {k : Fs.Kern}
    (hFiles : (k.file, k.proc, k.devsw) = (s.fs.file, s.fs.proc, s.fs.devsw)) : SameProc s₀ (s.setFs k) :=
  ⟨h.tbl, h.user, h.ttbr, hFiles.trans h.files⟩

structure Loads (R : Rely Kernel Stop Label) (fits : Prop) : Prop where
  must : ∀ l s, (fits → Inside l s) → R.must l s
  fs : ∀ e, R.stop (.fs e)
  panic : ¬fits → ∀ p, p ≠ .oomKptAlloc → R.stop (.panic p)

theorem Loads.mem {fits : Prop} (hR : Loads R fits) (s : Kernel) : (memRely R s).Calm := ⟨fun _ _ => hR.must _ _ fun _ => trivial⟩

theorem Loads.mono {fits fits' : Prop} (hR : Loads R fits) (h : fits → fits') : Loads R fits' where
  must l s hInside := hR.must l s fun hFits => hInside (h hFits)
  fs := hR.fs
  panic hNot := hR.panic (mt h hNot)

theorem Loads.act {fits : Prop} (hR : Loads R fits) {α : Type} {f : Kernel → Except Stop (α × Kernel)} {Q : α → Kernel → Prop}
    (h : match f s with
      | .error e => R.stop e
      | .ok (a, s') => Q a s') : wp R (act f) Q s := by
  rw [Process.act, wp_single]
  refine fun _ => ⟨hR.must _ _ fun _ => trivial, ?_⟩
  revert h
  cases f s with
  | error e => exact id
  | ok r => exact id

theorem wp_fillPage {R : Rely Mem Panic Uvm.Label} (hR : R.Calm) {m : Mem} {v : Nat} {bytes : List UInt8}
    {Q : Unit → Mem → Prop} (hEmpty : bytes = [] → Q () m)
    (hStore : bytes ≠ [] → m.heap ≤ v → Q () (m.store v 0 bytes))
    (hOut : bytes ≠ [] → ¬(m.heap ≤ v ∧ m.page v = true) → R.stop .outside) : wp R (fillPage v bytes) Q m := by
  apply Uvm.wp_act hR
  by_cases hBytes : bytes = []
  · rw [if_pos hBytes]
    exact hEmpty hBytes
  · rw [if_neg hBytes]
    by_cases hIn : m.heap ≤ v ∧ m.page v = true
    · rw [if_pos hIn]
      exact hStore hBytes hIn.1
    · rw [if_neg hIn]
      exact hOut hBytes hIn

theorem pageBytes_same (h : Fs.SameFile ip k₀ s.fs) (hValid : (k₀.inode ip).valid = true) (j : Nat) :
    pageBytes s.fs ip ph j = pageBytes k₀ ip ph j := h.readLength hValid _ _

theorem wp_loadPage {j : Nat} (hR : Loads R (PageFits s.fs ip sz ph j)) (hVa : ph.vaddr + j * pteSz = va) (hSame : SameProc s₀ s)
    (h : Image s₀.mem s.mem d sz T P) (hAligned : va % pteSz = 0) {Q : Bool → Kernel → Prop}
    (hQ : ∀ s', PageFits s.fs ip sz ph j → SameProc s₀ s' → Image s₀.mem s'.mem d sz T P →
      Fs.SameFile ip s.fs s'.fs → va < uaddrSz → Q (pageBytes s.fs ip ph j == min (ph.filesz - j * pteSz) pteSz) s') :
    wp R (loadPage d va ip ((ph.off + j * pteSz) % 2 ^ 32) (min (ph.filesz - j * pteSz) pteSz) sz) Q s := by
  rw [PageFits, hVa] at hR hQ
  have hTable := @Image.find_iff _ _ va _ _ _ _ h
  have hLow : T (pdeIdx va) ≠ none → va < uaddrSz := by
    intro hNe
    obtain ⟨t, hT⟩ := Option.ne_none_iff_exists'.mp hNe
    have hi := (h.dir.table _ t hT).1
    rw [pdeIdx_eq] at hi
    simp only [numUpde, pteSz, uaddrSz] at *
    omega
  have hSize : alignUp sz pteSz = pages sz * pteSz := alignUp_pages h.size.le
  have hRange : va < sz ↔ va < pages sz * pteSz := by
    have hLt := @lt_pages (va / pteSz) sz
    simp only [pages, pteSz] at *
    omega
  rw [loadPage, wp_bind]
  apply wp_onMem
  apply wp_walk (hR.mem s) h.dir
  · intro t hT
    have hVa := hLow (hT ▸ Option.some_ne_none t)
    have hEntry := h.entry hT
    rw [wp_bind]
    apply hR.act
    dsimp only
    rw [wp_bind]
    refine wp_lift fs_isPart (Fs.wp_readi_same ⟨fun l _ => hR.must (.fs l) _ fun _ => trivial⟩ (fun e => hR.fs e) ?_)
    intro r k hFile hLen
    have hSame' := (hSame.setMem s.mem).setFs hFile.files
    generalize hBytes : (r.getD []).take (min (ph.filesz - j * pteSz) pteSz) = bytes at hLen ⊢
    have hLen' : bytes.length = pageBytes s.fs ip ph j := hLen
    rw [wp_bind, mark, wp_single]
    refine fun _ => ⟨hR.must _ _ fun hFits => ?_, ?_⟩
    · rw [hLen']
      refine hFits.2.imp_right fun hLt => ?_
      have hLe : pageBytes s.fs ip ph j ≤ pteSz := (Fs.readLength_le ..).trans (min_le_right ..)
      rw [hSize]
      rw [hRange] at hLt
      simp only [pteSz] at *
      omega
    · dsimp only
      rw [wp_bind]
      apply wp_onMem
      apply wp_fillPage (hR.mem _)
      · rintro rfl
        rw [wp_pure, hLen']
        exact hQ _ ⟨hTable.mpr (hT ▸ Option.some_ne_none t), .inl hLen'.symm⟩ (hSame'.setMem s.mem) h hFile hVa
      · intro _ hHeap
        obtain ⟨hIn, hLt⟩ | ⟨hBelow, -⟩ := hEntry
        · rw [wp_pure, hLen']
          exact hQ _ ⟨hTable.mpr (hT ▸ Option.some_ne_none t), .inr (hRange.mpr hLt)⟩ (hSame'.setMem _) (h.store hIn _) hFile hVa
        · exact absurd hHeap (Nat.not_le.mpr hBelow)
      · intro hSome hOut
        obtain ⟨hIn, -⟩ | ⟨-, hHigh⟩ := hEntry
        · have hPage := h.dir.pageUsed hIn
          exact absurd ⟨hPage.low, hPage.used⟩ hOut
        · refine hR.panic (fun hFits => ?_) _ (by decide)
          obtain hZero | hLt := hFits.2
          · exact hSome (List.eq_nil_of_length_eq_zero (hLen'.trans hZero))
          · exact absurd (hRange.mp hLt) (Nat.not_lt.mpr hHigh)
  · intro hT
    apply hR.act
    exact hR.panic (fun hFits => hTable.mp hFits.1 hT) _ (by decide)
  · intro hOut
    exact hR.panic (fun hFits => absurd (hLow (hTable.mp hFits.1)) (Nat.not_lt.mpr hOut)) _ (by decide)

/-- The loop of `loaduvm`, when the pages before `j` have been loaded. It has as many turns as it needs,
since the addresses it comes to lie below the end of the user addresses. -/
theorem wp_loadLoop (hR : Loads R (SegmentFits k₀ ip sz ph)) (turns : Nat) {j : Nat} (hAligned : ph.vaddr % pteSz = 0)
    (hSum : ph.vaddr + j * pteSz < 2 ^ 32) (hTurns : ph.filesz ≤ (j + turns) * pteSz) (hSame : SameProc s₀ s)
    (h : Image s₀.mem s.mem d sz T P) (hFile : Fs.SameFile ip k₀ s.fs) (hValid : (k₀.inode ip).valid = true)
    (hBefore : ∀ i < j, PageFits k₀ ip sz ph i ∧ pageBytes k₀ ip ph i = min (ph.filesz - i * pteSz) pteSz)
    {Q : Bool → Kernel → Prop}
    (hQ : ∀ ok s', SegmentFits k₀ ip sz ph → SameProc s₀ s' → Image s₀.mem s'.mem d sz T P → Fs.SameFile ip k₀ s'.fs →
      Q ok s') : wp R (loadLoop d ph.vaddr ip ph.off ph.filesz sz (turns + 1) (j * pteSz)) Q s := by
  have hEnd : ∀ {j' : Nat}, (∀ i < j', PageFits k₀ ip sz ph i) → ph.filesz ≤ j' * pteSz → SegmentFits k₀ ip sz ph := by
    intro j' hFits hLast
    refine ⟨hAligned, fun i hi _ => hFits i ?_⟩
    rw [lt_pages] at hi
    exact Nat.lt_of_mul_lt_mul_right (hi.trans_le hLast)
  induction turns generalizing j s with
  | zero =>
    rw [Nat.add_zero] at hTurns
    rw [loadLoop, if_pos hTurns, wp_pure]
    exact hQ _ _ (hEnd (fun i hi => (hBefore i hi).1) hTurns) hSame h hFile
  | succ turns ih =>
    rw [loadLoop]
    by_cases hLast : ph.filesz ≤ j * pteSz
    · rw [if_pos hLast, wp_pure]
      exact hQ _ _ (hEnd (fun i hi => (hBefore i hi).1) hLast) hSame h hFile
    have hBytes : pageBytes s.fs ip ph j = pageBytes k₀ ip ph j := pageBytes_same hFile hValid j
    have hPage : SegmentFits k₀ ip sz ph → PageFits s.fs ip sz ph j := fun hFits => by
      rw [PageFits, hBytes]
      exact hFits.2 j (lt_pages.mpr (Nat.lt_of_not_le hLast)) fun i hi => (hBefore i hi).2
    rw [if_neg hLast, Nat.mod_eq_of_lt hSum, wp_bind]
    refine wp_loadPage (hR.mono hPage) rfl hSame h (by simp only [pteSz] at *; omega) ?_
    intro s' hFits hSame' h' hFile' hVa
    rw [PageFits, hBytes] at hFits
    rw [hBytes]
    have hSum' : ph.vaddr + (j + 1) * pteSz < 2 ^ 32 := by
      rw [Nat.succ_mul, ← Nat.add_assoc]
      exact (Nat.add_lt_add_right hVa pteSz).trans_le (by decide)
    have hNext : (j * pteSz + pteSz) % 2 ^ 32 = (j + 1) * pteSz := by
      rw [← Nat.succ_mul]
      exact Nat.mod_eq_of_lt ((Nat.le_add_left _ _).trans_lt hSum')
    by_cases hFull : pageBytes k₀ ip ph j = min (ph.filesz - j * pteSz) pteSz
    · rw [hFull, beq_self_eq_true, if_pos rfl, hNext]
      have hUpTo : ∀ i < j + 1, PageFits k₀ ip sz ph i ∧ pageBytes k₀ ip ph i = min (ph.filesz - i * pteSz) pteSz := by
        intro i hi
        obtain hLt | rfl := Nat.lt_succ_iff_lt_or_eq.mp hi
        · exact hBefore i hLt
        · exact ⟨hFits, hFull⟩
      have hCount : j + 1 + turns = j + (turns + 1) := by omega
      exact ih hSum' (by rwa [hCount]) hSame' h' (hFile.trans hFile') hUpTo
    · rw [beq_false_of_ne hFull, if_neg (by decide), wp_pure]
      refine hQ _ _ ⟨hAligned, fun i _ hReached => ?_⟩ hSame' h' (hFile.trans hFile')
      obtain hLt | rfl | hGt := lt_trichotomy i j
      · exact (hBefore i hLt).1
      · exact hFits
      · exact absurd (hReached j hGt) hFull

theorem wp_loaduvm (hR : Loads R (SegmentFits s.fs ip sz ph)) (hAddr : ph.vaddr < 2 ^ 32) (hSame : SameProc s₀ s)
    (h : Image s₀.mem s.mem d sz T P) (hValid : (s.fs.inode ip).valid = true) {Q : Bool → Kernel → Prop}
    (hQ : ∀ ok s', SegmentFits s.fs ip sz ph → SameProc s₀ s' → Image s₀.mem s'.mem d sz T P →
      Fs.SameFile ip s.fs s'.fs → Q ok s') : wp R (loaduvm d ph.vaddr ip ph.off ph.filesz sz) Q s := by
  rw [loaduvm, wp_bind]
  apply hR.act
  by_cases hAligned : ph.vaddr % pteSz = 0
  · rw [if_pos hAligned]
    have hLoop := @wp_loadLoop R s₀ s s.fs d sz ip T P ph hR (ph.filesz / pteSz + 1) 0 hAligned (by omega) ?_ hSame h
      (.refl ip s.fs) hValid (fun i hi => absurd hi (Nat.not_lt_zero i)) Q hQ
    · rwa [Nat.zero_mul] at hLoop
    · simp only [pteSz]
      omega
  · rw [if_neg hAligned]
    exact hR.panic (fun hFits => hAligned hFits.1) _ (by decide)

theorem Guards.checked_loaduvm {J : Judge Kernel Stop Label} (hJ : Guards J) (hFill : ∀ va sz n s, J.good (.fill va sz n) s)
    (addr offset filesz : Nat) : (loaduvm d addr ip offset filesz sz).Checked J := by
  refine checked_bind (hJ.checked_act _) fun _ => ?_
  generalize filesz / pteSz + 2 = turns
  generalize 0 = i
  induction turns generalizing i with
  | zero => exact hJ.checked_act _
  | succ turns ih =>
    rw [loadLoop]
    split
    · exact checked_pure _
    · refine checked_bind ?_ fun ok => ?_
      · refine checked_bind (hJ.checked_onMem fun h => h.walkpgdir _ _ _) fun q => ?_
        cases q with
        | none => exact hJ.checked_act _
        | some q =>
          refine checked_bind (hJ.checked_act _) fun _ => checked_bind (hJ.checked_onFs _) fun r => ?_
          exact checked_bind (checked_of_good (hFill _ _ _)) fun _ =>
            checked_bind (hJ.checked_onMem fun h => h.act _) fun _ => checked_pure _
      · split
        · exact ih _
        · exact checked_pure _

theorem imageSize_concat (seen : List Proghdr) (ph : Proghdr) :
    imageSize (seen ++ [ph]) = max (imageSize seen) ((ph.vaddr + ph.memsz) % 2 ^ 32) := by
  rw [imageSize, List.foldl_append]
  rfl

/-- The loop over the program headers: it keeps an image of the size that its segments make, or it gives
up with what has been built. -/
theorem judge_loadSegments (k : Nat) {off : Nat} {seen : List Proghdr} (hSame : SameProc s₀ s)
    (hValid : (s.fs.inode ip).valid = true) (h : Image s₀.mem s.mem d (imageSize seen) T P)
    {Q B : Option (Nat × List Proghdr) → Kernel → Prop}
    (hDone : ∀ seen' s' T' P', SameProc s₀ s' → Image s₀.mem s'.mem d (imageSize seen') T' P' →
      Q (some (imageSize seen', seen')) s')
    (hFail : ∀ s' T' P', SameProc s₀ s' → Built s₀.mem s'.mem d T' P' → Q none s')
    (hWrong : w.pages → ∀ s' T' P', SameProc s₀ s' → Built s₀.mem s'.mem d T' P' → B none s') :
    judge w.judge (loadSegments ip d k off (imageSize seen) seen) Q B s := by
  have hJ := w.guards
  induction k generalizing off seen s T P with
  | zero => exact judge_pure (hDone _ _ _ _ hSame h)
  | succ k ih =>
    rw [loadSegments]
    apply judge_bind
    apply hJ.judge_readi
    intro r k' hFile
    have hSame' := hSame.setFs hFile.files
    have hValid' := (hFile.inode hValid).1
    cases r with
    | none => exact judge_pure (hFail _ T P hSame' h.toBuilt)
    | some b =>
      dsimp only
      split_ifs with hLen hType hSize
      · exact judge_pure (hFail _ T P hSame' h.toBuilt)
      · exact ih hSame' hValid' h
      · exact judge_pure (hFail _ T P hSame' h.toBuilt)
      · generalize hPh : decodeProghdr b = ph
        have hAddr : ph.vaddr < 2 ^ 32 := by
          rw [← hPh]
          exact Fs.getWord_lt (fun j => b.getD j 0) 8
        apply judge_bind
        apply judge_lift mem_isPart
        apply judge_growImage (hJ.mem _) h
        · rw [← imageSize_concat]
          intro m' T' P' h'
          by_cases hZero : imageSize (seen ++ [ph]) = 0
          · rw [if_pos hZero]
            exact judge_pure (hFail _ T' P' (hSame'.setMem m') h'.toBuilt)
          · rw [if_neg hZero]
            apply judge_mark
            · exact fun _ => trivial
            · intro _ hFits
              apply judge_bind
              refine judge_of_wp (hJ.checked_loaduvm (fun _ _ _ _ _ => trivial) _ _ _)
                (wp_loaduvm ⟨?_, fun _ => trivial, ?_⟩ hAddr (hSame'.setMem m') h' hValid' ?_)
              · exact fun l s hInside hw => hInside (hFits hw)
              · exact fun hNot p hp => Watch.fine_panic hp fun hw => hNot (hFits hw)
              · intro ok s' _ hSame'' h'' hFile'
                cases ok with
                | false => exact judge_pure (hFail _ T' P' hSame'' h''.toBuilt)
                | true => exact ih hSame'' (hFile'.inode hValid').1 h''
            · intro hNot
              obtain ⟨hw, hNot⟩ := Classical.not_imp.mp hNot
              apply wrong_of_wp
              rw [wp_bind]
              refine wp_loaduvm ⟨fun _ _ _ => trivial, fun _ => Or.inl hw, fun _ p hp => Watch.bad_panic hp hw⟩ hAddr
                (hSame'.setMem m') h' hValid' ?_
              exact fun _ _ hFits => absurd hFits hNot
        · intro m' T' P' hBuilt
          rw [if_pos rfl]
          exact judge_pure (hFail _ T' P' (hSame'.setMem m') hBuilt)
        · intro m₂ m' T' P' hNot hBuilt
          rw [if_pos rfl]
          exact wrong_of_wp (hWrong (Watch.pages_of_not_good hNot) _ T' P' (hSame'.setMem m') hBuilt)

end Load

end Xv6Rpi.Process
