import Xv6Rpi.Shell.Order

/-! # Waiting for the left part

Every process that its parent has to wait for has a parent that is still waiting. From the process of a program of the left part of a
list one gets so, parent by parent, to the process that has the right part still to run.
-/

namespace Xv6Rpi.Shell

def Sys.homeOf (s : Sys) (pid : Nat) : Place := match s.proc pid with
  | some q => q.home
  | none => []

def Sys.homes (s : Sys) (children : List Nat) : Multiset Place := (children : Multiset Nat).map s.homeOf

def Proc.Fits (N : List Node) (s : Sys) (q : Proc) : Prop := match q.image with
  | .code c _ => c.Fits N q.home (s.homes q.children)
  | .prog u => (∀ x ∈ s.homes q.children, Background N x) ∧ Straight q.home u
  | .zombie => q.children = []

def Image.Alive : Image → Prop
  | .zombie => False
  | _ => True

structure Family (N : List Node) (s : Sys) : Prop where
  fits : ∀ pid q, s.proc pid = some q → q.Fits N s
  child : ∀ pid q, s.proc pid = some q → ∀ n ∈ q.children, ∃ q', s.proc n = some q' ∧ Forks q.home q'.home
  nodup : ∀ pid q, s.proc pid = some q → q.children.Nodup
  own : ∀ pid pid' q q' n, s.proc pid = some q → s.proc pid' = some q' → n ∈ q.children → n ∈ q'.children → pid = pid'
  parent : ∀ pid q, s.proc pid = some q → q.image.Alive → q.home ≠ [] → ¬Background N q.home →
    ∃ p P, s.proc p = some P ∧ pid ∈ P.children
  root : ∀ pid q, s.proc pid = some q → q.home = [] → pid = 0

section Family

variable {N : List Node} {s s' : Sys} {pid : Nat} {q q' : Proc} {c : Code} {p : Nat × Nat}

theorem homeOf_of_proc (hProc : s.proc pid = some q) : s.homeOf pid = q.home := by rw [Sys.homeOf, hProc]

theorem homeOf_set (hProc : s.proc pid = some q) (hHome : q'.home = q.home) (n : Nat) : (s.set pid q').homeOf n = s.homeOf n := by
  by_cases hEq : n = pid
  · rw [hEq, homeOf_of_proc (Sys.set_self ..), homeOf_of_proc hProc, hHome]
  · rw [Sys.homeOf, Sys.set_of_ne _ _ hEq, Sys.homeOf]

theorem homes_congr {children : List Nat} (h : ∀ n ∈ children, s'.homeOf n = s.homeOf n) : s'.homes children = s.homes children :=
  Multiset.map_congr rfl fun n hn => h n (Multiset.mem_coe.mp hn)

theorem Proc.Fits.congr (h : q.Fits N s) (hHomes : s'.homes q.children = s.homes q.children) : q.Fits N s' := by
  rw [Proc.Fits] at h ⊢
  cases hImage : q.image with
  | code c p =>
    rw [hImage] at h
    dsimp only at h ⊢
    rwa [hHomes]
  | prog u =>
    rw [hImage] at h
    dsimp only at h ⊢
    rwa [hHomes]
  | zombie =>
    rw [hImage] at h
    exact h

theorem Family.code (h : Family N s) (hProc : s.proc pid = some q) (hImage : q.image = .code c p) :
    c.Fits N q.home (s.homes q.children) := by
  have hFits := h.fits pid q hProc
  rwa [Proc.Fits, hImage] at hFits

theorem Family.keep (h : Family N s) (hProc : s.proc pid = some q) (hHome : q'.home = q.home) (hChildren : q'.children = q.children)
    (hAlive : q.image.Alive) (hFits : q'.Fits N s) : Family N (s.set pid q') := by
  have hSome : ∀ n r, (s.set pid q').proc n = some r → ∃ r', s.proc n = some r' ∧ r.home = r'.home ∧ r.children = r'.children ∧
      (r.image.Alive → r'.image.Alive) ∧ r.Fits N s := fun n r hr => by
    by_cases hEq : n = pid
    · rw [hEq, Sys.set_self] at hr
      obtain rfl := Option.some.inj hr
      exact ⟨q, hEq ▸ hProc, hHome, hChildren, fun _ => hAlive, hFits⟩
    · rw [Sys.set_of_ne _ _ hEq] at hr
      exact ⟨r, hr, rfl, rfl, id, h.fits n r hr⟩
  have hBack : ∀ n r, s.proc n = some r → ∃ r', (s.set pid q').proc n = some r' ∧ r'.children = r.children ∧ r'.home = r.home :=
    fun n r hr => by
      by_cases hEq : n = pid
      · subst hEq
        obtain rfl := Option.some.inj (hProc.symm.trans hr)
        exact ⟨q', Sys.set_self .., hChildren, hHome⟩
      · exact ⟨r, (Sys.set_of_ne _ _ hEq).trans hr, rfl, rfl⟩
  refine ⟨fun n r hr => ?_, fun n r hr k hk => ?_, fun n r hr => ?_, fun n n' r r' k hr hr' hk hk' => ?_,
    fun n r hr hLive hNe hFg => ?_, fun n r hr hNil => ?_⟩
  · obtain ⟨-, -, -, -, -, hFit⟩ := hSome n r hr
    exact hFit.congr (homes_congr fun k _ => homeOf_set hProc hHome k)
  · obtain ⟨r', hr', hHome', hSame, -, -⟩ := hSome n r hr
    obtain ⟨r₂, hr₂, hForks⟩ := h.child n r' hr' k (hSame ▸ hk)
    obtain ⟨r₃, hr₃, -, hHome₃⟩ := hBack k r₂ hr₂
    rw [← hHome', ← hHome₃] at hForks
    exact ⟨r₃, hr₃, hForks⟩
  · obtain ⟨r', hr', -, hSame, -, -⟩ := hSome n r hr
    rw [hSame]
    exact h.nodup n r' hr'
  · obtain ⟨r₂, hr₂, -, hSame, -, -⟩ := hSome n r hr
    obtain ⟨r₃, hr₃, -, hSame', -, -⟩ := hSome n' r' hr'
    exact h.own n n' r₂ r₃ k hr₂ hr₃ (hSame ▸ hk) (hSame' ▸ hk')
  · obtain ⟨r', hr', hSame, -, hAlive', -⟩ := hSome n r hr
    rw [hSame] at hNe hFg
    obtain ⟨p, P, hP, hMem⟩ := h.parent n r' hr' (hAlive' hLive) hNe hFg
    obtain ⟨P', hP', hChildren', -⟩ := hBack p P hP
    exact ⟨p, P', hP', hChildren'.symm ▸ hMem⟩
  · obtain ⟨r', hr', hSame, -⟩ := hSome n r hr
    exact h.root n r' hr' (hSame ▸ hNil)

/-- A process ends; none of its children has to be waited for. -/
theorem Family.exit (h : Family N s) (hProc : s.proc pid = some q) (hBackground : ∀ x ∈ s.homes q.children, Background N x) :
    Family N (s.set pid q.exit) := by
  have hHomes : ∀ n, (s.set pid q.exit).homeOf n = s.homeOf n := homeOf_set hProc rfl
  have hSome : ∀ n r, (s.set pid q.exit).proc n = some r → r.children ≠ [] ∨ n ≠ pid → s.proc n = some r ∧ n ≠ pid := fun n r hr hn => by
    by_cases hEq : n = pid
    · rw [hEq, Sys.set_self] at hr
      obtain rfl := Option.some.inj hr
      obtain hn | hn := hn
      · exact absurd rfl hn
      · exact absurd hEq hn
    · rw [Sys.set_of_ne _ _ hEq] at hr
      exact ⟨hr, hEq⟩
  refine ⟨fun n r hr => ?_, fun n r hr k hk => ?_, fun n r hr => ?_, fun n n' r r' k hr hr' hk hk' => ?_,
    fun n r hr hLive hNe hFg => ?_, fun n r hr hNil => ?_⟩
  · by_cases hEq : n = pid
    · rw [hEq, Sys.set_self] at hr
      obtain rfl := Option.some.inj hr
      exact (rfl : q.exit.children = [])
    · obtain ⟨hr, -⟩ := hSome n r hr (Or.inr hEq)
      exact (h.fits n r hr).congr (homes_congr fun k _ => hHomes k)
  · obtain ⟨hr, -⟩ := hSome n r hr (Or.inl (List.ne_nil_of_mem hk))
    obtain ⟨r', hr', hForks⟩ := h.child n r hr k hk
    by_cases hEq : k = pid
    · subst hEq
      obtain rfl := Option.some.inj (hProc.symm.trans hr')
      exact ⟨q.exit, Sys.set_self .., hForks⟩
    · exact ⟨r', (Sys.set_of_ne _ _ hEq).trans hr', hForks⟩
  · by_cases hNil : r.children = []
    · rw [hNil]
      exact List.nodup_nil
    · exact h.nodup n r (hSome n r hr (Or.inl hNil)).1
  · exact h.own n n' r r' k (hSome n r hr (Or.inl (List.ne_nil_of_mem hk))).1 (hSome n' r' hr' (Or.inl (List.ne_nil_of_mem hk'))).1 hk hk'
  · have hn : n ≠ pid := by
      rintro rfl
      rw [Sys.set_self] at hr
      obtain rfl := Option.some.inj hr
      exact hLive
    have hOld := (hSome n r hr (Or.inr hn)).1
    obtain ⟨p, P, hP, hMem⟩ := h.parent n r hOld hLive hNe hFg
    have hp : p ≠ pid := by
      rintro rfl
      obtain rfl := Option.some.inj (hProc.symm.trans hP)
      have hHome : s.homeOf n ∈ s.homes q.children := Multiset.mem_map_of_mem _ (Multiset.mem_coe.mpr hMem)
      rw [homeOf_of_proc hOld] at hHome
      exact hFg (hBackground _ hHome)
    exact ⟨p, P, (Sys.set_of_ne _ _ hp).trans hP, hMem⟩
  · by_cases hEq : n = pid
    · rw [hEq, Sys.set_self] at hr
      obtain rfl := Option.some.inj hr
      exact hEq.trans (h.root pid q hProc hNil)
    · exact h.root n r (hSome n r hr (Or.inr hEq)).1 hNil

theorem Family.forked (h : Family N s) {pid' : Nat} {home : Place} {child parent : Code} {failed : Message} (hProc : s.proc pid = some q)
    (hImage : q.image = .code (.fork home child parent failed) p) (hNew : s.proc pid' = none) :
    Family N ((s.set pid { q.goOn parent p q.fds with children := pid' :: q.children }).set pid' ⟨.code child p, q.fds, [], home, false⟩) := by
  obtain ⟨-, hForks, hChild, hParent⟩ := h.code hProc hImage
  have hne : pid ≠ pid' := by
    rintro rfl
    rw [hProc] at hNew
    cases hNew
  set q₁ : Proc := { q.goOn parent p q.fds with children := pid' :: q.children } with hq₁
  set s₁ := (s.set pid q₁).set pid' ⟨.code child p, q.fds, [], home, false⟩ with hs₁
  have hSelf : s₁.proc pid = some q₁ := (Sys.set_of_ne _ _ hne).trans (Sys.set_self ..)
  have hOther : ∀ n, n ≠ pid → n ≠ pid' → s₁.proc n = s.proc n := fun n hn hn' =>
    (Sys.set_of_ne _ _ hn').trans (Sys.set_of_ne _ _ hn)
  have hHomes : ∀ n, n ≠ pid' → s₁.homeOf n = s.homeOf n := fun n hn' => by
    have hHome : q₁.home = q.home := rfl
    have hUp := homeOf_set hProc hHome n
    rw [← hUp, Sys.homeOf, hs₁, Sys.set_of_ne _ _ hn', Sys.homeOf]
  have hFresh : ∀ n r, s.proc n = some r → pid' ∉ r.children := fun n r hr hMem => by
    obtain ⟨r', hr', -⟩ := h.child n r hr pid' hMem
    rw [hNew] at hr'
    cases hr'
  have hSame : ∀ n r, s.proc n = some r → s₁.homes r.children = s.homes r.children := fun n r hr =>
    homes_congr fun k hk => hHomes k fun hEq => hFresh n r hr (hEq ▸ hk)
  -- a process of the new state is the child, the parent or an old process
  have hCases : ∀ n r, s₁.proc n = some r → (n = pid' ∧ r = ⟨.code child p, q.fds, [], home, false⟩) ∨ (n = pid ∧ r = q₁) ∨
      n ≠ pid ∧ n ≠ pid' ∧ s.proc n = some r := fun n r hr => by
    by_cases hn' : n = pid'
    · rw [hn', hs₁, Sys.set_self] at hr
      exact Or.inl ⟨hn', (Option.some.inj hr).symm⟩
    · by_cases hn : n = pid
      · rw [hn, hSelf] at hr
        exact Or.inr (Or.inl ⟨hn, (Option.some.inj hr).symm⟩)
      · rw [hOther n hn hn'] at hr
        exact Or.inr (Or.inr ⟨hn, hn', hr⟩)
  have hStill : ∀ n r, s.proc n = some r → ∃ r', s₁.proc n = some r' ∧ (∀ k ∈ r.children, k ∈ r'.children) ∧ r'.home = r.home :=
    fun n r hr => by
      have hn' : n ≠ pid' := by
        rintro rfl
        rw [hNew] at hr
        cases hr
      by_cases hn : n = pid
      · subst hn
        obtain rfl := Option.some.inj (hProc.symm.trans hr)
        exact ⟨q₁, hSelf, fun k hk => List.mem_cons_of_mem _ hk, rfl⟩
      · exact ⟨r, (hOther n hn hn').trans hr, fun k hk => hk, rfl⟩
  have hOld : ∀ n r k, s₁.proc n = some r → k ∈ r.children →
      (k = pid' ∧ n = pid ∧ r = q₁) ∨ ∃ r', s.proc n = some r' ∧ k ∈ r'.children ∧ r'.home = r.home :=
    fun n r k hr hk => by
      obtain ⟨-, rfl⟩ | ⟨hn, rfl⟩ | ⟨-, -, hr⟩ := hCases n r hr
      · exact absurd hk List.not_mem_nil
      · obtain hk | hk := List.mem_cons.mp hk
        · exact Or.inl ⟨hk, hn, rfl⟩
        · exact Or.inr ⟨q, hn ▸ hProc, hk, rfl⟩
      · exact Or.inr ⟨r, hr, hk, rfl⟩
  refine ⟨fun n r hr => ?_, fun n r hr k hk => ?_, fun n r hr => ?_, fun n n' r r' k hr hr' hk hk' => ?_,
    fun n r hr hLive hNe hFg => ?_, fun n r hr hNil => ?_⟩
  · obtain ⟨-, rfl⟩ | ⟨-, rfl⟩ | ⟨-, -, hr⟩ := hCases n r hr
    · exact hChild
    · have hCons : s₁.homes (pid' :: q.children) = home ::ₘ s.homes q.children := by
        rw [← hSame pid q hProc, Sys.homes, ← Multiset.cons_coe, Multiset.map_cons, homeOf_of_proc (Sys.set_self ..), Sys.homes]
      change parent.Fits N q.home (s₁.homes (pid' :: q.children))
      rw [hCons]
      exact hParent
    · exact (h.fits n r hr).congr (hSame n r hr)
  · obtain ⟨rfl, -, rfl⟩ | ⟨r', hr', hk', hHome'⟩ := hOld n r k hr hk
    · exact ⟨_, Sys.set_self .., hForks⟩
    · obtain ⟨r₂, hr₂, hForks'⟩ := h.child n r' hr' k hk'
      obtain ⟨r₃, hr₃, -, hHome₃⟩ := hStill k r₂ hr₂
      rw [hHome', ← hHome₃] at hForks'
      exact ⟨r₃, hr₃, hForks'⟩
  · obtain ⟨-, rfl⟩ | ⟨-, rfl⟩ | ⟨-, -, hr⟩ := hCases n r hr
    · exact List.nodup_nil
    · exact List.nodup_cons.mpr ⟨hFresh pid q hProc, h.nodup pid q hProc⟩
    · exact h.nodup n r hr
  · obtain ⟨hk₁, hn, -⟩ | ⟨r₂, hr₂, hk₂, -⟩ := hOld n r k hr hk
    · obtain ⟨-, hn', -⟩ | ⟨r₃, hr₃, hk₃, -⟩ := hOld n' r' k hr' hk'
      · exact hn.trans hn'.symm
      · exact absurd (hk₁ ▸ hk₃) (hFresh n' r₃ hr₃)
    · obtain ⟨hk₁, -⟩ | ⟨r₃, hr₃, hk₃, -⟩ := hOld n' r' k hr' hk'
      · exact absurd (hk₁ ▸ hk₂) (hFresh n r₂ hr₂)
      · exact h.own n n' r₂ r₃ k hr₂ hr₃ hk₂ hk₃
  · have hParent' : ∀ r', s.proc n = some r' → r'.image.Alive → r'.home = r.home → ∃ p P, s₁.proc p = some P ∧ n ∈ P.children := by
      intro r' hr' hLive' hHome
      obtain ⟨p, P, hP, hMem⟩ := h.parent n r' hr' hLive' (hHome ▸ hNe) (hHome ▸ hFg)
      obtain ⟨P', hP', hSub, -⟩ := hStill p P hP
      exact ⟨p, P', hP', hSub n hMem⟩
    obtain ⟨rfl, rfl⟩ | ⟨rfl, rfl⟩ | ⟨-, -, hr⟩ := hCases n r hr
    · exact ⟨pid, q₁, hSelf, List.mem_cons_self⟩
    · refine hParent' q hProc ?_ rfl
      rw [hImage]
      trivial
    · exact hParent' r hr hLive rfl
  · obtain ⟨-, rfl⟩ | ⟨hn, rfl⟩ | ⟨-, -, hr⟩ := hCases n r hr
    · obtain ⟨t, u, hCons, -⟩ := hForks
      exact absurd (hNil.symm.trans hCons) (List.cons_ne_nil t u).symm
    · exact hn.trans (h.root pid q hProc hNil)
    · exact h.root n r hr hNil

theorem Family.reaped (h : Family N s) {pid' : Nat} {u : Place} {next : Code} (hProc : s.proc pid = some q)
    (hImage : q.image = .code (.wait u next) p) (hChild : pid' ∈ q.children) (hProc' : s.proc pid' = some q')
    (hZombie : q'.image = .zombie) :
    Family N ((s.drop pid').set pid { q.goOn next p q.fds with children := q.children.erase pid' }) := by
  obtain ⟨-, -, -, hNext⟩ := h.code hProc hImage
  have hne : pid' ≠ pid := by
    rintro rfl
    obtain rfl := Option.some.inj (hProc.symm.trans hProc')
    rw [hImage] at hZombie
    cases hZombie
  have hNodup := h.nodup pid q hProc
  set q₁ : Proc := { q.goOn next p q.fds with children := q.children.erase pid' } with hq₁
  set s₁ := (s.drop pid').set pid q₁ with hs₁
  have hSelf : s₁.proc pid = some q₁ := Sys.set_self ..
  have hGone : s₁.proc pid' = none := (Sys.set_of_ne _ _ hne).trans (Sys.drop_self ..)
  have hOther : ∀ n, n ≠ pid → n ≠ pid' → s₁.proc n = s.proc n := fun n hn hn' =>
    (Sys.set_of_ne _ _ hn).trans (Sys.drop_of_ne _ hn')
  have hHomes : ∀ n, n ≠ pid' → s₁.homeOf n = s.homeOf n := fun n hn' => by
    by_cases hn : n = pid
    · rw [hn, homeOf_of_proc hSelf, homeOf_of_proc hProc]
      rfl
    · rw [Sys.homeOf, hOther n hn hn', Sys.homeOf]
  have hCases : ∀ n r, s₁.proc n = some r → (n = pid ∧ r = q₁) ∨ n ≠ pid ∧ n ≠ pid' ∧ s.proc n = some r := fun n r hr => by
    by_cases hn : n = pid
    · rw [hn, hSelf] at hr
      exact Or.inl ⟨hn, (Option.some.inj hr).symm⟩
    · by_cases hn' : n = pid'
      · rw [hn', hGone] at hr
        cases hr
      · rw [hOther n hn hn'] at hr
        exact Or.inr ⟨hn, hn', hr⟩
  -- the children of a process had it for their parent before and are still there
  have hOld : ∀ n r k, s₁.proc n = some r → k ∈ r.children →
      k ≠ pid' ∧ ∃ r', s.proc n = some r' ∧ k ∈ r'.children ∧ r'.home = r.home :=
    fun n r k hr hk => by
      obtain ⟨rfl, rfl⟩ | ⟨hn, -, hr⟩ := hCases n r hr
      · obtain ⟨hk', hk⟩ := hNodup.mem_erase_iff.mp hk
        exact ⟨hk', q, hProc, hk, rfl⟩
      · refine ⟨fun hEq => ?_, r, hr, hk, rfl⟩
        exact hn (h.own n pid r q pid' hr hProc (hEq ▸ hk) hChild)
  have hSame : ∀ n r, s₁.proc n = some r → s₁.homes r.children = s.homes r.children := fun n r hr =>
    homes_congr fun k hk => hHomes k (hOld n r k hr hk).1
  refine ⟨fun n r hr => ?_, fun n r hr k hk => ?_, fun n r hr => ?_, fun n n' r r' k hr hr' hk hk' => ?_,
    fun n r hr hLive hNe hFg => ?_, fun n r hr hNil => ?_⟩
  · have hHomesEq := hSame n r hr
    obtain ⟨rfl, rfl⟩ | ⟨-, -, hr⟩ := hCases n r hr
    · have hErase : s.homes (q.children.erase pid') = (s.homes q.children).erase (s.homeOf pid') := by
        rw [Sys.homes, ← Multiset.coe_erase, Multiset.map_erase_of_mem _ _ (Multiset.mem_coe.mpr hChild), Sys.homes]
      change next.Fits N q.home (s₁.homes (q.children.erase pid'))
      rw [show s₁.homes (q.children.erase pid') = s.homes (q.children.erase pid') from hHomesEq, hErase]
      exact hNext _ (Multiset.mem_map_of_mem _ (Multiset.mem_coe.mpr hChild))
    · exact (h.fits n r hr).congr hHomesEq
  · obtain ⟨hk', r', hr', hMem, hHome'⟩ := hOld n r k hr hk
    obtain ⟨r₂, hr₂, hForks⟩ := h.child n r' hr' k hMem
    rw [hHome'] at hForks
    by_cases hEq : k = pid
    · subst hEq
      obtain rfl := Option.some.inj (hProc.symm.trans hr₂)
      exact ⟨q₁, hSelf, hForks⟩
    · exact ⟨r₂, (hOther k hEq hk').trans hr₂, hForks⟩
  · obtain ⟨-, rfl⟩ | ⟨-, -, hr⟩ := hCases n r hr
    · exact hNodup.erase pid'
    · exact h.nodup n r hr
  · obtain ⟨-, r₂, hr₂, hk₂, -⟩ := hOld n r k hr hk
    obtain ⟨-, r₃, hr₃, hk₃, -⟩ := hOld n' r' k hr' hk'
    exact h.own n n' r₂ r₃ k hr₂ hr₃ hk₂ hk₃
  · have hn' : n ≠ pid' := by
      rintro rfl
      rw [hGone] at hr
      cases hr
    have hParent : ∀ r', s.proc n = some r' → r'.image.Alive → r'.home = r.home → ∃ p P, s₁.proc p = some P ∧ n ∈ P.children := by
      intro r' hr' hLive' hHome
      obtain ⟨p, P, hP, hMem⟩ := h.parent n r' hr' hLive' (hHome ▸ hNe) (hHome ▸ hFg)
      by_cases hp : p = pid
      · subst hp
        obtain rfl := Option.some.inj (hProc.symm.trans hP)
        exact ⟨p, q₁, hSelf, hNodup.mem_erase_iff.mpr ⟨hn', hMem⟩⟩
      · refine ⟨p, P, (hOther p hp fun hEq => ?_).trans hP, hMem⟩
        -- the process that has ended has no children
        subst hEq
        obtain rfl := Option.some.inj (hProc'.symm.trans hP)
        have hNil := h.fits p q' hProc'
        rw [Proc.Fits, hZombie] at hNil
        rw [hNil] at hMem
        exact absurd hMem List.not_mem_nil
    obtain ⟨rfl, rfl⟩ | ⟨-, -, hr⟩ := hCases n r hr
    · refine hParent q hProc ?_ rfl
      rw [hImage]
      trivial
    · exact hParent r hr hLive rfl
  · obtain ⟨hn, rfl⟩ | ⟨-, -, hr⟩ := hCases n r hr
    · exact hn.trans (h.root pid q hProc hNil)
    · exact h.root n r hr hNil

theorem alive_code (hImage : q.image = .code c p) : q.image.Alive := by
  rw [hImage]
  trivial

theorem alive_prog {u : Place} (hImage : q.image = .prog u) : q.image.Alive := by
  rw [hImage]
  trivial

def Sys.Unkilled (s : Sys) : Prop := ∀ pid q, s.proc pid = some q → q.killed = false

theorem Sys.Unkilled.set (h : s.Unkilled) (hProc : s.proc pid = some q) (hSame : q'.killed = q.killed) : (s.set pid q').Unkilled := by
  intro n r hr
  by_cases hEq : n = pid
  · rw [hEq, Sys.set_self] at hr
    rw [← Option.some.inj hr, hSame]
    exact h pid q hProc
  · rw [Sys.set_of_ne _ _ hEq] at hr
    exact h n r hr

theorem Sys.Unkilled.step (h : s.Unkilled) (hStep : Step s s') : s'.Unkilled := by
  cases hStep with
  | close hProc | dup hProc | opened hProc | childless hProc | interrupted hProc | print hProc | exit hProc | work _ hProc | ended hProc =>
    exact h.set hProc rfl
  | piped hProc | started hProc => exact Sys.Unkilled.set (s := { s with proc := _ }) h hProc rfl
  | @forked pid pid' q home child parent failed p hProc hImage hNew =>
    intro n r hr
    by_cases hEq : n = pid'
    · rw [hEq, Sys.set_self] at hr
      rw [← Option.some.inj hr]
    · rw [Sys.set_of_ne _ _ hEq] at hr
      exact h.set hProc (show ({ q.goOn parent p q.fds with children := pid' :: q.children } : Proc).killed = _ by rfl) n r hr
  | @reaped pid pid' q q₂ u next p hProc hImage hChild hProc' hZombie =>
    intro n r hr
    by_cases hEq : n = pid
    · rw [hEq, Sys.set_self] at hr
      rw [← Option.some.inj hr]
      exact h pid q hProc
    · rw [Sys.set_of_ne _ _ hEq] at hr
      by_cases hEq' : n = pid'
      · rw [hEq', Sys.drop_self] at hr
        cases hr
      · rw [Sys.drop_of_ne _ hEq'] at hr
        exact h n r hr

theorem Family.step (h : Family N s) (hUnkilled : s.Unkilled) (hStep : Step s s') : Family N s' := by
  cases hStep with
  | close hProc hImage | dup hProc hImage => exact h.keep hProc rfl rfl (alive_code hImage) (h.code hProc hImage).2
  | opened hProc hImage hFree | piped hProc hImage hRead hWrite =>
    exact Family.keep (s := { s with made := _ }) ⟨h.fits, h.child, h.nodup, h.own, h.parent, h.root⟩ hProc rfl rfl (alive_code hImage)
      (h.code hProc hImage).2.2
  | forked hProc hImage hNew => exact h.forked hProc hImage hNew
  | reaped hProc hImage hChild hProc' hZombie => exact h.reaped hProc hImage hChild hProc' hZombie
  | childless hProc hImage hNone =>
    obtain ⟨-, hNe, -⟩ := h.code hProc hImage
    rw [hNone] at hNe
    exact absurd rfl hNe
  | interrupted hProc hImage hKilled =>
    rw [hUnkilled _ _ hProc] at hKilled
    cases hKilled
  | started hProc hImage =>
    exact Family.keep (s := { s with started := _ }) ⟨h.fits, h.child, h.nodup, h.own, h.parent, h.root⟩ hProc rfl rfl (alive_code hImage)
      (h.code hProc hImage).2
  | print hProc hImage => exact h.keep hProc rfl rfl (alive_code hImage) ⟨Whole.nil, (h.code hProc hImage).2⟩
  | exit hProc hImage => exact h.exit hProc (h.code hProc hImage).2
  | @work pid q u fds hProc hImage =>
    have hFits := h.fits pid q hProc
    rw [Proc.Fits, hImage] at hFits
    refine h.keep hProc rfl rfl (alive_prog hImage) ?_
    rw [Proc.Fits]
    dsimp only
    rw [hImage]
    exact hFits
  | @ended pid q u hProc hImage =>
    have hFits := h.fits pid q hProc
    rw [Proc.Fits, hImage] at hFits
    exact h.exit hProc hFits.1

theorem Family.fails (h : Family N s) (hFails : Fails s s') : Family N s' := by
  obtain ⟨hProc, hImage, hCall⟩ := hFails
  have hFits := h.code hProc hImage
  refine h.keep hProc rfl rfl (alive_code hImage) ⟨Whole.nil, ?_⟩
  cases hCall with
  | «open» | pipe | exec => exact hFits.2.1

/-- Runs in which no `fork` fails and nobody is killed. -/
abbrev Forking : Sys → Sys → Prop := Relation.ReflTransGen fun s s' => Step s s' ∨ Fails s s'

theorem Family.runs (h : Family N s) (hUnkilled : s.Unkilled) (hRuns : Forking s s') : Family N s' ∧ s'.Unkilled := by
  induction hRuns with
  | refl => exact ⟨h, hUnkilled⟩
  | tail _ hStep ih =>
    obtain ⟨ih, hUnkilled⟩ := ih
    obtain hStep | hFails := hStep
    · exact ⟨ih.step hUnkilled hStep, hUnkilled.step hStep⟩
    · refine ⟨ih.fails hFails, ?_⟩
      obtain ⟨hProc, -, -⟩ := hFails
      exact hUnkilled.set hProc rfl

end Family

/-- No part of the tree on the way from the one place to the other is in the background. -/
def Foreground (N : List Node) (u w : Place) : Prop := ∀ y ∈ N, (∃ cmd, y.cmd = .back cmd) → u <:+ y.place → ¬y.place <:+ w

/-- A program is running, or a process has still to start it. -/
def Sys.Busy (s : Sys) (w : Place) : Prop := ∃ pid q, s.proc pid = some q ∧ (q.image = .prog w ∨ w ∈ q.sites)

section Order

variable {root : Cmd} {e : Env} {s : Sys} {pid : Nat} {q : Proc} {u w : Place}

theorem Foreground.not_background (h : Foreground (nodes [] root e) u w) (hu : ∀ v, u ≠ .sub :: v) {home : Place} (hBelow : u <:+ home)
    (hAbove : home <:+ w) : ¬Background (nodes [] root e) home := by
  rintro ⟨y, hy, hBack, rfl⟩
  obtain hEq | hSuffix := List.suffix_cons_iff.mp hBelow
  · exact hu _ hEq
  · exact h y hy hBack hSuffix ((List.suffix_cons ..).trans hAbove)

theorem Family.climb (h : Family (nodes [] root e) s) (hProc : s.proc pid = some q) (hAlive : q.image.Alive) (hNe : q.home ≠ [])
    (hFg : ¬Background (nodes [] root e) q.home) : ∃ p P c k, s.proc p = some P ∧ P.image = .code c k ∧
      c.Fits (nodes [] root e) P.home (s.homes P.children) ∧ q.home ∈ s.homes P.children ∧ Forks P.home q.home := by
  obtain ⟨p, P, hP, hMem⟩ := h.parent pid q hProc hAlive hNe hFg
  obtain ⟨q', hq', hForks⟩ := h.child p P hP pid hMem
  obtain rfl := Option.some.inj (hProc.symm.trans hq')
  have hHome : q.home ∈ s.homes P.children := by
    rw [← homeOf_of_proc hProc]
    exact Multiset.mem_map_of_mem _ (Multiset.mem_coe.mpr hMem)
  have hFits := h.fits p P hP
  rw [Proc.Fits] at hFits
  cases hImage : P.image with
  | code c k =>
    rw [hImage] at hFits
    exact ⟨p, P, c, k, hP, hImage, hFits, hHome, hForks⟩
  | prog v =>
    rw [hImage] at hFits
    exact absurd (hFits.1 _ hHome) hFg
  | zombie =>
    rw [hImage] at hFits
    have hNil : P.children = [] := hFits
    rw [hNil] at hMem
    exact absurd hMem List.not_mem_nil

theorem Forks.length_lt {h home : Place} (hForks : Forks h home) : h.length < home.length := by
  obtain ⟨t, v, rfl, hs⟩ := hForks
  exact Nat.lt_succ_of_le hs.suffix.length_le

theorem Forks.suffix {h home : Place} (hForks : Forks h home) : h <:+ home := by
  obtain ⟨t, v, rfl, hs⟩ := hForks
  exact hs.suffix.trans (List.suffix_cons ..)

/-- While a process of the left part of a list is there, some process has the right part still to run. -/
theorem Family.ahead (h : Family (nodes [] root e) s) {x : Node} (hx : x ∈ nodes [] root e) {left right : Cmd}
    (hList : x.cmd = .list left right) (hFg : Foreground (nodes [] root e) (.left :: x.place) w) (hProc : s.proc pid = some q)
    (hAlive : q.image.Alive) (hBelow : .left :: x.place <:+ q.home) (hAbove : q.home <:+ w) :
    ∃ p, ∀ v ∈ (runcmd (.right :: x.place) right).sites, v ∈ s.sites p := by
  induction hLength : q.home.length using Nat.strong_induction_on generalizing pid q with
  | _ n ih =>
    have hNe : q.home ≠ [] := fun hNil => by
      rw [hNil] at hBelow
      exact absurd (List.suffix_nil.mp hBelow) (List.cons_ne_nil _ _)
    obtain ⟨p, P, c, k, hP, hImage, hFits, hHome, hForks⟩ :=
      h.climb hProc hAlive hNe (hFg.not_background (fun _ => nofun) hBelow hAbove)
    by_cases hEq : .left :: x.place = q.home
    · refine ⟨p, fun v hv => ?_⟩
      rw [sites_code hP hImage]
      exact hFits.keeps x hx left right hList (hEq ▸ hHome) v hv
    · obtain hUp | hDown := List.suffix_or_suffix_of_suffix hBelow hForks.suffix
      · exact ih P.home.length (hLength ▸ hForks.length_lt) hP (alive_code hImage) hUp (hForks.suffix.trans hAbove) rfl
      · -- the parent would have gone to the left without a fork
        obtain ⟨t, v, hCons, hs⟩ := hForks
        rw [hCons] at hBelow hEq
        have hLeft : .left :: x.place <:+ v := (List.suffix_cons_iff.mp hBelow).resolve_left hEq
        obtain hSame | hDown := List.suffix_cons_iff.mp hDown
        · exact ih P.home.length (hLength ▸ Forks.length_lt ⟨t, v, hCons, hs⟩) hP (alive_code hImage) (hSame ▸ List.suffix_rfl)
            ((Forks.suffix ⟨t, v, hCons, hs⟩).trans hAbove) rfl
        · exact absurd hLeft (hs.not_left hDown)

theorem Family.first (h : Family (nodes [] root e) s) (hFg : Foreground (nodes [] root e) [] w) (hProc : s.proc pid = some q)
    (hAlive : q.image.Alive) (hAbove : q.home <:+ w) : ∃ q₀, s.proc 0 = some q₀ ∧ q₀.image.Alive := by
  induction hLength : q.home.length using Nat.strong_induction_on generalizing pid q with
  | _ n ih =>
    by_cases hNil : q.home = []
    · exact ⟨q, h.root pid q hProc hNil ▸ hProc, hAlive⟩
    · obtain ⟨p, P, c, k, hP, hImage, -, -, hForks⟩ :=
        h.climb hProc hAlive hNil (hFg.not_background (fun _ => nofun) List.nil_suffix hAbove)
      exact ih P.home.length (hLength ▸ hForks.length_lt) hP (alive_code hImage) (hForks.suffix.trans hAbove) rfl

theorem Family.busy (h : Family (nodes [] root e) s) (hBusy : s.Busy w) : ∃ pid q, s.proc pid = some q ∧ q.image.Alive ∧ q.home <:+ w ∧
    ((∃ c k, q.image = .code c k ∧ w ∈ c.sites) ∨ Straight q.home w) := by
  obtain ⟨pid, q, hProc, hImage | hSite⟩ := hBusy
  · have hFits := h.fits pid q hProc
    rw [Proc.Fits, hImage] at hFits
    exact ⟨pid, q, hProc, alive_prog hImage, hFits.2.suffix, Or.inr hFits.2⟩
  · rw [Proc.sites] at hSite
    cases hImage : q.image with
    | code c k =>
      rw [hImage] at hSite
      exact ⟨pid, q, hProc, alive_code hImage, (h.code hProc hImage).whole.1 w hSite, Or.inl ⟨c, k, hImage, hSite⟩⟩
    | prog v =>
      rw [hImage] at hSite
      exact absurd hSite List.not_mem_nil
    | zombie =>
      rw [hImage] at hSite
      exact absurd hSite List.not_mem_nil

theorem Family.right_waits (h : Family (nodes [] root e) s) {x : Node} (hx : x ∈ nodes [] root e) {left right : Cmd}
    (hList : x.cmd = .list left right) (hLeft : .left :: x.place <:+ w) (hFg : Foreground (nodes [] root e) (.left :: x.place) w)
    (hBusy : s.Busy w) : ∃ p, ∀ v ∈ (runcmd (.right :: x.place) right).sites, v ∈ s.sites p := by
  obtain ⟨pid, q, hProc, hAlive, hAbove, hOwn⟩ := h.busy hBusy
  obtain hBelow | hUp := List.suffix_or_suffix_of_suffix hLeft hAbove
  · exact h.ahead hx hList hFg hProc hAlive hBelow hAbove
  · obtain hSame | hUp := List.suffix_cons_iff.mp hUp
    · exact h.ahead hx hList hFg hProc hAlive (hSame ▸ List.suffix_rfl) hAbove
    · obtain ⟨c, k, hImage, hSite⟩ | hs := hOwn
      · refine ⟨pid, fun v hv => ?_⟩
        rw [sites_code hProc hImage]
        exact (h.code hProc hImage).whole.2 x hx left right hList hUp w hSite hLeft v hv
      · exact absurd hLeft (hs.not_left hUp)

theorem unkilled_start (cmd : Cmd) (fds : Fds) : (Sys.start cmd fds).Unkilled := fun pid q hProc => by
  obtain ⟨-, hEq⟩ := Option.ite_none_right_eq_some.mp hProc
  rw [← Option.some.inj hEq]

theorem family_start (cmd : Cmd) (e : Env) (fds : Fds) : Family (nodes [] cmd e) (Sys.start cmd fds) := by
  have hOnly : ∀ pid q, (Sys.start cmd fds).proc pid = some q → pid = 0 ∧ q = ⟨.code (runcmd [] cmd) (0, 0), fds, [], [], false⟩ := by
    intro pid q hProc
    obtain ⟨hPid, hEq⟩ := Option.ite_none_right_eq_some.mp hProc
    exact ⟨hPid, (Option.some.inj hEq).symm⟩
  refine ⟨fun pid q hProc => ?_, fun pid q hProc n hn => ?_, fun pid q hProc => ?_, fun pid pid' q q' n hProc _ hn _ => ?_,
    fun pid q hProc _ hNe _ => ?_, fun pid q hProc _ => (hOnly pid q hProc).1⟩
  all_goals obtain ⟨-, rfl⟩ := hOnly pid q hProc
  · exact fits_runcmd (List.Subset.refl _) (Straight.refl [])
  · exact absurd hn List.not_mem_nil
  · exact List.nodup_nil
  · exact absurd hn List.not_mem_nil
  · exact absurd rfl hNe

/-- The programs of a line start in its order, whichever calls other than `fork` fail, while nobody is killed. -/
theorem list_order (cmd : Cmd) (e : Env) (fds : Fds) (hRuns : Forking (Sys.start cmd fds) s) :
    (∀ x ∈ nodes [] cmd e, ∀ left right, x.cmd = .list left right → ∀ w, .left :: x.place <:+ w →
      Foreground (nodes [] cmd e) (.left :: x.place) w → ∀ v ∈ (runcmd (.right :: x.place) right).sites, v ∈ s.used → ¬s.Busy w) ∧
    ∀ q, s.proc 0 = some q → q.image = .zombie → ∀ w, Foreground (nodes [] cmd e) [] w → ¬s.Busy w := by
  have hFamily := ((family_start cmd e fds).runs (unkilled_start cmd fds) hRuns).1
  have hLinear := (linear_start cmd fds).runs (Relation.ReflTransGen.mono (fun _ _ => Or.imp_right Or.inl) _ _ hRuns)
  refine ⟨fun x hx left right hList w hLeft hFg v hv hUsed hBusy => ?_, fun q hProc hZombie w hFg hBusy => ?_⟩
  · obtain ⟨p, hSites⟩ := hFamily.right_waits hx hList hLeft hFg hBusy
    exact hLinear.unused p v (hSites v hv) hUsed
  · obtain ⟨pid, r, hr, hAlive, hAbove, -⟩ := hFamily.busy hBusy
    obtain ⟨q₀, hq₀, hAlive₀⟩ := hFamily.first hFg hr hAlive hAbove
    obtain rfl := Option.some.inj (hProc.symm.trans hq₀)
    rw [hZombie] at hAlive₀
    exact hAlive₀

end Order

section Example

def named (c : UInt8) : Cmd := .exec [⟨[c], []⟩]

/-- `a; b`, where `a` has ended and `b` is running. -/
theorem list_order_example : ∃ s, play (Sys.start (.list (named 97) (named 98)) fun _ => none)
      [(0, 1), (1, 0), (1, 0), (0, 1), (0, 0)] = some s ∧ [Turn.right] ∈ s.used ∧ ¬s.Busy [.left] := by
  obtain ⟨s, hPlay⟩ : ∃ s, play (Sys.start (.list (named 97) (named 98)) fun _ => none)
    [(0, 1), (1, 0), (1, 0), (0, 1), (0, 0)] = some s := ⟨_, rfl⟩
  have hRuns : Forking (Sys.start (.list (named 97) (named 98)) fun _ => none) s :=
    Relation.ReflTransGen.mono (fun _ _ => Or.inl) _ _ (steps_of_play hPlay)
  have hUsed : [Turn.right] ∈ s.used := by
    cases hPlay
    exact List.mem_cons_self
  refine ⟨s, hPlay, hUsed, ?_⟩
  refine (list_order _ ⟨.console, .console, .console⟩ _ hRuns).1 ⟨[], _, _⟩ List.mem_cons_self _ _ rfl [.left] List.suffix_rfl ?_ [.right]
    List.mem_cons_self hUsed
  rintro y hy ⟨cmd, hBack⟩
  obtain rfl | rfl | rfl : y = _ ∨ y = _ ∨ y = _ := by
    simpa only [nodes, named, List.mem_cons, List.mem_append, List.not_mem_nil, or_false] using hy
  all_goals cases hBack

/-- In `a|b; c` the second `fork` of the pipe has failed: `c` has been started, and `a` is running. -/
theorem fork_fails_out_of_order : ∃ s, Runs (Sys.start (.list (.pipe (named 97) (named 98)) (named 99)) fun _ => none) s ∧
    [Turn.right] ∈ s.used ∧ s.Busy [.left, .left] := by
  obtain ⟨s, hBefore⟩ : ∃ s, play (Sys.start (.list (.pipe (named 97) (named 98)) (named 99)) fun _ => none)
    [(0, 1), (1, 0), (1, 2), (2, 0), (2, 0), (2, 0), (2, 0), (2, 0)] = some s := ⟨_, rfl⟩
  have hRuns : Runs (Sys.start (.list (.pipe (named 97) (named 98)) (named 99)) fun _ => none) s :=
    Relation.ReflTransGen.mono (fun _ _ => Or.inl) _ _ (steps_of_play hBefore)
  obtain ⟨q, home, child, parent, m, p, hProc, hImage⟩ : ∃ q home child parent m p,
      s.proc 1 = some q ∧ q.image = .code (.fork home child parent m) p := by
    cases hBefore
    exact ⟨_, _, _, _, _, _, rfl, rfl⟩
  have hFails := ForkFails.call hProc hImage
  obtain ⟨s', hAfter, hUsed, hBusy⟩ : ∃ s', play (s.set 1 (q.goOn (.print m) p q.fds)) [(1, 0), (1, 0), (0, 1), (0, 0)] = some s' ∧
      [Turn.right] ∈ s'.used ∧ s'.Busy [.left, .left] := by
    cases hBefore
    cases hProc
    exact ⟨_, rfl, List.mem_cons_self, 2, _, rfl, Or.inl rfl⟩
  exact ⟨s', (hRuns.tail (Or.inr (Or.inr (Or.inl hFails)))).trans (Relation.ReflTransGen.mono (fun _ _ => Or.inl) _ _ (steps_of_play hAfter)),
    hUsed, hBusy⟩

/-- In `a; b` the process of the line is killed while `a` is running: `b` has been started, too. -/
theorem kill_out_of_order : ∃ s, Runs (Sys.start (.list (named 97) (named 98)) fun _ => none) s ∧
    [Turn.right] ∈ s.used ∧ s.Busy [.left] := by
  obtain ⟨s, hBefore⟩ : ∃ s, play (Sys.start (.list (named 97) (named 98)) fun _ => none) [(0, 1), (1, 0)] = some s := ⟨_, rfl⟩
  have hRuns : Runs (Sys.start (.list (named 97) (named 98)) fun _ => none) s :=
    Relation.ReflTransGen.mono (fun _ _ => Or.inl) _ _ (steps_of_play hBefore)
  obtain ⟨q, u, next, p, hProc, hImage, hRunning⟩ : ∃ q u next p, s.proc 0 = some q ∧ q.image = .code (.wait u next) p ∧
      ∀ n ∈ q.children, ∃ q', s.proc n = some q' ∧ q'.image = .prog [.left] := by
    cases hBefore
    refine ⟨_, _, _, _, rfl, rfl, fun n hn => ?_⟩
    obtain rfl := List.mem_singleton.mp hn
    exact ⟨_, rfl, rfl⟩
  have hKill : Kill s (s.set 0 { q with killed := true }) := .kill hProc
  have hWait : Step (s.set 0 { q with killed := true }) _ :=
    .interrupted (Sys.set_self ..) hImage rfl fun n hn q' hq' hZombie => by
      obtain ⟨r, hr, hProg⟩ := hRunning n hn
      have hne : n ≠ 0 := by
        rintro rfl
        obtain rfl := Option.some.inj (hProc.symm.trans hr)
        rw [hImage] at hProg
        cases hProg
      rw [Sys.set_of_ne _ _ hne, hr] at hq'
      obtain rfl := Option.some.inj hq'
      rw [hZombie] at hProg
      cases hProg
  obtain ⟨s', hAfter, hUsed, hBusy⟩ : ∃ s', play ((s.set 0 { q with killed := true }).set 0
      (Proc.goOn { q with killed := true } next p q.fds)) [(0, 0)] = some s' ∧ [Turn.right] ∈ s'.used ∧ s'.Busy [.left] := by
    cases hBefore
    cases hProc
    cases hImage
    exact ⟨_, rfl, List.mem_cons_self, 1, _, rfl, Or.inl rfl⟩
  exact ⟨s', ((hRuns.tail (Or.inr (Or.inr (Or.inr hKill)))).tail (Or.inl hWait)).trans
    (Relation.ReflTransGen.mono (fun _ _ => Or.inl) _ _ (steps_of_play hAfter)), hUsed, hBusy⟩

end Example

end Xv6Rpi.Shell
