import Xv6Rpi.Fs.Counted

/-! # What a referenced inode stays

As long as somebody has a reference to a cache entry, the entry holds the same inode, and once the inode has been
read it keeps its type: `iput` frees an inode only with the last reference. So a call leaves alone what all others have.
-/

namespace Xv6Rpi.Fs

open Prog Sharing

/-- The entries in `c` hold the same inodes, of the same types once they have been read. -/
structure Kept (c : Multiset Nat) (s s' : Kern) : Prop where
  file : s'.file = s.file
  proc : s'.proc = s.proc
  devsw : s'.devsw = s.devsw
  inum : ∀ j ∈ c, (s'.inode j).inum = (s.inode j).inum
  valid : ∀ j ∈ c, (s.inode j).valid = true → (s'.inode j).valid = true ∧ (s'.inode j).di.type = (s.inode j).di.type

section Kept

variable {c c' m : Multiset Nat} {s s₁ s' : Kern} {ip : Nat}

theorem Kept.refl (c : Multiset Nat) (s : Kern) : Kept c s s := ⟨rfl, rfl, rfl, fun _ _ => rfl, fun _ _ h => ⟨h, rfl⟩⟩

theorem Kept.trans (h : Kept c s s₁) (h' : Kept c s₁ s') : Kept c s s' where
  file := h'.file.trans h.file
  proc := h'.proc.trans h.proc
  devsw := h'.devsw.trans h.devsw
  inum j hj := (h'.inum j hj).trans (h.inum j hj)
  valid j hj hv := by
    obtain ⟨hv₁, ht₁⟩ := h.valid j hj hv
    obtain ⟨hv', ht'⟩ := h'.valid j hj hv₁
    exact ⟨hv', ht'.trans ht₁⟩

theorem Kept.mono (h : Kept c' s s') (hSub : ∀ j ∈ c, j ∈ c') : Kept c s s' :=
  ⟨h.file, h.proc, h.devsw, fun j hj => h.inum j (hSub j hj), fun j hj => h.valid j (hSub j hj)⟩

theorem Still.kept (h : Still s s') (c : Multiset Nat) : Kept c s s' :=
  ⟨h.file, h.proc, h.devsw, fun j _ => (h.entry j).inum, fun j _ => (h.entry j).valid⟩

theorem Kept.of_set {x : Inode} (hNot : ip ∉ c) : Kept c s (setInode s ip x) := by
  have hSame : ∀ j ∈ c, (setInode s ip x).inode j = s.inode j := fun j hj =>
    setInode_of_ne (fun hEq : j = ip => hNot (hEq ▸ hj)) x
  refine ⟨rfl, rfl, rfl, fun j hj => by rw [hSame j hj], fun j hj hv => ?_⟩
  rw [hSame j hj]
  exact ⟨hv, rfl⟩

theorem Kept.of_ref (c : Multiset Nat) (s : Kern) (ip : Nat) (n : Int) : Kept c s (setInode s ip { s.inode ip with ref := n }) := by
  have hSame : ∀ j, ((setInode s ip { s.inode ip with ref := n }).inode j).inum = (s.inode j).inum ∧
      ((setInode s ip { s.inode ip with ref := n }).inode j).valid = (s.inode j).valid ∧
      ((setInode s ip { s.inode ip with ref := n }).inode j).di = (s.inode j).di := fun j => by
    by_cases hj : j = ip
    · rw [hj, setInode_self]
      exact ⟨rfl, rfl, rfl⟩
    · rw [setInode_of_ne hj]
      exact ⟨rfl, rfl, rfl⟩
  refine ⟨rfl, rfl, rfl, fun j _ => (hSame j).1, fun j _ hv => ?_⟩
  rw [(hSame j).2.1, (hSame j).2.2]
  exact ⟨hv, rfl⟩

end Kept

/-- What a program does that starts with the references `m` while others have theirs: it ends with references of which `Q`
holds, and to the others their entries are kept. -/
def Keeping {α : Type} (x : FsM α) (m : Multiset Nat) (Q : α → Multiset Nat → Prop) : Prop :=
  ∀ s c g, RefsOf s c g → g true = m → wp .loose x (fun a s' => ∃ g' : Bool → Multiset Nat,
    RefsOf s' c g' ∧ g' false = g false ∧ Q a (g' true) ∧ Kept (g false) s s') s

section Ledger

variable {s : Kern} {c : Tables} {g : Bool → Multiset Nat} {m : Multiset Nat} {ip : Nat}

theorem RefsOf.keeping {s' : Kern} {α : Type} {Q : α → Multiset Nat → Prop} {a : α} (h : RefsOf s' c (Function.update g true m)) (hQ : Q a m)
    (hKept : Kept (g false) s s') : ∃ g' : Bool → Multiset Nat, RefsOf s' c g' ∧ g' false = g false ∧ Q a (g' true) ∧ Kept (g false) s s' :=
  ⟨_, h, Function.update_of_ne (by decide) .., by rwa [Function.update_self], hKept⟩

theorem RefsOf.notMem_of_one (h : RefsOf s c g) (hg : g true = ip ::ₘ m) (hOne : (s.inode ip).ref = 1) : ip ∉ g false := by
  intro hMem
  have hMine : ip ∈ g true := hg ▸ Multiset.mem_cons_self ip m
  have hIn : ip < ninode := h.lt ip (Multiset.mem_sum.mpr ⟨true, Finset.mem_univ true, hMine⟩)
  have hRef := h.refs ip hIn
  rw [Fintype.sum_bool, Multiset.count_add, hOne] at hRef
  have hTrue := Multiset.count_pos.mpr hMine
  have hFalse := Multiset.count_pos.mpr hMem
  omega

theorem RefsOf.ref_pos (h : RefsOf s c g) {b : Bool} (hMem : ip ∈ g b) : 0 < (s.inode ip).ref := by
  have hSum : ip ∈ ∑ i, g i := Multiset.mem_sum.mpr ⟨b, Finset.mem_univ b, hMem⟩
  rw [h.refs ip (h.lt ip hSum)]
  exact Int.natCast_pos.mpr (Multiset.count_pos.mpr hSum)

theorem keeping_ledger : Ledger @Keeping where
  pure hQ s c g h hg := ⟨g, h, rfl, hg ▸ hQ, .refl _ s⟩
  bind hx s c g h hg := by
    rw [wp_bind]
    refine wp_mono (hx s c g h hg) fun b s₁ h₁ => ?_
    obtain ⟨g₁, h₁, hg₁, hRest, hKept⟩ := h₁
    refine wp_mono (hRest s₁ c g₁ h₁ rfl) fun a s' h' => ?_
    obtain ⟨g', h', hg', hQ, hKept'⟩ := h'
    rw [hg₁] at hKept' hg'
    exact ⟨g', h', hg', hQ, hKept.trans hKept'⟩
  panic s c g h hg := wp_loose_single fun a s' hf => by cases hf
  quiet hx hQ s c g h hg := hx.leads.wp fun a s' hs => ⟨g, h.congr hs.accounts, rfl, hg ▸ hQ a, hs.kept _⟩
  iget {inum m Q} hQ s c g h hg := by
    refine wp_loose_single fun ip s' hf => ?_
    have hRun : (iget inum).run s = .ok (ip, s') := by
      rw [iget, act, Prog.single, Prog.run, hf]
      rfl
    rcases run_iget s inum with ⟨ip', s₁, hRun', hGot⟩ | ⟨hRun', -⟩
    · obtain ⟨rfl, rfl⟩ := Prod.mk.inj (Except.ok.inj (hRun'.symm.trans hRun))
      have hTaken := h.take hGot.lt hGot.ref hg
      rw [← hGot.state] at hTaken
      refine hTaken.keeping (hQ _) ?_
      by_cases hUsed : 0 < (s.inode ip').ref
      · rw [hGot.state, hGot.keep hUsed]
        exact .of_ref ..
      · rw [hGot.state]
        exact .of_set fun hMem => hUsed (h.ref_pos hMem)
    · cases hRun'.symm.trans hRun
  idupCwd {p m Q} hQ s c g h hg := by
    refine wp_loose_single fun ip s' hf => ?_
    cases hCwd : (s.proc p).cwd with
    | none =>
      rw [hCwd] at hf
      cases hf
    | some j =>
      rw [hCwd] at hf
      cases hf
      have hIn : ip < ninode := h.cwd p ip (by rw [← h.tables]; exact hCwd)
      exact (h.take hIn rfl hg).keeping (hQ _) (.of_ref ..)
  iput {ip m Q} hQ s c g h hg := by
    rw [iput, wp_bind]
    refine wp_loose_single fun free s₁ hf => ?_
    by_cases hFree : (s.inode ip).ref = 1 ∧ (s.inode ip).valid ∧ (s.inode ip).di.nlink = 0
    · rw [if_pos hFree] at hf
      cases hBusy : (s.inode ip).busy with
      | true =>
        rw [hBusy] at hf
        cases hf
      | false =>
        rw [hBusy] at hf
        cases hf
        have hAlone := h.notMem_of_one hg hFree.1
        have hLock : Still s (setInode s ip { s.inode ip with busy := true }) := .of_set ⟨rfl, rfl, fun hv => ⟨hv, rfl⟩⟩
        rw [if_pos rfl, wp_bind]
        refine (quiet_itrunc ip).leads.wp fun _ s₂ h₂ => ?_
        rw [wp_bind]
        refine wp_loose_single fun _ s₃ h₃ => ?_
        cases h₃
        rw [wp_bind]
        refine (quiet_iupdate ip).leads.wp fun _ s₄ h₄ => ?_
        refine wp_loose_single fun _ s₅ h₅ => ?_
        cases h₅
        let di : Inode := { s₂.inode ip with di := { (s₂.inode ip).di with type := 0 } }
        have hDi : Kept (g false) s₂ (setInode s₂ ip di) := .of_set hAlone
        have hRefs : RefsOf s₄ c g := (((h.congr hLock.accounts).congr h₂.accounts).congr (accounts_setInode (x := di) rfl)).congr h₄.accounts
        refine (hRefs.drop rfl hg).keeping hQ ((((hLock.kept _).trans (h₂.kept _)).trans hDi).trans ((h₄.kept _).trans (.of_set hAlone)))
    · rw [if_neg hFree] at hf
      cases hf
      rw [if_neg Bool.false_ne_true]
      exact (h.drop rfl hg).keeping hQ (.of_ref ..)

end Ledger

end Xv6Rpi.Fs
