import Mathlib.Algebra.BigOperators.Group.Finset.Piecewise
import Mathlib.Algebra.Order.BigOperators.Group.Multiset
import Mathlib.Data.Fintype.Basic
import Xv6Rpi.Fs.Directory
import Xv6Rpi.Fs.Ledger
import Xv6Rpi.Lib.Shares

/-! # References are counted

The reference count of a cache entry is the number of references that all holders have to it, in every interleaving of
programs that only take and drop references.
-/

namespace Xv6Rpi.Fs

open Prog Sharing

theorem sum_update_add {H M : Type} [Fintype H] [DecidableEq H] [AddCommMonoid M] (g : H → M) (h : H) (y : M) :
    ∑ i, Function.update g h y i + g h = ∑ i, g i + y := by
  have hRest : ∑ i ∈ Finset.univ.erase h, Function.update g h y i = ∑ i ∈ Finset.univ.erase h, g i :=
    Finset.sum_congr rfl fun i hi => Function.update_of_ne (Finset.ne_of_mem_erase hi) ..
  rw [← Finset.add_sum_erase Finset.univ (Function.update g h y) (Finset.mem_univ h), hRest, Function.update_self,
    ← Finset.add_sum_erase Finset.univ g (Finset.mem_univ h)]
  abel

abbrev Tables := (Nat → File) × (Nat → ProcFiles)

structure RefsOf {H : Type} [Fintype H] (s : Kern) (c : Tables) (g : H → Multiset Nat) : Prop where
  tables : (s.file, s.proc) = c
  refs : ∀ j < ninode, (s.inode j).ref = ((∑ h, g h).count j : Nat)
  lt : ∀ j ∈ ∑ h, g h, j < ninode
  cwd : ∀ p j, (c.2 p).cwd = some j → j < ninode

/-- Nobody's references change behind his back. -/
def refSharing (H : Type) [Fintype H] : Sharing Kern Stop Tables H (Multiset Nat) := ⟨RefsOf, fun _ => False, fun _ => False⟩

section Counted

variable {H : Type} [Fintype H] [DecidableEq H] {s s' : Kern} {c : Tables} {g : H → Multiset Nat} {h : H} {ip : Nat}
  {m : Multiset Nat}

omit [DecidableEq H] in
theorem RefsOf.congr (hs : RefsOf s c g) (hSame : accounts s' = accounts s) : RefsOf s' c g := by
  simp only [accounts, Prod.mk.injEq] at hSame
  obtain ⟨hFile, hProc, hRef⟩ := hSame
  refine ⟨?_, fun j hj => (congrFun hRef j).trans (hs.refs j hj), hs.lt, hs.cwd⟩
  rw [hFile, hProc, hs.tables]

theorem RefsOf.change (hs : RefsOf s c g) (x : Inode) (hIn : ip < ninode) (hMem : ∀ j ∈ m, j ∈ g h ∨ j = ip)
    (hOther : ∀ j, j ≠ ip → m.count j = (g h).count j) (hRef : x.ref + (g h).count ip = (s.inode ip).ref + m.count ip) :
    RefsOf (setInode s ip x) c (Function.update g h m) := by
  have hSum := sum_update_add g h m
  have hCount : ∀ j, (∑ i, Function.update g h m i).count j + (g h).count j = (∑ i, g i).count j + m.count j := fun j => by
    rw [← Multiset.count_add, hSum, Multiset.count_add]
  refine ⟨hs.tables, fun j hj => ?_, fun j hj => ?_, hs.cwd⟩
  · have hThis := hCount j
    by_cases hEq : j = ip
    · rw [hEq] at hThis ⊢
      rw [setInode_self]
      have hWas := hs.refs ip hIn
      omega
    · rw [setInode_of_ne hEq, hs.refs j hj]
      have := hOther j hEq
      omega
  · have hIn' : j ∈ ∑ i, Function.update g h m i + g h := Multiset.mem_add.mpr (Or.inl hj)
    rw [hSum, Multiset.mem_add] at hIn'
    rcases hIn' with hOld | hNew
    · exact hs.lt j hOld
    · rcases hMem j hNew with hMine | hEq
      · exact hs.lt j (Multiset.mem_sum.mpr ⟨h, Finset.mem_univ h, hMine⟩)
      · exact hEq ▸ hIn

theorem RefsOf.take (hs : RefsOf s c g) {x : Inode} (hIn : ip < ninode) (hRef : x.ref = (s.inode ip).ref + 1) (hg : g h = m) :
    RefsOf (setInode s ip x) c (Function.update g h (ip ::ₘ m)) := by
  refine hs.change x hIn (fun j hj => ?_) (fun j hj => ?_) ?_
  · rw [hg]
    exact (Multiset.mem_cons.mp hj).symm
  · rw [hg, Multiset.count_cons_of_ne hj]
  · rw [hg, hRef, Multiset.count_cons_self]
    omega

theorem RefsOf.drop (hs : RefsOf s c g) {x : Inode} (hRef : x.ref = (s.inode ip).ref - 1) (hg : g h = ip ::ₘ m) :
    RefsOf (setInode s ip x) c (Function.update g h m) := by
  have hMem : ip ∈ ∑ i, g i := Multiset.mem_sum.mpr ⟨h, Finset.mem_univ h, hg ▸ Multiset.mem_cons_self ip m⟩
  refine hs.change x (hs.lt ip hMem) (fun j hj => ?_) (fun j hj => ?_) ?_
  · rw [hg]
    exact Or.inl (Multiset.mem_cons_of_mem hj)
  · rw [hg, Multiset.count_cons_of_ne hj]
  · rw [hg, hRef, Multiset.count_cons_self]
    omega

/-- What holds of a program that takes and drops references while others do so too. -/
abbrev Shares (h : H) {α : Type} (x : FsM α) (m : Multiset Nat) (Q : α → Multiset Nat → Prop) : Prop :=
  (refSharing H).Holds (fun _ => True) h x m Q

theorem shares_ledger (h : H) : Ledger (@Shares H _ h) where
  pure hQ := hQ
  bind hx := holds_bind hx
  panic := holds_single trivial id fun _ _ _ _ _ => id
  quiet hx hQ := holds_keeps (fun _ _ _ _ hSame hs => RefsOf.congr hs hSame) (fun _ => id) trivial id hx.keeps hQ
  iget {inum m Q} hQ := by
    refine holds_single_run trivial id (fun s c g ip s' hs hg hRun => ?_) fun _ _ _ _ _ _ _ => id
    rcases run_iget s inum with ⟨ip', s₁, hRun', hGot⟩ | ⟨hRun', -⟩
    · obtain ⟨rfl, rfl⟩ := Prod.mk.inj (Except.ok.inj (hRun'.symm.trans hRun))
      have hTaken := hs.take hGot.lt hGot.ref hg
      rw [← hGot.state] at hTaken
      exact ⟨_, hTaken, others_update h g _, by rw [Function.update_self]; exact hQ ip'⟩
    · cases hRun'.symm.trans hRun
  idupCwd {p m Q} hQ := by
    refine holds_single trivial id fun s c g hs hg => ?_
    cases hCwd : (s.proc p).cwd with
    | none => exact id
    | some ip =>
      have hIn : ip < ninode := hs.cwd p ip (by rw [← hs.tables]; exact hCwd)
      exact ⟨_, hs.take hIn rfl hg, others_update h g _, by rw [Function.update_self]; exact hQ ip⟩
  iput {ip m Q} hQ := by
    have hLast : Shares h (modifyInode ip fun i => { i with busy := false, valid := false, ref := i.ref - 1 }) (ip ::ₘ m) Q :=
      holds_single trivial id fun s c g hs hg =>
        ⟨_, hs.drop rfl hg, others_update h g _, by rw [Function.update_self]; exact hQ⟩
    refine holds_bind (holds_single trivial id fun s c g hs hg => ?_)
    by_cases hFree : (s.inode ip).ref = 1 ∧ (s.inode ip).valid ∧ (s.inode ip).di.nlink = 0
    · rw [if_pos hFree]
      cases (s.inode ip).busy with
      | true => exact id
      | false =>
        have hLock : Still s (setInode s ip { s.inode ip with busy := true }) := .of_set ⟨rfl, rfl, fun hv => ⟨hv, rfl⟩⟩
        refine ⟨g, hs.congr hLock.accounts, .refl h g, ?_⟩
        have hQuiet : ∀ {α : Type} {x : FsM α}, x.Keeps accounts → Shares h x (ip ::ₘ m) fun _ m' => m' = ip ::ₘ m :=
          fun hx => holds_keeps (fun _ _ _ _ hSame hs => RefsOf.congr hs hSame) (fun _ => id) trivial id hx fun _ => rfl
        rw [hg, if_pos rfl]
        refine holds_bind ((hQuiet (quiet_itrunc ip).keeps).mono fun _ m' hm => ?_)
        rw [hm]
        refine holds_bind ((hQuiet (keeps_modifyDi ip _)).mono fun _ m' hm => ?_)
        rw [hm]
        refine holds_bind ((hQuiet (quiet_iupdate ip).keeps).mono fun _ m' hm => ?_)
        rw [hm]
        exact hLast
    · rw [if_neg hFree]
      refine ⟨_, hs.drop rfl hg, others_update h g _, ?_⟩
      rw [Function.update_self, if_neg Bool.false_ne_true]
      exact hQ

end Counted

end Xv6Rpi.Fs
