import Mathlib.Data.Multiset.MapFold
import Xv6Rpi.Shell.Programs

/-! # The order of the programs

The right part of a list is not begun before the programs of the left part have ended, those in the background left out, and the shell
does not go on before the programs of the line have ended. This holds as long as no `fork` fails and no process of the line is killed:
where the second `fork` of a pipe fails, the shell does not wait for the left part, and a killed process waits for no child.
-/

namespace Xv6Rpi.Shell

/-- One process can come from the first place to the second one: the left part of a list or a pipe is always forked. -/
def Straight (h u : Place) : Prop := ∃ path, u = path ++ h ∧ Turn.left ∉ path

def Forks (h home : Place) : Prop := ∃ t u, home = t :: u ∧ Straight h u

def Background (N : List Node) (h : Place) : Prop := ∃ x ∈ N, (∃ cmd, x.cmd = .back cmd) ∧ h = .sub :: x.place

/-- Places of the left part of a list come with those of the right part. -/
def Whole (N : List Node) (h : Place) (sites : List Place) : Prop :=
  (∀ v ∈ sites, h <:+ v) ∧ ∀ x ∈ N, ∀ left right, x.cmd = .list left right → h <:+ x.place → ∀ w ∈ sites, .left :: x.place <:+ w →
    ∀ v ∈ (runcmd (.right :: x.place) right).sites, v ∈ sites

/-- Behind a child that runs the left part of a list the right part is still to come. -/
def Keeps (N : List Node) (cs : Multiset Place) (sites : List Place) : Prop :=
  ∀ x ∈ N, ∀ left right, x.cmd = .list left right → .left :: x.place ∈ cs →
    ∀ v ∈ (runcmd (.right :: x.place) right).sites, v ∈ sites

/-- The code waits for the children that are not in the background, whose homes are `cs`. -/
def Code.Fits (N : List Node) (c : Code) (h : Place) (cs : Multiset Place) : Prop :=
  Whole N h c.sites ∧ match c with
    | .close _ next | .dup _ next => next.Fits N h cs
    | .open _ _ next _ => (∀ x ∈ cs, Background N x) ∧ next.Fits N h cs
    | .pipe _ next _ => (∀ x ∈ cs, Background N x) ∧ next.Fits N h cs
    | .fork home child parent _ =>
      Forks h home ∧ child.Fits N home 0 ∧ parent.Fits N h (home ::ₘ cs)
    | .wait _ next => cs ≠ 0 ∧ Keeps N cs next.sites ∧ ∀ x ∈ cs, next.Fits N h (cs.erase x)
    | .exec u _ _ => (∀ x ∈ cs, Background N x) ∧ Straight h u
    | .print _ | .exit => ∀ x ∈ cs, Background N x

section Code

variable {N : List Node} {h u : Place} {cs : Multiset Place} {c : Code} {cmd : Cmd} {e : Env}

theorem Straight.refl (h : Place) : Straight h h := ⟨[], rfl, List.not_mem_nil⟩

theorem Straight.suffix (hs : Straight h u) : h <:+ u := by
  obtain ⟨path, rfl, -⟩ := hs
  exact List.suffix_append ..

theorem Straight.cons (hs : Straight h u) {t : Turn} (ht : t ≠ .left) : Straight h (t :: u) := by
  obtain ⟨path, rfl, hPath⟩ := hs
  refine ⟨t :: path, rfl, ?_⟩
  rw [List.mem_cons]
  exact not_or.mpr ⟨ht.symm, hPath⟩

theorem Straight.not_left (hs : Straight h u) {v : Place} (hv : h <:+ v) : ¬.left :: v <:+ u := by
  rintro ⟨rest, hRest⟩
  obtain ⟨path, rfl, hPath⟩ := hs
  obtain ⟨front, rfl⟩ := hv
  have hEq : path = rest ++ .left :: front := by
    have hSame : path ++ h = rest ++ .left :: front ++ h := by rw [← hRest, List.append_assoc, List.cons_append]
    exact List.append_cancel_right hSame
  exact hPath (hEq ▸ List.mem_append_right _ List.mem_cons_self)

theorem Whole.nil : Whole N h [] := ⟨fun _ hv => absurd hv List.not_mem_nil, fun _ _ _ _ _ _ _ hw => absurd hw List.not_mem_nil⟩

theorem Whole.append {l l' : List Place} (hl : Whole N h l) (hl' : Whole N h l') : Whole N h (l ++ l') := by
  refine ⟨fun v hv => ?_, fun x hx left right hList hSuffix w hw hLeft v hv => ?_⟩
  · obtain hv | hv := List.mem_append.mp hv
    · exact hl.1 v hv
    · exact hl'.1 v hv
  · obtain hw | hw := List.mem_append.mp hw
    · exact List.mem_append_left _ (hl.2 x hx left right hList hSuffix w hw hLeft v hv)
    · exact List.mem_append_right _ (hl'.2 x hx left right hList hSuffix w hw hLeft v hv)

theorem Code.Fits.whole (hFits : c.Fits N h cs) : Whole N h c.sites := by
  cases c <;> exact hFits.1

theorem mem_nodes_self (u : Place) (cmd : Cmd) (e : Env) : ⟨u, cmd, e⟩ ∈ nodes u cmd e := by
  cases cmd <;> exact List.mem_cons_self

theorem mem_nodes_of_suffix {u₀ : Place} {root : Cmd} {e₀ : Env} (hu : ⟨u, cmd, e⟩ ∈ nodes u₀ root e₀) {x : Node}
    (hx : x ∈ nodes u₀ root e₀) (hSuffix : u <:+ x.place) : x ∈ nodes u cmd e := by
  induction root generalizing u₀ e₀ with
  | exec argv =>
    cases List.mem_singleton.mp hu
    exact hx
  | redir root file mode fd ih | back root ih =>
    obtain hu | hu := List.mem_cons.mp hu
    · cases hu
      exact hx
    · obtain hx | hx := List.mem_cons.mp hx
      · rw [hx] at hSuffix
        exact absurd ((suffix_of_mem_nodes hu).trans hSuffix) not_cons_suffix
      · exact ih hu hx
  | pipe left right ihLeft ihRight | list left right ihLeft ihRight =>
    obtain hu | hu := List.mem_cons.mp hu
    · cases hu
      exact hx
    · obtain hx | hx := List.mem_cons.mp hx
      · rw [hx] at hSuffix
        obtain hu | hu := List.mem_append.mp hu
        · exact absurd ((suffix_of_mem_nodes hu).trans hSuffix) not_cons_suffix
        · exact absurd ((suffix_of_mem_nodes hu).trans hSuffix) not_cons_suffix
      · obtain hu | hu := List.mem_append.mp hu
        · obtain hx | hx := List.mem_append.mp hx
          · exact ihLeft hu hx
          · cases turn_unique ((suffix_of_mem_nodes hu).trans hSuffix) (suffix_of_mem_nodes hx)
        · obtain hx | hx := List.mem_append.mp hx
          · cases turn_unique ((suffix_of_mem_nodes hu).trans hSuffix) (suffix_of_mem_nodes hx)
          · exact ihRight hu hx

theorem sites_subset {x : Node} (hx : x ∈ nodes u cmd e) : (runcmd x.place x.cmd).sites ⊆ (runcmd u cmd).sites := by
  induction cmd generalizing u e with
  | exec argv =>
    cases List.mem_singleton.mp hx
    exact List.Subset.refl _
  | redir cmd file mode fd ih =>
    obtain hx | hx := List.mem_cons.mp hx
    · cases hx
      exact List.Subset.refl _
    · exact ih hx
  | pipe left right ihLeft ihRight =>
    obtain hx | hx := List.mem_cons.mp hx
    · cases hx
      exact List.Subset.refl _
    · refine List.subset_cons_of_subset _ ?_
      obtain hx | hx := List.mem_append.mp hx
      · exact List.subset_append_of_subset_left _ (ihLeft hx)
      · exact List.subset_append_of_subset_right _ (List.subset_append_of_subset_left _ (ihRight hx))
  | list left right ihLeft ihRight =>
    obtain hx | hx := List.mem_cons.mp hx
    · cases hx
      exact List.Subset.refl _
    · obtain hx | hx := List.mem_append.mp hx
      · exact List.subset_append_of_subset_left _ (ihLeft hx)
      · exact List.subset_append_of_subset_right _ (ihRight hx)
  | back cmd ih =>
    obtain hx | hx := List.mem_cons.mp hx
    · cases hx
      exact List.Subset.refl _
    · exact List.subset_append_of_subset_left _ (ih hx)

theorem sites_right {x : Node} {left right : Cmd} (hx : x ∈ nodes u cmd e) (hList : x.cmd = .list left right) :
    (runcmd (.right :: x.place) right).sites ⊆ (runcmd u cmd).sites := by
  refine List.Subset.trans ?_ (sites_subset hx)
  rw [hList]
  exact List.subset_append_right ..

end Code

section Tree

variable {root : Cmd} {e₀ : Env} {h u : Place} {cmd : Cmd} {e : Env}

theorem whole_runcmd (hu : ⟨u, cmd, e⟩ ∈ nodes [] root e₀) (hs : Straight h u) : Whole (nodes [] root e₀) h (runcmd u cmd).sites := by
  refine ⟨fun v hv => hs.suffix.trans (suffix_of_mem_sites hv), fun x hx left right hList hSuffix w hw hLeft => ?_⟩
  obtain hAbove | hBelow := List.suffix_or_suffix_of_suffix hLeft (suffix_of_mem_sites hw)
  · exact absurd hAbove (hs.not_left hSuffix)
  · obtain hEq | hBelow := List.suffix_cons_iff.mp hBelow
    · exact absurd (hEq ▸ List.suffix_rfl) (hs.not_left hSuffix)
    · exact sites_right (mem_nodes_of_suffix hu hx hBelow) hList

theorem whole_left {left right : Cmd} (hu : ⟨u, .pipe left right, e⟩ ∈ nodes [] root e₀)
    (hl : ⟨.left :: u, left, { e with output := .writeEnd u }⟩ ∈ nodes [] root e₀) (hs : Straight h u) :
    Whole (nodes [] root e₀) h (runcmd (.left :: u) left).sites := by
  refine ⟨fun v hv => hs.suffix.trans ((List.suffix_cons ..).trans (suffix_of_mem_sites hv)),
    fun x hx left' right' hList hSuffix w hw hLeft => ?_⟩
  obtain hAbove | hBelow := List.suffix_or_suffix_of_suffix hLeft (suffix_of_mem_sites hw)
  · obtain hEq | hAbove := List.suffix_cons_iff.mp hAbove
    · have hPlace : x.place = u := (List.cons.inj hEq).2
      have hNode : x = ⟨u, .pipe left right, e⟩ := node_eq hx hu hPlace
      rw [hNode] at hList
      cases hList
    · exact absurd hAbove (hs.not_left hSuffix)
  · obtain hEq | hBelow := List.suffix_cons_iff.mp hBelow
    · have hPlace : u = x.place := (List.cons.inj hEq).2
      have hNode : x = ⟨u, .pipe left right, e⟩ := node_eq hx hu hPlace.symm
      rw [hNode] at hList
      cases hList
    · exact sites_right (mem_nodes_of_suffix hl hx hBelow) hList

theorem fits_prepare {c : Code} {a b : Arg} {fd : Nat} (hc : c.Fits (nodes [] root e₀) h 0) :
    (Code.close (.num fd) (.dup a (.close .p0 (.close b c)))).Fits (nodes [] root e₀) h 0 :=
  ⟨hc.whole, hc.whole, hc.whole, hc.whole, hc⟩

theorem fits_waits {left right : Cmd} (hu : ⟨u, .pipe left right, e⟩ ∈ nodes [] root e₀) (t t' : Turn) :
    (Code.wait u (.wait u .exit)).Fits (nodes [] root e₀) h ((t :: u) ::ₘ {t' :: u}) := by
  have hKeeps : ∀ cs : Multiset Place, (∀ x ∈ cs, x = t :: u ∨ x = t' :: u) → Keeps (nodes [] root e₀) cs [] := by
    intro cs hcs x hx left' right' hList hMem
    have hPlace : x.place = u := by
      obtain hEq | hEq := hcs _ hMem
      · exact (List.cons.inj hEq).2
      · exact (List.cons.inj hEq).2
    have hNode : x = ⟨u, .pipe left right, e⟩ := node_eq hx hu hPlace
    rw [hNode] at hList
    cases hList
  have hOne : ∀ t : Turn, (∀ x ∈ ({t :: u} : Multiset Place), x = t :: u) := fun t x hx => Multiset.mem_singleton.mp hx
  have hLast : ∀ v : Turn, v = t ∨ v = t' → (Code.wait u .exit).Fits (nodes [] root e₀) h {v :: u} := by
    intro v hv
    refine ⟨Whole.nil, Multiset.singleton_ne_zero _, hKeeps _ fun x hx => ?_, fun x hx => ⟨Whole.nil, fun y hy => ?_⟩⟩
    · rw [hOne v x hx]
      obtain rfl | rfl := hv
      · exact Or.inl rfl
      · exact Or.inr rfl
    · rw [hOne v x hx, Multiset.erase_singleton] at hy
      exact absurd hy (Multiset.notMem_zero y)
  refine ⟨Whole.nil, Multiset.cons_ne_zero, hKeeps _ fun x hx => ?_, fun x hx => ?_⟩
  · obtain hx | hx := Multiset.mem_cons.mp hx
    · exact Or.inl hx
    · exact Or.inr (hOne t' x hx)
  · by_cases hEq : x = t :: u
    · rw [hEq, Multiset.erase_cons_head]
      exact hLast t' (Or.inr rfl)
    · have hx' : x = t' :: u := by
        obtain hx | hx := Multiset.mem_cons.mp hx
        · exact absurd hx hEq
        · exact hOne t' x hx
      rw [Multiset.erase_cons_tail _ (Ne.symm hEq), hx', Multiset.erase_singleton]
      exact hLast t (Or.inl rfl)

theorem fits_runcmd (hN : nodes u cmd e ⊆ nodes [] root e₀) (hs : Straight h u) : (runcmd u cmd).Fits (nodes [] root e₀) h 0 := by
  induction cmd generalizing u e h with
  | exec argv =>
    have hWhole := whole_runcmd (hN List.mem_cons_self) hs
    cases argv with
    | nil => exact ⟨hWhole, fun x hx => absurd hx (Multiset.notMem_zero x)⟩
    | cons file args => exact ⟨hWhole, fun x hx => absurd hx (Multiset.notMem_zero x), hs⟩
  | redir cmd file mode fd ih =>
    have hSub := ih (List.Subset.trans (List.subset_cons_self ..) hN) (hs.cons (by decide))
    exact ⟨hSub.whole, hSub.whole, fun x hx => absurd hx (Multiset.notMem_zero x), hSub⟩
  | pipe left right ihLeft ihRight =>
    have hu := hN List.mem_cons_self
    have hNodes := List.Subset.trans (List.subset_cons_self ..) hN
    have hLeftNodes := List.Subset.trans (List.subset_append_left ..) hNodes
    have hRightNodes := List.Subset.trans (List.subset_append_right ..) hNodes
    have hLeft := ihLeft hLeftNodes (Straight.refl _)
    have hRight := ihRight hRightNodes (Straight.refl _)
    have hWholeLeft := whole_left hu (hLeftNodes (mem_nodes_self ..)) hs
    have hWholeRight := whole_runcmd (hRightNodes (mem_nodes_self ..)) (hs.cons (by decide))
    have hWaits := fits_waits (h := h) hu .right .left
    refine ⟨whole_runcmd hu hs, fun x hx => absurd hx (Multiset.notMem_zero x), hWholeLeft.append (hWholeRight.append Whole.nil),
      ⟨.left, u, rfl, hs⟩, fits_prepare hLeft, hWholeRight.append Whole.nil, ⟨.right, u, rfl, hs⟩, fits_prepare hRight,
      Whole.nil, Whole.nil, hWaits⟩
  | list left right ihLeft ihRight =>
    have hu := hN List.mem_cons_self
    have hNodes := List.Subset.trans (List.subset_cons_self ..) hN
    have hLeft := ihLeft (List.Subset.trans (List.subset_append_left ..) hNodes) (Straight.refl _)
    have hRight := ihRight (List.Subset.trans (List.subset_append_right ..) hNodes) (hs.cons (by decide))
    refine ⟨whole_runcmd hu hs, ⟨.left, u, rfl, hs⟩, hLeft, hRight.whole, Multiset.cons_ne_zero, ?_, fun x hx => ?_⟩
    · intro x hx left' right' hList hMem v hv
      have hPlace : x.place = u := (List.cons.inj (Multiset.mem_singleton.mp hMem)).2
      have hNode : x = ⟨u, .list left right, e⟩ := node_eq hx hu hPlace
      rw [hNode] at hList hv
      cases hList
      exact hv
    · obtain rfl := Multiset.mem_singleton.mp hx
      rw [Multiset.erase_cons_head]
      exact hRight
  | back cmd ih =>
    have hu := hN List.mem_cons_self
    have hSub := ih (List.Subset.trans (List.subset_cons_self ..) hN) (Straight.refl _)
    refine ⟨whole_runcmd hu hs, ⟨.sub, u, rfl, hs⟩, hSub, Whole.nil, fun x hx => ⟨_, hu, ⟨cmd, rfl⟩, Multiset.mem_singleton.mp hx⟩⟩

/-- Code that still has to wait for the left part of a list has the places of the right part. -/
theorem Code.Fits.keeps {c : Code} {cs : Multiset Place} (hFits : c.Fits (nodes [] root e₀) h cs) :
    Keeps (nodes [] root e₀) cs c.sites := by
  have hBackground : ∀ {cs : Multiset Place} {sites : List Place}, (∀ x ∈ cs, Background (nodes [] root e₀) x) →
      Keeps (nodes [] root e₀) cs sites := by
    intro cs sites hcs x hx left right hList hMem
    obtain ⟨y, -, -, hEq⟩ := hcs _ hMem
    cases hEq
  induction c generalizing h cs with
  | close fd next ih | dup fd next ih => exact ih hFits.2
  | «open» file mode next failed ih => exact hBackground hFits.2.1
  | pipe u next failed ih => exact hBackground hFits.2.1
  | fork home child parent failed ihChild ihParent =>
    intro x hx left right hList hMem v hv
    exact List.mem_append_right _ (ihParent hFits.2.2.2 x hx left right hList (Multiset.mem_cons_of_mem hMem) v hv)
  | wait u next ih => exact hFits.2.2.1
  | exec u argv failed => exact hBackground hFits.2.1
  | print m => exact hBackground hFits.2
  | exit => exact hBackground hFits.2

end Tree

end Xv6Rpi.Shell
