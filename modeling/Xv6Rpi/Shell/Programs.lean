import Mathlib.Data.List.Perm.Basic
import Xv6Rpi.Shell.Descriptors
import Xv6Rpi.Shell.Strings

/-! # The programs of a line

A place of the tree belongs to one process at a time, and what is done there is done once. So each program is started at most once, and
when no call has failed and the processes of the line have ended or become programs, the programs of the line have been started.
-/

namespace Xv6Rpi.Shell

/-- The programs and pipes that a process is still to start or make. -/
def Code.sites : Code → List Place
  | .close _ next | .dup _ next | .open _ _ next _ | .wait _ next => next.sites
  | .pipe u next _ => u :: next.sites
  | .fork _ child parent _ => child.sites ++ parent.sites
  | .exec u _ _ => [u]
  | .print _ | .exit => []

def Proc.sites (q : Proc) : List Place := match q.image with
  | .code c _ => c.sites
  | _ => []

def Sys.sites (s : Sys) (pid : Nat) : List Place := match s.proc pid with
  | some q => q.sites
  | none => []

def Sys.used (s : Sys) : List Place := s.started.map Start.place ++ s.made

/-- What a step does to the places: nothing, one is used, or a new process gets some. -/
inductive Moves (s s' : Sys) : Prop
  | keeps (hSites : ∀ n, s'.sites n = s.sites n) (hUsed : s'.used = s.used)
  | uses (pid : Nat) (u : Place) (hSelf : s.sites pid = u :: s'.sites pid) (hOther : ∀ n ≠ pid, s'.sites n = s.sites n)
      (hUsed : s'.used.Perm (u :: s.used))
  | splits (pid pid' : Nat) (hne : pid ≠ pid') (hNew : s.sites pid' = []) (hSelf : s.sites pid = s'.sites pid' ++ s'.sites pid)
      (hOther : ∀ n, n ≠ pid → n ≠ pid' → s'.sites n = s.sites n) (hUsed : s'.used = s.used)

section Moves

variable {s s' : Sys} {pid : Nat} {q : Proc} {c : Code} {p : Nat × Nat}

theorem sites_code (hProc : s.proc pid = some q) (hImage : q.image = .code c p) : s.sites pid = c.sites := by
  rw [Sys.sites, hProc]
  dsimp only
  rw [Proc.sites, hImage]

theorem sites_set_self (s : Sys) (pid : Nat) (q : Proc) : (s.set pid q).sites pid = q.sites := by rw [Sys.sites, Sys.set_self]

theorem sites_set_of_ne (s : Sys) (q : Proc) {n : Nat} (h : n ≠ pid) : (s.set pid q).sites n = s.sites n := by
  rw [Sys.sites, Sys.set_of_ne _ _ h, Sys.sites]

theorem Moves.of_set {q' : Proc} (hSites : s.sites pid = q'.sites) : Moves s (s.set pid q') := by
  refine .keeps (fun n => ?_) rfl
  by_cases hEq : n = pid
  · rw [hEq, sites_set_self, hSites]
  · exact sites_set_of_ne _ _ hEq

theorem Step.moves (h : Step s s') : Moves s s' := by
  cases h with
  | close hProc hImage | dup hProc hImage | opened hProc hImage | childless hProc hImage | interrupted hProc hImage | print hProc hImage =>
    exact .of_set ((sites_code hProc hImage).trans rfl)
  | exit hProc hImage => exact .of_set ((sites_code hProc hImage).trans rfl)
  | @piped pid r w q u next failed p hProc hImage hRead hWrite =>
    refine .uses pid u ?_ (fun n hn => sites_set_of_ne _ _ hn) List.perm_middle
    rw [sites_set_self, sites_code hProc hImage]
    rfl
  | @forked pid pid' q home child parent failed p hProc hImage hNew =>
    have hne : pid ≠ pid' := by
      rintro rfl
      rw [hProc] at hNew
      cases hNew
    refine .splits pid pid' hne ?_ ?_ (fun n hn hn' => ?_) rfl
    · rw [Sys.sites, hNew]
    · rw [sites_set_self, sites_set_of_ne _ _ hne, sites_set_self, sites_code hProc hImage]
      rfl
    · rw [sites_set_of_ne _ _ hn', sites_set_of_ne _ _ hn]
  | @reaped pid pid' q q' u next p hProc hImage hChild hProc' hZombie =>
    refine .keeps (fun n => ?_) rfl
    by_cases hEq : n = pid
    · rw [hEq, sites_set_self, sites_code hProc hImage]
      rfl
    · rw [sites_set_of_ne _ _ hEq]
      by_cases hEq' : n = pid'
      · rw [hEq', Sys.sites, Sys.drop_self, Sys.sites, hProc']
        dsimp only
        rw [Proc.sites, hZombie]
      · rw [Sys.sites, Sys.drop_of_ne _ hEq', Sys.sites]
  | @started pid q u argv failed p hProc hImage =>
    refine .uses pid u ?_ (fun n hn => sites_set_of_ne _ _ hn) (.refl _)
    rw [sites_set_self, sites_code hProc hImage]
    rfl
  | @work pid q u fds hProc hImage =>
    refine .of_set ?_
    rw [Sys.sites, hProc]
    dsimp only
    rw [Proc.sites, hImage, Proc.sites]
  | @ended pid q u hProc hImage =>
    refine .of_set ?_
    rw [Sys.sites, hProc]
    dsimp only
    rw [Proc.sites, hImage]
    rfl

theorem Kill.moves (h : Kill s s') : Moves s s' := by
  obtain ⟨hProc⟩ := h
  refine .of_set ?_
  rw [Sys.sites, hProc]
  rfl

end Moves

structure Linear (s : Sys) : Prop where
  nodup : ∀ pid, (s.sites pid).Nodup
  apart : ∀ pid pid' u, u ∈ s.sites pid → u ∈ s.sites pid' → pid = pid'
  unused : ∀ pid, ∀ u ∈ s.sites pid, u ∉ s.used
  once : s.used.Nodup

section Linear

variable {s s' : Sys} {m : Message}

theorem Linear.moves (h : Linear s) (hMoves : Moves s s') : Linear s' := by
  cases hMoves with
  | keeps hSites hUsed =>
    refine ⟨fun n => ?_, fun n n' u hu hu' => ?_, fun n u hu => ?_, ?_⟩
    · rw [hSites]
      exact h.nodup n
    · rw [hSites] at hu hu'
      exact h.apart n n' u hu hu'
    · rw [hSites] at hu
      rw [hUsed]
      exact h.unused n u hu
    · rw [hUsed]
      exact h.once
  | uses pid u hSelf hOther hUsed =>
    have hNodup := h.nodup pid
    rw [hSelf, List.nodup_cons] at hNodup
    have hSub : ∀ n, ∀ v ∈ s'.sites n, v ∈ s.sites n ∧ v ≠ u := fun n v hv => by
      by_cases hEq : n = pid
      · subst hEq
        exact ⟨hSelf ▸ List.mem_cons_of_mem _ hv, fun hvu => hNodup.1 (hvu ▸ hv)⟩
      · rw [hOther n hEq] at hv
        exact ⟨hv, fun hvu => hEq (h.apart n pid u (hvu ▸ hv) (hSelf ▸ List.mem_cons_self))⟩
    refine ⟨fun n => ?_, fun n n' v hv hv' => h.apart n n' v (hSub n v hv).1 (hSub n' v hv').1, fun n v hv => ?_, ?_⟩
    · by_cases hEq : n = pid
      · rw [hEq]
        exact hNodup.2
      · rw [hOther n hEq]
        exact h.nodup n
    · obtain ⟨hOld, hne⟩ := hSub n v hv
      rw [hUsed.mem_iff, List.mem_cons]
      exact not_or.mpr ⟨hne, h.unused n v hOld⟩
    · rw [hUsed.nodup_iff, List.nodup_cons]
      exact ⟨h.unused pid u (hSelf ▸ List.mem_cons_self), h.once⟩
  | splits pid pid' hne hNew hSelf hOther hUsed =>
    have hNodup := h.nodup pid
    rw [hSelf] at hNodup
    have hDisjoint := List.disjoint_of_nodup_append hNodup
    have hSub : ∀ n, ∀ v ∈ s'.sites n, v ∈ s.sites (if n = pid' then pid else n) := fun n v hv => by
      by_cases hEq' : n = pid'
      · rw [if_pos hEq', hSelf]
        exact List.mem_append_left _ (hEq' ▸ hv)
      · rw [if_neg hEq']
        by_cases hEq : n = pid
        · subst hEq
          rw [hSelf]
          exact List.mem_append_right _ hv
        · rwa [hOther n hEq hEq'] at hv
    refine ⟨fun n => ?_, fun n n' v hv hv' => ?_, fun n v hv => ?_, ?_⟩
    · by_cases hEq : n = pid
      · rw [hEq]
        exact hNodup.of_append_right
      · by_cases hEq' : n = pid'
        · rw [hEq']
          exact hNodup.of_append_left
        · rw [hOther n hEq hEq']
          exact h.nodup n
    · have hSame := h.apart _ _ v (hSub n v hv) (hSub n' v hv')
      by_cases hn : n = pid'
      · by_cases hn' : n' = pid'
        · rw [hn, hn']
        · rw [if_pos hn, if_neg hn'] at hSame
          exact absurd (hSame ▸ hv') (hDisjoint (hn ▸ hv))
      · by_cases hn' : n' = pid'
        · rw [if_neg hn, if_pos hn'] at hSame
          exact absurd (hSame ▸ hv) (hDisjoint (hn' ▸ hv'))
        · rwa [if_neg hn, if_neg hn'] at hSame
    · rw [hUsed]
      exact h.unused _ v (hSub n v hv)
    · rw [hUsed]
      exact h.once

theorem Linear.fails (h : Linear s) (hFails : Fails s s' ∨ ForkFails s s') : Linear s' := by
  have hSet : ∀ (pid : Nat) (q : Proc) (m : Message) (p : Nat × Nat), Linear (s.set pid (q.goOn (.print m) p q.fds)) := fun pid q m p => by
    have hNone : (s.set pid (q.goOn (.print m) p q.fds)).sites pid = [] := by
      rw [sites_set_self]
      rfl
    have hSub : ∀ n, ∀ v ∈ (s.set pid (q.goOn (.print m) p q.fds)).sites n, v ∈ s.sites n := fun n v hv => by
      by_cases hEq : n = pid
      · rw [hEq, hNone] at hv
        exact absurd hv List.not_mem_nil
      · rwa [sites_set_of_ne _ _ hEq] at hv
    refine ⟨fun n => ?_, fun n n' v hv hv' => h.apart n n' v (hSub n v hv) (hSub n' v hv'), fun n v hv => h.unused n v (hSub n v hv), h.once⟩
    by_cases hEq : n = pid
    · rw [hEq, hNone]
      exact List.nodup_nil
    · rw [sites_set_of_ne _ _ hEq]
      exact h.nodup n
  rcases hFails with ⟨_, _, _⟩ | ⟨_, _⟩
  · exact hSet ..
  · exact hSet ..

theorem Linear.runs (h : Linear s) (hRuns : Runs s s') : Linear s' := by
  induction hRuns with
  | refl => exact h
  | tail _ hStep ih =>
    obtain hStep | hFails | hFails | hKill := hStep
    · exact ih.moves hStep.moves
    · exact ih.fails (Or.inl hFails)
    · exact ih.fails (Or.inr hFails)
    · exact ih.moves hKill.moves

end Linear

section Places

variable {u : Place} {cmd : Cmd} {e : Env}

theorem suffix_of_mem_sites {v : Place} (h : v ∈ (runcmd u cmd).sites) : u <:+ v := by
  induction cmd generalizing u with
  | exec argv =>
    cases argv with
    | nil => exact absurd h List.not_mem_nil
    | cons file args =>
      rw [List.mem_singleton.mp h]
  | redir cmd file mode fd ih => exact (List.suffix_cons ..).trans (ih h)
  | pipe left right ihLeft ihRight =>
    obtain rfl | h := List.mem_cons.mp h
    · exact List.suffix_rfl
    · obtain h | h := List.mem_append.mp h
      · exact (List.suffix_cons ..).trans (ihLeft h)
      · obtain h | h := List.mem_append.mp h
        · exact (List.suffix_cons ..).trans (ihRight h)
        · exact absurd h List.not_mem_nil
  | list left right ihLeft ihRight =>
    obtain h | h := List.mem_append.mp h
    · exact (List.suffix_cons ..).trans (ihLeft h)
    · exact (List.suffix_cons ..).trans (ihRight h)
  | back cmd ih =>
    obtain h | h := List.mem_append.mp h
    · exact (List.suffix_cons ..).trans (ih h)
    · exact absurd h List.not_mem_nil

theorem turn_unique {t t' : Turn} {v : Place} (h : t :: u <:+ v) (h' : t' :: u <:+ v) : t = t' := by
  obtain hSuffix | hSuffix := List.suffix_or_suffix_of_suffix h h'
  · exact (List.cons.inj (hSuffix.eq_of_length rfl)).1
  · exact (List.cons.inj (hSuffix.eq_of_length rfl)).1.symm

theorem not_cons_suffix {t : Turn} : ¬t :: u <:+ u := fun h => by
  have := h.length_le
  rw [List.length_cons] at this
  omega

theorem nodup_fork {l r : List Place} (hl : ∀ v ∈ l, .left :: u <:+ v) (hr : ∀ v ∈ r, .right :: u <:+ v) (hLeft : l.Nodup)
    (hRight : r.Nodup) : (u :: (l ++ r)).Nodup := by
  rw [List.nodup_cons]
  refine ⟨fun hu => ?_, hLeft.append hRight fun v hvl hvr => ?_⟩
  · obtain hu | hu := List.mem_append.mp hu
    · exact not_cons_suffix (hl u hu)
    · exact not_cons_suffix (hr u hu)
  · cases turn_unique (hl v hvl) (hr v hvr)

theorem nodup_sites : (runcmd u cmd).sites.Nodup := by
  induction cmd generalizing u with
  | exec argv =>
    cases argv with
    | nil => exact List.nodup_nil
    | cons file args => exact List.nodup_singleton u
  | redir cmd file mode fd ih => exact ih
  | pipe left right ihLeft ihRight =>
    have hSites : (runcmd u (.pipe left right)).sites =
        u :: ((runcmd (.left :: u) left).sites ++ (runcmd (.right :: u) right).sites) := by
      conv_rhs => rw [← List.append_nil (runcmd (.right :: u) right).sites]
      rfl
    rw [hSites]
    exact nodup_fork (fun v hv => suffix_of_mem_sites hv) (fun v hv => suffix_of_mem_sites hv) ihLeft ihRight
  | list left right ihLeft ihRight =>
    refine ihLeft.append ihRight fun v hl hr => ?_
    cases turn_unique (suffix_of_mem_sites hl) (suffix_of_mem_sites hr)
  | back cmd ih =>
    change ((runcmd (.sub :: u) cmd).sites ++ []).Nodup
    rw [List.append_nil]
    exact ih

theorem suffix_of_mem_nodes {x : Node} (h : x ∈ nodes u cmd e) : u <:+ x.place := by
  induction cmd generalizing u e with
  | exec argv =>
    rw [List.mem_singleton.mp h]
  | redir cmd file mode fd ih =>
    obtain rfl | h := List.mem_cons.mp h
    · exact List.suffix_rfl
    · exact (List.suffix_cons ..).trans (ih h)
  | pipe left right ihLeft ihRight | list left right ihLeft ihRight =>
    obtain rfl | h := List.mem_cons.mp h
    · exact List.suffix_rfl
    · obtain h | h := List.mem_append.mp h
      · exact (List.suffix_cons ..).trans (ihLeft h)
      · exact (List.suffix_cons ..).trans (ihRight h)
  | back cmd ih =>
    obtain rfl | h := List.mem_cons.mp h
    · exact List.suffix_rfl
    · exact (List.suffix_cons ..).trans (ih h)

theorem suffix_of_mem_places {v : Place} (h : v ∈ (nodes u cmd e).map Node.place) : u <:+ v := by
  obtain ⟨x, hx, rfl⟩ := List.mem_map.mp h
  exact suffix_of_mem_nodes hx

theorem nodup_places : ((nodes u cmd e).map Node.place).Nodup := by
  induction cmd generalizing u e with
  | exec argv => exact List.nodup_singleton u
  | redir cmd file mode fd ih => exact List.nodup_cons.mpr ⟨fun hu => not_cons_suffix (suffix_of_mem_places hu), ih⟩
  | pipe left right ihLeft ihRight | list left right ihLeft ihRight =>
    simp only [nodes, List.map_cons, List.map_append]
    exact nodup_fork (fun v hv => suffix_of_mem_places hv) (fun v hv => suffix_of_mem_places hv) ihLeft ihRight
  | back cmd ih => exact List.nodup_cons.mpr ⟨fun hu => not_cons_suffix (suffix_of_mem_places hu), ih⟩

theorem node_eq {x y : Node} (hx : x ∈ nodes u cmd e) (hy : y ∈ nodes u cmd e) (hEq : x.place = y.place) : x = y :=
  List.inj_on_of_nodup_map nodup_places hx hy hEq

def programs (N : List Node) : List Start := N.filterMap fun x => match x.cmd with
  | .exec (file :: args) => some ⟨x.place, file :: args, x.env.fds⟩
  | _ => none

theorem mem_programs {N : List Node} {st : Start} :
    st ∈ programs N ↔ st.argv ≠ [] ∧ ∃ x ∈ N, x.place = st.place ∧ x.cmd = .exec st.argv ∧ st.fds = x.env.fds := by
  rw [programs, List.mem_filterMap]
  constructor
  · rintro ⟨x, hx, hStart⟩
    split at hStart
    · next file args hCmd =>
      obtain rfl := Option.some.inj hStart
      exact ⟨List.cons_ne_nil _ _, x, hx, rfl, hCmd, rfl⟩
    · cases hStart
  · rintro ⟨hArgv, x, hx, hPlace, hCmd, hFds⟩
    obtain ⟨place, argv, fds⟩ := st
    cases argv with
    | nil => exact absurd rfl hArgv
    | cons file args =>
      dsimp only at hPlace hCmd hFds
      refine ⟨x, hx, ?_⟩
      rw [hCmd, hPlace, hFds]

theorem fds_injective : Function.Injective Env.fds := fun e e' h => by
  obtain ⟨input, output, errors⟩ := e
  obtain ⟨input', output', errors'⟩ := e'
  cases congrFun h 0
  cases congrFun h 1
  cases congrFun h 2
  rfl

theorem nodup_programs {N : List Node} (h : N.Nodup) : (programs N).Nodup := by
  refine h.filterMap fun x y st hx hy => ?_
  obtain ⟨place, cmd, e⟩ := x
  obtain ⟨place', cmd', e'⟩ := y
  dsimp only at hx hy
  split at hx
  · split at hy
    · obtain rfl := Option.some.inj hx
      obtain ⟨rfl, hArgv, hFds⟩ := Start.mk.inj (Option.some.inj hy)
      obtain ⟨rfl, rfl⟩ := List.cons.inj hArgv
      rw [fds_injective hFds]
    · cases hy
  · cases hx

theorem mem_sites_of_exec {x : Node} {argv : List Span} (hx : x ∈ nodes u cmd e) (hCmd : x.cmd = .exec argv) (hArgv : argv ≠ []) :
    x.place ∈ (runcmd u cmd).sites := by
  induction cmd generalizing u e with
  | exec argv' =>
    obtain rfl := List.mem_singleton.mp hx
    obtain rfl := Cmd.exec.inj hCmd
    cases argv' with
    | nil => exact absurd rfl hArgv
    | cons file args => exact List.mem_singleton.mpr rfl
  | redir cmd file mode fd ih =>
    obtain rfl | hx := List.mem_cons.mp hx
    · cases hCmd
    · exact ih hx
  | pipe left right ihLeft ihRight =>
    obtain rfl | hx := List.mem_cons.mp hx
    · cases hCmd
    · refine List.mem_cons_of_mem _ ?_
      obtain hx | hx := List.mem_append.mp hx
      · exact List.mem_append_left _ (ihLeft hx)
      · exact List.mem_append_right _ (List.mem_append_left _ (ihRight hx))
  | list left right ihLeft ihRight =>
    obtain rfl | hx := List.mem_cons.mp hx
    · cases hCmd
    · obtain hx | hx := List.mem_append.mp hx
      · exact List.mem_append_left _ (ihLeft hx)
      · exact List.mem_append_right _ (ihRight hx)
  | back cmd ih =>
    obtain rfl | hx := List.mem_cons.mp hx
    · cases hCmd
    · exact List.mem_append_left _ (ih hx)

/-- The ends of a pipe are the output of its left part and the input of its right part. -/
structure Env.EndsAt (e : Env) (v : Place) : Prop where
  write : ∀ fd w, e.fds fd = some (.writeEnd w) → fd = 1 ∧ .left :: w <:+ v
  read : ∀ fd w, e.fds fd = some (.readEnd w) → fd = 0 ∧ .right :: w <:+ v

theorem Env.EndsAt.below (h : e.EndsAt u) (t : Turn) : e.EndsAt (t :: u) where
  write fd w hw := ⟨(h.write fd w hw).1, (h.write fd w hw).2.trans (List.suffix_cons ..)⟩
  read fd w hw := ⟨(h.read fd w hw).1, (h.read fd w hw).2.trans (List.suffix_cons ..)⟩

theorem Env.EndsAt.change {e' : Env} (h : e.EndsAt u) (hFds : ∀ fd, e'.fds fd = e.fds fd ∨
    (∃ name mode, e'.fds fd = some (.file name mode)) ∨ (fd = 1 ∧ ∃ w, e'.fds fd = some (.writeEnd w) ∧ .left :: w <:+ u) ∨
      fd = 0 ∧ ∃ w, e'.fds fd = some (.readEnd w) ∧ .right :: w <:+ u) : e'.EndsAt u where
  write fd w hw := by
    obtain hSame | ⟨name, mode, hFile⟩ | ⟨hFd, w', hWrite, hSuffix⟩ | ⟨hFd, w', hRead, hSuffix⟩ := hFds fd
    · exact h.write fd w (hSame ▸ hw)
    · cases hw.symm.trans hFile
    · cases hw.symm.trans hWrite
      exact ⟨hFd, hSuffix⟩
    · cases hw.symm.trans hRead
  read fd w hw := by
    obtain hSame | ⟨name, mode, hFile⟩ | ⟨hFd, w', hWrite, hSuffix⟩ | ⟨hFd, w', hRead, hSuffix⟩ := hFds fd
    · exact h.read fd w (hSame ▸ hw)
    · cases hw.symm.trans hFile
    · cases hw.symm.trans hWrite
    · cases hw.symm.trans hRead
      exact ⟨hFd, hSuffix⟩

theorem Env.EndsAt.set (h : e.EndsAt u) {fd : Nat} (hFd : fd < 3) (file : Span) (mode : Nat) : (e.set fd (.file file mode)).EndsAt u := by
  refine h.change fun n => ?_
  rw [← update_close e hFd, Function.update_idem]
  by_cases hEq : n = fd
  · rw [hEq, Function.update_self]
    exact Or.inr (Or.inl ⟨file, mode, rfl⟩)
  · rw [Function.update_of_ne hEq]
    exact Or.inl rfl

theorem Env.EndsAt.left (h : e.EndsAt u) : { e with output := .writeEnd u : Env }.EndsAt (.left :: u) := by
  refine (h.below .left).change fun n => ?_
  match n with
  | 0 | 2 | _ + 3 => exact Or.inl rfl
  | 1 => exact Or.inr (Or.inr (Or.inl ⟨rfl, u, rfl, List.suffix_rfl⟩))

theorem Env.EndsAt.right (h : e.EndsAt u) : { e with input := .readEnd u : Env }.EndsAt (.right :: u) := by
  refine (h.below .right).change fun n => ?_
  match n with
  | 1 | 2 | _ + 3 => exact Or.inl rfl
  | 0 => exact Or.inr (Or.inr (Or.inr ⟨rfl, u, rfl, List.suffix_rfl⟩))

theorem endsAt_of_mem_nodes (hStandard : cmd.Standard) (hEnds : e.EndsAt u) {x : Node} (hx : x ∈ nodes u cmd e) :
    x.env.EndsAt x.place := by
  induction cmd generalizing u e with
  | exec argv =>
    rw [List.mem_singleton.mp hx]
    exact hEnds
  | redir cmd file mode fd ih =>
    obtain rfl | hx := List.mem_cons.mp hx
    · exact hEnds
    · exact ih hStandard.2 ((hEnds.set hStandard.1 file mode).below .sub) hx
  | pipe left right ihLeft ihRight =>
    obtain rfl | hx := List.mem_cons.mp hx
    · exact hEnds
    · obtain hx | hx := List.mem_append.mp hx
      · exact ihLeft hStandard.1 hEnds.left hx
      · exact ihRight hStandard.2 hEnds.right hx
  | list left right ihLeft ihRight =>
    obtain rfl | hx := List.mem_cons.mp hx
    · exact hEnds
    · obtain hx | hx := List.mem_append.mp hx
      · exact ihLeft hStandard.1 (hEnds.below .left) hx
      · exact ihRight hStandard.2 (hEnds.below .right) hx
  | back cmd ih =>
    obtain rfl | hx := List.mem_cons.mp hx
    · exact hEnds
    · exact ih hStandard (hEnds.below .sub) hx

end Places

section Parser

theorem standard_redircmd {cmd : Cmd} (h : cmd.Standard) (tok : UInt8) (file : Span) : (redircmd cmd tok file).Standard := by
  simp only [redircmd]
  split
  · exact ⟨by decide, h⟩
  · split
    · exact ⟨by decide, h⟩
    · split
      · exact ⟨by decide, h⟩
      · exact h

theorem standard_addArg {cmd : Cmd} (h : cmd.Standard) (a : Span) : (cmd.addArg a).Standard := by
  induction cmd with
  | exec argv => trivial
  | redir cmd file mode fd ih => exact ⟨h.1, ih h.2⟩
  | pipe left right _ _ => exact h
  | list left right _ _ => exact h
  | back cmd _ => exact h

theorem Redirs.standard {ts : List Token} {cmd cmd' : Cmd} (h : Redirs ts cmd cmd') (hCmd : cmd.Standard) : cmd'.Standard := by
  induction h with
  | nil => exact hCmd
  | cons _ _ _ ih => exact ih (standard_redircmd hCmd ..)

theorem Args.standard {ts : List Token} {cmd cmd' : Cmd} (h : Args ts cmd cmd') (hCmd : cmd.Standard) : cmd'.Standard := by
  induction h with
  | nil => exact hCmd
  | cons _ hRedirs _ ih => exact ih (hRedirs.standard (standard_addArg hCmd _))

theorem Backs.standard {ts : List Token} {cmd cmd' : Cmd} (h : Backs ts cmd cmd') (hCmd : cmd.Standard) : cmd'.Standard := by
  induction h with
  | nil => exact hCmd
  | cons _ _ ih => exact ih hCmd

theorem Derives.standard {N : Nonterminal} {ts : List Token} {cmd : Cmd} (h : Derives N ts cmd) : cmd.Standard := by
  induction h with
  | line _ hBacks ih => exact hBacks.standard ih
  | list _ hBacks _ _ ihPipe ihLine => exact ⟨hBacks.standard ihPipe, ihLine⟩
  | command _ ih => exact ih
  | pipe _ _ _ ihExec ihPipe => exact ⟨ihExec, ihPipe⟩
  | block _ _ _ hRedirs ih => exact hRedirs.standard ih
  | exec hRedirs hArgs => exact hArgs.standard (hRedirs.standard trivial)

end Parser

/-! ## Whole runs -/

/-- The places of the code are used, or some process still has them. -/
def Covered (l : List Place) (s : Sys) : Prop := ∀ v ∈ l, v ∈ s.used ∨ ∃ pid, v ∈ s.sites pid

/-- No process of the line is left that still has calls to make. -/
def Finished (s : Sys) : Prop := ∀ pid q c p, s.proc pid = some q → q.image ≠ .code c p

/-- Runs in which no call fails but a `wait` of a killed process. -/
abbrev Succeeding : Sys → Sys → Prop := Relation.ReflTransGen fun s s' => Step s s' ∨ Kill s s'

theorem Succeeding.runs {s s' : Sys} (h : Succeeding s s') : Runs s s' :=
  Relation.ReflTransGen.mono (fun _ _ => Or.imp_right fun hKill => Or.inr (Or.inr hKill)) _ _ h

/-- What holds of the processes of a line at any time. -/
structure WellPlaced (cmd : Cmd) (e : Env) (s : Sys) : Prop where
  started : ∀ st ∈ s.started, st ∈ programs (nodes [] cmd e)
  once : (s.started.map Start.place).Nodup
  pipes : s.made.Nodup
  waits : ∀ pid q u c p, s.proc pid = some q → q.image = .code (.wait u c) p → ∃ x ∈ nodes [] cmd e, x.place = u ∧ q.fds = x.env.fds
  ends : ∀ x ∈ nodes [] cmd e, x.env.EndsAt x.place

section Runs

variable {cmd : Cmd} {e : Env} {s s' : Sys} {l : List Place}

theorem Covered.moves (h : Covered l s) (hMoves : Moves s s') : Covered l s' := by
  intro v hv
  cases hMoves with
  | keeps hSites hUsed =>
    rw [hUsed]
    obtain hOld | ⟨n, hn⟩ := h v hv
    · exact Or.inl hOld
    · exact Or.inr ⟨n, hSites n ▸ hn⟩
  | uses pid u hSelf hOther hUsed =>
    rw [hUsed.mem_iff, List.mem_cons]
    obtain hOld | ⟨n, hn⟩ := h v hv
    · exact Or.inl (Or.inr hOld)
    · by_cases hEq : n = pid
      · rw [hEq, hSelf, List.mem_cons] at hn
        obtain hn | hn := hn
        · exact Or.inl (Or.inl hn)
        · exact Or.inr ⟨pid, hn⟩
      · exact Or.inr ⟨n, hOther n hEq ▸ hn⟩
  | splits pid pid' hne hNew hSelf hOther hUsed =>
    rw [hUsed]
    obtain hOld | ⟨n, hn⟩ := h v hv
    · exact Or.inl hOld
    · refine Or.inr ?_
      by_cases hEq : n = pid
      · rw [hEq, hSelf, List.mem_append] at hn
        obtain hn | hn := hn
        · exact ⟨pid', hn⟩
        · exact ⟨pid, hn⟩
      · by_cases hEq' : n = pid'
        · rw [hEq', hNew] at hn
          exact absurd hn List.not_mem_nil
        · exact ⟨n, hOther n hEq hEq' ▸ hn⟩

theorem sites_start (pid : Nat) (fds : Fds) : (Sys.start cmd fds).sites pid = if pid = 0 then (runcmd [] cmd).sites else [] := by
  by_cases hEq : pid = 0
  · rw [if_pos hEq, Sys.sites, Sys.start]
    dsimp only
    rw [if_pos hEq]
    rfl
  · rw [if_neg hEq, Sys.sites, Sys.start]
    dsimp only
    rw [if_neg hEq]

theorem linear_start (cmd : Cmd) (fds : Fds) : Linear (Sys.start cmd fds) := by
  refine ⟨fun pid => ?_, fun pid pid' v hv hv' => ?_, fun _ _ _ => List.not_mem_nil, List.nodup_nil⟩
  · rw [sites_start]
    split
    · exact nodup_sites
    · exact List.nodup_nil
  · rw [sites_start] at hv hv'
    split at hv
    · split at hv'
      · next h h' => rw [h, h']
      · exact absurd hv' List.not_mem_nil
    · exact absurd hv List.not_mem_nil

theorem covered_of_steps {fds : Fds} (hSteps : Succeeding (Sys.start cmd fds) s) : Covered (runcmd [] cmd).sites s := by
  induction hSteps with
  | refl =>
    refine fun v hv => Or.inr ⟨0, ?_⟩
    rw [sites_start, if_pos rfl]
    exact hv
  | tail _ hStep ih =>
    obtain hStep | hKill := hStep
    · exact ih.moves hStep.moves
    · exact ih.moves hKill.moves

theorem sites_of_finished (h : Finished s) (pid : Nat) : s.sites pid = [] := by
  rw [Sys.sites]
  cases hProc : s.proc pid with
  | none => rfl
  | some q =>
    dsimp only
    rw [Proc.sites]
    cases hImage : q.image with
    | code c p => exact absurd hImage (h pid q c p hProc)
    | prog u => rfl
    | zombie => rfl

theorem wellPlaced_runs (hStandard : cmd.Standard) (hOuter : e.EndsAt []) (hRuns : Runs (Sys.start cmd e.fds) s) : WellPlaced cmd e s := by
  have hPlace := (inPlace_start (e := e) hStandard).runs hRuns
  have hOnce := ((linear_start cmd e.fds).runs hRuns).once
  refine ⟨fun st hst => mem_programs.mpr (hPlace.started st hst), hOnce.of_append_left, hOnce.of_append_right,
    fun pid q u c p hProc hImage => (hPlace.code pid q _ p hProc hImage).1, fun x hx => endsAt_of_mem_nodes hStandard hOuter hx⟩

/-- If no call has failed, exactly the programs of the line have been started at the end. -/
theorem started_perm (hStandard : cmd.Standard) (hSteps : Succeeding (Sys.start cmd e.fds) s) (hEnd : Finished s) :
    s.started.Perm (programs (nodes [] cmd e)) := by
  have hRuns : Runs (Sys.start cmd e.fds) s := hSteps.runs
  have hPlace := (inPlace_start (e := e) hStandard).runs hRuns
  have hOnce := ((linear_start cmd e.fds).runs hRuns).once
  have hPrograms : (programs (nodes [] cmd e)).Nodup := nodup_programs (.of_map _ nodup_places)
  refine (List.perm_ext_iff_of_nodup (.of_map _ hOnce.of_append_left) hPrograms).mpr fun st =>
    ⟨fun hst => mem_programs.mpr (hPlace.started st hst), fun hst => ?_⟩
  obtain ⟨hArgv, x, hx, hxPlace, hCmd, hFds⟩ := mem_programs.mp hst
  have hSite := mem_sites_of_exec hx hCmd hArgv
  obtain hUsed | ⟨pid, hPid⟩ := covered_of_steps hSteps x.place hSite
  · obtain hStarted | hMade := List.mem_append.mp hUsed
    · obtain ⟨st', hst', hEq⟩ := List.mem_map.mp hStarted
      obtain ⟨-, y, hy, hyPlace, hCmd', hFds'⟩ := hPlace.started st' hst'
      obtain rfl := node_eq hx hy (hEq.symm.trans hyPlace.symm)
      have hSame : st = st' := by
        obtain ⟨place, argv, fds⟩ := st
        obtain ⟨place', argv', fds'⟩ := st'
        obtain rfl : argv = argv' := Cmd.exec.inj (hCmd.symm.trans hCmd')
        dsimp only at hxPlace hyPlace hFds hFds'
        rw [← hxPlace, ← hyPlace, hFds, hFds']
      rw [hSame]
      exact hst'
    · obtain ⟨y, hy, hyPlace, left, right, hPipe⟩ := hPlace.made x.place hMade
      obtain rfl := node_eq hx hy hyPlace.symm
      cases hCmd.symm.trans hPipe
  · rw [sites_of_finished hEnd] at hPid
    exact absurd hPid List.not_mem_nil

/-- The processes of a line that the shell has read, when the shell was started without any descriptor above 2. -/
theorem line_programs (line : List UInt8) (mem : Nat → UInt8) (hParse : parsecmd line = .ok (cmd, mem)) (fds : Fds)
    (hLow : ∀ fd, 3 ≤ fd → fds fd = none) (hOuter : ∀ fd w, fds fd ≠ some (.writeEnd w) ∧ fds fd ≠ some (.readEnd w))
    (hRuns : Runs (Sys.start cmd (openConsole 4 fds)) s) :
    ∃ e, openConsole 4 fds = e.fds ∧ WellPlaced cmd e s ∧
      (Succeeding (Sys.start cmd (openConsole 4 fds)) s → Finished s → s.started.Perm (programs (nodes [] cmd e))) := by
  have hStandard : cmd.Standard := ((parsecmd_eq_ok_iff line cmd mem).mp hParse).1.1.standard
  have hTable : fds = table (fds 0) (fds 1) (fds 2) := by
    funext n
    match n with
    | 0 | 1 | 2 => rfl
    | n + 3 => exact hLow (n + 3) (Nat.le_add_left ..)
  have hOpen := openConsole_table (fds 0) (fds 1) (fds 2)
  rw [← hTable] at hOpen
  rw [hOpen] at hRuns ⊢
  refine ⟨_, rfl, wellPlaced_runs hStandard ?_ hRuns, started_perm hStandard⟩
  have hGiven : ∀ fd w, (Env.mk ((fds 0).getD .console) ((fds 1).getD .console) ((fds 2).getD .console)).fds fd ≠ some (.writeEnd w) ∧
      (Env.mk ((fds 0).getD .console) ((fds 1).getD .console) ((fds 2).getD .console)).fds fd ≠ some (.readEnd w) := fun fd w => by
    have hGet : ∀ n, some ((fds n).getD Handle.console) ≠ some (.writeEnd w) ∧
        some ((fds n).getD Handle.console) ≠ some (.readEnd w) := fun n => by
      have hNe := hOuter n w
      cases hFd : fds n with
      | none => exact ⟨nofun, nofun⟩
      | some h =>
        rw [hFd] at hNe
        exact hNe
    match fd with
    | 0 => exact hGet 0
    | 1 => exact hGet 1
    | 2 => exact hGet 2
    | _ + 3 => exact ⟨nofun, nofun⟩
  exact ⟨fun fd w hw => absurd hw (hGiven fd w).1, fun fd w hw => absurd hw (hGiven fd w).2⟩

end Runs

section Example

def aToB : List UInt8 := [97, 124, 98]

def aToBCmd : Cmd := .pipe (.exec [⟨aToB, [124, 98]⟩]) (.exec [⟨[98], []⟩])

/-- The second program is started first; both end, and their parent reaps them. -/
def aToBTurns : List (Nat × Nat) :=
  [(0, 0), (0, 1), (0, 2), (2, 0), (2, 0), (2, 0), (2, 0), (2, 0), (1, 0), (1, 0), (1, 0), (1, 0), (1, 0), (0, 0), (0, 0), (2, 0),
    (0, 2), (1, 0), (0, 1), (0, 0)]

theorem line_programs_aToB : ∃ s e, play (Sys.start aToBCmd (openConsole 4 fun _ => none)) aToBTurns = some s ∧
    WellPlaced aToBCmd e s ∧ s.started.Perm (programs (nodes [] aToBCmd e)) := by
  obtain ⟨mem, hParse⟩ : ∃ mem, parsecmd aToB = .ok (aToBCmd, mem) := ⟨_, rfl⟩
  obtain ⟨s, hPlay⟩ : ∃ s, play (Sys.start aToBCmd (openConsole 4 fun _ => none)) aToBTurns = some s := ⟨_, rfl⟩
  have hSteps : Succeeding (Sys.start aToBCmd (openConsole 4 fun _ => none)) s :=
    Relation.ReflTransGen.mono (fun _ _ => Or.inl) _ _ (steps_of_play hPlay)
  obtain ⟨e, -, hPlaced, hStarted⟩ := line_programs aToB mem hParse _ (fun _ _ => rfl) (fun _ _ => ⟨nofun, nofun⟩) hSteps.runs
  refine ⟨s, e, hPlay, hPlaced, hStarted hSteps fun pid q c p hProc hImage => ?_⟩
  cases hPlay
  match pid with
  | 0 =>
    cases hProc
    cases hImage
  | 1 | 2 | _ + 3 => cases hProc

end Example

end Xv6Rpi.Shell
