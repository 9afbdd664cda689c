import Xv6Rpi.Shell.Runcmd

/-! # The descriptors of the programs

Every program of a line is started with the descriptors 0, 1 and 2 and no other one: they are what its place in the tree says,
whichever calls fail and in whatever order the processes take their turns.
-/

namespace Xv6Rpi.Shell

structure Env where
  input : Handle
  output : Handle
  errors : Handle

def Env.fds (e : Env) : Fds
  | 0 => some e.input
  | 1 => some e.output
  | 2 => some e.errors
  | _ => none

def Env.set (e : Env) (fd : Nat) (h : Handle) : Env :=
  if fd = 0 then { e with input := h } else if fd = 1 then { e with output := h } else { e with errors := h }

structure Node where
  place : Place
  cmd : Cmd
  env : Env

def nodes (u : Place) (cmd : Cmd) (e : Env) : List Node :=
  ⟨u, cmd, e⟩ :: match cmd with
    | .exec _ => []
    | .redir cmd file mode fd => nodes (.sub :: u) cmd (e.set fd (.file file mode))
    | .pipe left right =>
      nodes (.left :: u) left { e with output := .writeEnd u } ++ nodes (.right :: u) right { e with input := .readEnd u }
    | .list left right => nodes (.left :: u) left e ++ nodes (.right :: u) right e
    | .back cmd => nodes (.sub :: u) cmd e

def Cmd.Standard : Cmd → Prop
  | .exec _ => True
  | .redir cmd _ _ fd => fd < 3 ∧ cmd.Standard
  | .pipe left right | .list left right => left.Standard ∧ right.Standard
  | .back cmd => cmd.Standard

/-- Whatever happens, each program and each `wait` of the code has the descriptors of its place. -/
def Code.Placed (N : List Node) : Code → Fds → Nat × Nat → Prop
  | .close fd next, fds, p => next.Placed N (Function.update fds (fd.val p) none) p
  | .dup fd next, fds, p => next.Placed N (dupFd fds (fd.val p)) p
  | .open file mode next _, fds, p =>
    ∀ fd, freeFd fds = some fd → next.Placed N (Function.update fds fd (some (.file file mode))) p
  | .pipe u next _, fds, _ => (∃ x ∈ N, x.place = u ∧ ∃ left right, x.cmd = .pipe left right) ∧
    ∀ r w, freeFd fds = some r → freeFd (Function.update fds r (some (.readEnd u))) = some w →
      next.Placed N (Function.update (Function.update fds r (some (.readEnd u))) w (some (.writeEnd u))) (r, w)
  | .fork _ child parent _, fds, p => child.Placed N fds p ∧ parent.Placed N fds p
  | .wait u next, fds, p => (∃ x ∈ N, x.place = u ∧ fds = x.env.fds) ∧ next.Placed N fds p
  | .exec u argv _, fds, _ => argv ≠ [] ∧ ∃ x ∈ N, x.place = u ∧ x.cmd = .exec argv ∧ fds = x.env.fds
  | .print _, _, _ | .exit, _, _ => True

section Descriptors

variable {N : List Node} {u : Place} {e : Env} {cmd : Cmd}

theorem fdalloc_eq (p f : Nat) : Fs.fdalloc p f = Fs.act fun s => match freeFd (s.proc p).ofile with
    | none => .ok (none, s)
    | some fd => .ok (some fd, Fs.setOfile s p fd (some f)) := by
  have hEq (o : Option Nat) : (o == none) = o.isNone := by cases o <;> rfl
  refine congrArg Fs.act (funext fun s => ?_)
  cases hFd : freeFd (s.proc p).ofile with
  | none =>
    simp only [freeFd] at hFd
    simp only [hEq, hFd]
  | some fd =>
    simp only [freeFd] at hFd
    simp only [hEq, hFd]

def table (a b c : Option Handle) : Fds
  | 0 => a
  | 1 => b
  | 2 => c
  | _ => none

theorem openConsole_table (a b c : Option Handle) :
    openConsole 4 (table a b c) = (Env.mk (a.getD .console) (b.getD .console) (c.getD .console)).fds := by
  funext n
  rcases a with - | a <;> rcases b with - | b <;> rcases c with - | c
  all_goals
    match n with
    | 0 | 1 | 2 => rfl
    | _ + 3 => rfl

theorem freeFd_fds (e : Env) : freeFd e.fds = some 3 := rfl

theorem freeFd_fds_three (e : Env) (h : Handle) : freeFd (Function.update e.fds 3 (some h)) = some 4 := rfl

theorem freeFd_close (e : Env) {fd : Nat} (hFd : fd < 3) : freeFd (Function.update e.fds fd none) = some fd := by
  obtain rfl | rfl | rfl : fd = 0 ∨ fd = 1 ∨ fd = 2 := by omega
  all_goals rfl

theorem update_close (e : Env) {fd : Nat} (hFd : fd < 3) (h : Handle) :
    Function.update (Function.update e.fds fd none) fd (some h) = (e.set fd h).fds := by
  rw [Function.update_idem]
  funext n
  obtain rfl | rfl | rfl : fd = 0 ∨ fd = 1 ∨ fd = 2 := by omega
  all_goals
    match n with
    | 0 | 1 | 2 => rfl
    | _ + 3 => rfl

def piped (e : Env) (u : Place) : Fds := Function.update (Function.update e.fds 3 (some (.readEnd u))) 4 (some (.writeEnd u))

theorem close_piped (e : Env) (u : Place) : Function.update (Function.update (piped e u) 3 none) 4 none = e.fds := by
  funext n
  match n with
  | 0 | 1 | 2 | 3 | 4 => rfl
  | _ + 5 => rfl

theorem left_piped (e : Env) (u : Place) :
    Function.update (Function.update (dupFd (Function.update (piped e u) 1 none) 4) 3 none) 4 none =
      { e with output := .writeEnd u : Env }.fds := by
  funext n
  match n with
  | 0 | 1 | 2 | 3 | 4 => rfl
  | _ + 5 => rfl

theorem right_piped (e : Env) (u : Place) :
    Function.update (Function.update (dupFd (Function.update (piped e u) 0 none) 3) 3 none) 4 none =
      { e with input := .readEnd u : Env }.fds := by
  funext n
  match n with
  | 0 | 1 | 2 | 3 | 4 => rfl
  | _ + 5 => rfl

theorem placed_runcmd (hStandard : cmd.Standard) (hN : ∀ x ∈ nodes u cmd e, x ∈ N) (p : Nat × Nat) :
    (runcmd u cmd).Placed N e.fds p := by
  induction cmd generalizing u e p with
  | exec argv =>
    cases argv with
    | nil => trivial
    | cons file args => exact ⟨List.cons_ne_nil _ _, ⟨u, .exec (file :: args), e⟩, hN _ (List.mem_singleton.mpr rfl), rfl, rfl, rfl⟩
  | redir cmd file mode fd ih =>
    intro fd' hFree
    have hFd : fd < 3 := hStandard.1
    rw [Arg.val, freeFd_close e hFd] at hFree
    obtain rfl := Option.some.inj hFree
    rw [Arg.val, update_close e hFd]
    exact ih hStandard.2 (fun x hx => hN x (List.mem_cons_of_mem _ hx)) p
  | pipe left right ihLeft ihRight =>
    refine ⟨⟨⟨u, .pipe left right, e⟩, hN _ List.mem_cons_self, rfl, left, right, rfl⟩, fun r w hRead hWrite => ?_⟩
    rw [freeFd_fds] at hRead
    obtain rfl := Option.some.inj hRead
    rw [freeFd_fds_three] at hWrite
    obtain rfl := Option.some.inj hWrite
    have hNode : ∃ x ∈ N, x.place = u ∧ e.fds = x.env.fds := ⟨⟨u, .pipe left right, e⟩, hN _ List.mem_cons_self, rfl, rfl⟩
    refine ⟨?_, ?_, ?_⟩
    · have hLeft := ihLeft hStandard.1 (fun x hx => hN x (List.mem_cons_of_mem _ (List.mem_append_left _ hx))) (3, 4)
      rw [← left_piped] at hLeft
      exact hLeft
    · have hRight := ihRight hStandard.2 (fun x hx => hN x (List.mem_cons_of_mem _ (List.mem_append_right _ hx))) (3, 4)
      rw [← right_piped] at hRight
      exact hRight
    · change (∃ x ∈ N, x.place = u ∧ Function.update (Function.update (piped e u) 3 none) 4 none = x.env.fds) ∧
        (∃ x ∈ N, x.place = u ∧ Function.update (Function.update (piped e u) 3 none) 4 none = x.env.fds) ∧ True
      rw [close_piped]
      exact ⟨hNode, hNode, trivial⟩
  | list left right ihLeft ihRight =>
    refine ⟨ihLeft hStandard.1 (fun x hx => hN x (List.mem_cons_of_mem _ (List.mem_append_left _ hx))) p, ?_, ?_⟩
    · exact ⟨⟨u, .list left right, e⟩, hN _ List.mem_cons_self, rfl, rfl⟩
    · exact ihRight hStandard.2 (fun x hx => hN x (List.mem_cons_of_mem _ (List.mem_append_right _ hx))) p
  | back cmd ih => exact ⟨ih hStandard (fun x hx => hN x (List.mem_cons_of_mem _ hx)) p, trivial⟩

end Descriptors

structure InPlace (N : List Node) (s : Sys) : Prop where
  code : ∀ pid q c p, s.proc pid = some q → q.image = .code c p → c.Placed N q.fds p
  started : ∀ st ∈ s.started, st.argv ≠ [] ∧ ∃ x ∈ N, x.place = st.place ∧ x.cmd = .exec st.argv ∧ st.fds = x.env.fds
  made : ∀ u ∈ s.made, ∃ x ∈ N, x.place = u ∧ ∃ left right, x.cmd = .pipe left right

section Runs

variable {N : List Node} {s s' : Sys} {pid : Nat} {q : Proc}

theorem InPlace.set (h : InPlace N s) (hq : ∀ c p, q.image = .code c p → c.Placed N q.fds p) : InPlace N (s.set pid q) := by
  refine ⟨fun n q' c p hProc hImage => ?_, h.started, h.made⟩
  by_cases hEq : n = pid
  · rw [hEq, Sys.set_self] at hProc
    obtain rfl := Option.some.inj hProc
    exact hq c p hImage
  · rw [Sys.set_of_ne _ _ hEq] at hProc
    exact h.code n q' c p hProc hImage

theorem InPlace.goOn (h : InPlace N s) {c : Code} {p : Nat × Nat} {fds : Fds} (hc : c.Placed N fds p) :
    InPlace N (s.set pid (q.goOn c p fds)) :=
  h.set fun c' p' hImage => by
    cases hImage
    exact hc

theorem InPlace.drop (h : InPlace N s) (pid : Nat) : InPlace N (s.drop pid) := by
  refine ⟨fun n q' c p hProc hImage => ?_, h.started, h.made⟩
  by_cases hEq : n = pid
  · rw [hEq, Sys.drop_self] at hProc
    cases hProc
  · rw [Sys.drop_of_ne _ hEq] at hProc
    exact h.code n q' c p hProc hImage

theorem InPlace.step (h : InPlace N s) (hStep : Step s s') : InPlace N s' := by
  cases hStep with
  | close hProc hImage => exact h.goOn (h.code _ _ _ _ hProc hImage)
  | dup hProc hImage => exact h.goOn (h.code _ _ _ _ hProc hImage)
  | opened hProc hImage hFree => exact h.goOn (h.code _ _ _ _ hProc hImage _ hFree)
  | piped hProc hImage hRead hWrite =>
    obtain ⟨hNode, hNext⟩ := h.code _ _ _ _ hProc hImage
    have hMade : InPlace N { s with made := _ :: s.made } :=
      ⟨h.code, h.started, List.forall_mem_cons.mpr ⟨hNode, h.made⟩⟩
    exact hMade.goOn (hNext _ _ hRead hWrite)
  | forked hProc hImage hNew =>
    obtain ⟨hChild, hParent⟩ := h.code _ _ _ _ hProc hImage
    refine (h.set fun c p hc => ?_).set fun c p hc => ?_
    · cases hc
      exact hParent
    · cases hc
      exact hChild
  | reaped hProc hImage hChild hProc' hZombie =>
    refine (h.drop _).set fun c p hc => ?_
    cases hc
    exact (h.code _ _ _ _ hProc hImage).2
  | childless hProc hImage | interrupted hProc hImage => exact h.goOn (h.code _ _ _ _ hProc hImage).2
  | @started pid q u argv failed p hProc hImage =>
    have hStart : InPlace N { s with started := ⟨u, argv, q.fds⟩ :: s.started } :=
      ⟨h.code, List.forall_mem_cons.mpr ⟨h.code _ _ _ _ hProc hImage, h.started⟩, h.made⟩
    refine hStart.set fun c p hc => ?_
    cases hc
  | print hProc hImage => exact h.goOn trivial
  | exit hProc hImage | ended hProc hImage =>
    refine h.set fun c p hc => ?_
    cases hc
  | work fds hProc hImage =>
    refine h.set fun c p hc => ?_
    rw [hImage] at hc
    cases hc

theorem InPlace.fails (h : InPlace N s) (hFails : Fails s s' ∨ ForkFails s s') : InPlace N s' := by
  rcases hFails with ⟨hProc, hImage, -⟩ | ⟨hProc, hImage⟩
  · exact h.goOn trivial
  · exact h.goOn trivial

theorem InPlace.kill (h : InPlace N s) (hKill : Kill s s') : InPlace N s' := by
  obtain @⟨pid, q, hProc⟩ := hKill
  exact h.set fun c p hImage => h.code pid q c p hProc hImage

theorem InPlace.runs (h : InPlace N s) (hRuns : Runs s s') : InPlace N s' := by
  induction hRuns with
  | refl => exact h
  | tail _ hStep ih =>
    obtain hStep | hFails | hFails | hKill := hStep
    · exact ih.step hStep
    · exact ih.fails (Or.inl hFails)
    · exact ih.fails (Or.inr hFails)
    · exact ih.kill hKill

theorem inPlace_start {cmd : Cmd} {e : Env} (hStandard : cmd.Standard) : InPlace (nodes [] cmd e) (Sys.start cmd e.fds) where
  code pid q c p hProc hImage := by
    obtain ⟨-, hEq⟩ := Option.ite_none_right_eq_some.mp hProc
    obtain rfl := Option.some.inj hEq
    cases hImage
    exact placed_runcmd hStandard (fun _ hx => hx) _
  started st hst := absurd hst List.not_mem_nil
  made u hu := absurd hu List.not_mem_nil

end Runs

end Xv6Rpi.Shell
