import Mathlib.Logic.Function.Basic
import Mathlib.Logic.Relation
import Xv6Rpi.Fs.Sysfile
import Xv6Rpi.Shell.Parser

/-! # Running a command

`runcmd` as the calls that it makes, and the processes that make them: one process takes its next call after another, in any order, and
any call that may fail may fail. A part of the tree of commands is named by the way from the root to it, the last turn first.
-/

namespace Xv6Rpi.Shell

inductive Turn where
  | sub
  | left
  | right
  deriving DecidableEq

abbrev Place := List Turn

/-- What a descriptor is open for. The pipes are named by the places of the commands that make them. -/
inductive Handle where
  | given (fd : Nat)
  | file (name : Span) (mode : Nat)
  | readEnd (u : Place)
  | writeEnd (u : Place)
  | console
  deriving DecidableEq

abbrev Fds := Nat → Option Handle

def freeFd {α : Type} (ofile : Nat → Option α) : Option Nat := (List.range Fs.nofile).find? fun fd => (ofile fd).isNone

/-- The descriptor that a call is given: a number, or an element of the array `p`. -/
inductive Arg where
  | num (fd : Nat)
  | p0
  | p1

def Arg.val (p : Nat × Nat) : Arg → Nat
  | .num fd => fd
  | .p0 => p.1
  | .p1 => p.2

structure Message where
  format : String
  arg : Option Span

/-- The calls that a process is still to make. A call of `runcmd` does not return, so that there is one array `p` at a time. A call
that fails ends with a message; the places are for the statements only. -/
inductive Code where
  | close (fd : Arg) (next : Code)
  | dup (fd : Arg) (next : Code)
  | open (file : Span) (mode : Nat) (next : Code) (failed : Message)
  | pipe (u : Place) (next : Code) (failed : Message)
  | fork (home : Place) (child parent : Code) (failed : Message)
  | wait (u : Place) (next : Code)
  | exec (u : Place) (argv : List Span) (failed : Message)
  | print (m : Message)
  | exit

def panic (s : String) : Message := ⟨s ++ "\n", none⟩

def fork1 (home : Place) (child parent : Code) : Code := .fork home child parent (panic "fork")

def runcmd (u : Place) : Cmd → Code
  | .exec [] => .exit
  | .exec (file :: args) => .exec u (file :: args) ⟨"exec %s failed\n", file⟩
  | .redir cmd file mode fd => .close (.num fd) (.open file mode (runcmd (.sub :: u) cmd) ⟨"open %s failed\n", file⟩)
  | .list left right => fork1 (.left :: u) (runcmd (.left :: u) left) (.wait u (runcmd (.right :: u) right))
  | .pipe left right =>
    .pipe u
      (fork1 (.left :: u) (.close (.num 1) (.dup .p1 (.close .p0 (.close .p1 (runcmd (.left :: u) left)))))
        (fork1 (.right :: u) (.close (.num 0) (.dup .p0 (.close .p0 (.close .p1 (runcmd (.right :: u) right)))))
          (.close .p0 (.close .p1 (.wait u (.wait u .exit))))))
      (panic "pipe")
  | .back cmd => fork1 (.sub :: u) (runcmd (.sub :: u) cmd) .exit

/-- The loop of `main` that opens the console, with so many turns left; `open` only fails where no descriptor is free. -/
def openConsole : Nat → Fds → Fds
  | 0, fds => fds
  | n + 1, fds => match freeFd fds with
    | none => fds
    | some fd => if 3 ≤ fd then fds else openConsole n (Function.update fds fd (some .console))

/-! ## Processes -/

/-- What a process is doing. A program may do anything with its descriptors before it exits. -/
inductive Image where
  | code (c : Code) (p : Nat × Nat)
  | prog (u : Place)
  | zombie

/-- `home` is the place at which the process has been forked. -/
structure Proc where
  image : Image
  fds : Fds
  children : List Nat
  home : Place
  killed : Bool

structure Start where
  place : Place
  argv : List Span
  fds : Fds

/-- The processes by their numbers, the programs that have been started, and the places of the pipes that have been made. -/
structure Sys where
  proc : Nat → Option Proc
  started : List Start
  made : List Place

def Sys.set (s : Sys) (pid : Nat) (q : Proc) : Sys := { s with proc := Function.update s.proc pid (some q) }

def Sys.drop (s : Sys) (pid : Nat) : Sys := { s with proc := Function.update s.proc pid none }

theorem Sys.set_self (s : Sys) (pid : Nat) (q : Proc) : (s.set pid q).proc pid = some q := Function.update_self ..

theorem Sys.set_of_ne (s : Sys) {pid n : Nat} (q : Proc) (h : n ≠ pid) : (s.set pid q).proc n = s.proc n := Function.update_of_ne h ..

theorem Sys.drop_self (s : Sys) (pid : Nat) : (s.drop pid).proc pid = none := Function.update_self ..

theorem Sys.drop_of_ne (s : Sys) {pid n : Nat} (h : n ≠ pid) : (s.drop pid).proc n = s.proc n := Function.update_of_ne h ..

def Proc.goOn (q : Proc) (c : Code) (p : Nat × Nat) (fds : Fds) : Proc := { q with image := .code c p, fds := fds }

def Proc.exit (q : Proc) : Proc := ⟨.zombie, fun _ => none, [], q.home, q.killed⟩

def dupFd (fds : Fds) (fd : Nat) : Fds := match fds fd, freeFd fds with
  | some h, some fd' => Function.update fds fd' (some h)
  | _, _ => fds

inductive Step (s : Sys) : Sys → Prop
  | close {pid : Nat} {q : Proc} {fd : Arg} {next : Code} {p : Nat × Nat} (hProc : s.proc pid = some q)
      (hImage : q.image = .code (.close fd next) p) :
      Step s (s.set pid (q.goOn next p (Function.update q.fds (fd.val p) none)))
  | dup {pid : Nat} {q : Proc} {fd : Arg} {next : Code} {p : Nat × Nat} (hProc : s.proc pid = some q)
      (hImage : q.image = .code (.dup fd next) p) : Step s (s.set pid (q.goOn next p (dupFd q.fds (fd.val p))))
  | opened {pid fd : Nat} {q : Proc} {file : Span} {mode : Nat} {next : Code} {failed : Message} {p : Nat × Nat}
      (hProc : s.proc pid = some q) (hImage : q.image = .code (.open file mode next failed) p) (hFree : freeFd q.fds = some fd) :
      Step s (s.set pid (q.goOn next p (Function.update q.fds fd (some (.file file mode)))))
  | piped {pid r w : Nat} {q : Proc} {u : Place} {next : Code} {failed : Message} {p : Nat × Nat} (hProc : s.proc pid = some q)
      (hImage : q.image = .code (.pipe u next failed) p) (hRead : freeFd q.fds = some r)
      (hWrite : freeFd (Function.update q.fds r (some (.readEnd u))) = some w) :
      Step s ({ s with made := u :: s.made }.set pid
        (q.goOn next (r, w) (Function.update (Function.update q.fds r (some (.readEnd u))) w (some (.writeEnd u)))))
  | forked {pid pid' : Nat} {q : Proc} {home : Place} {child parent : Code} {failed : Message} {p : Nat × Nat}
      (hProc : s.proc pid = some q) (hImage : q.image = .code (.fork home child parent failed) p) (hNew : s.proc pid' = none) :
      Step s ((s.set pid { q.goOn parent p q.fds with children := pid' :: q.children }).set pid' ⟨.code child p, q.fds, [], home, false⟩)
  | reaped {pid pid' : Nat} {q q' : Proc} {u : Place} {next : Code} {p : Nat × Nat} (hProc : s.proc pid = some q)
      (hImage : q.image = .code (.wait u next) p) (hChild : pid' ∈ q.children) (hProc' : s.proc pid' = some q')
      (hZombie : q'.image = .zombie) :
      Step s ((s.drop pid').set pid { q.goOn next p q.fds with children := q.children.erase pid' })
  | childless {pid : Nat} {q : Proc} {u : Place} {next : Code} {p : Nat × Nat} (hProc : s.proc pid = some q)
      (hImage : q.image = .code (.wait u next) p) (hNone : q.children = []) : Step s (s.set pid (q.goOn next p q.fds))
  -- a killed process that has children, none of which has ended
  | interrupted {pid : Nat} {q : Proc} {u : Place} {next : Code} {p : Nat × Nat} (hProc : s.proc pid = some q)
      (hImage : q.image = .code (.wait u next) p) (hKilled : q.killed = true)
      (hNone : ∀ n ∈ q.children, ∀ q', s.proc n = some q' → q'.image ≠ .zombie) : Step s (s.set pid (q.goOn next p q.fds))
  | started {pid : Nat} {q : Proc} {u : Place} {argv : List Span} {failed : Message} {p : Nat × Nat} (hProc : s.proc pid = some q)
      (hImage : q.image = .code (.exec u argv failed) p) :
      Step s ({ s with started := ⟨u, argv, q.fds⟩ :: s.started }.set pid { q with image := .prog u })
  | print {pid : Nat} {q : Proc} {m : Message} {p : Nat × Nat} (hProc : s.proc pid = some q) (hImage : q.image = .code (.print m) p) :
      Step s (s.set pid (q.goOn .exit p q.fds))
  | exit {pid : Nat} {q : Proc} {p : Nat × Nat} (hProc : s.proc pid = some q) (hImage : q.image = .code .exit p) :
      Step s (s.set pid q.exit)
  | work {pid : Nat} {q : Proc} {u : Place} (fds : Fds) (hProc : s.proc pid = some q) (hImage : q.image = .prog u) :
      Step s (s.set pid { q with fds := fds })
  | ended {pid : Nat} {q : Proc} {u : Place} (hProc : s.proc pid = some q) (hImage : q.image = .prog u) : Step s (s.set pid q.exit)

inductive Code.Fails : Code → Message → Prop
  | open (file : Span) (mode : Nat) (next : Code) (m : Message) : Fails (.open file mode next m) m
  | pipe (u : Place) (next : Code) (m : Message) : Fails (.pipe u next m) m
  | exec (u : Place) (argv : List Span) (m : Message) : Fails (.exec u argv m) m

inductive Fails (s : Sys) : Sys → Prop
  | call {pid : Nat} {q : Proc} {c : Code} {m : Message} {p : Nat × Nat} (hProc : s.proc pid = some q)
      (hImage : q.image = .code c p) (hFails : c.Fails m) : Fails s (s.set pid (q.goOn (.print m) p q.fds))

inductive ForkFails (s : Sys) : Sys → Prop
  | call {pid : Nat} {q : Proc} {home : Place} {child parent : Code} {m : Message} {p : Nat × Nat} (hProc : s.proc pid = some q)
      (hImage : q.image = .code (.fork home child parent m) p) : ForkFails s (s.set pid (q.goOn (.print m) p q.fds))

inductive Kill (s : Sys) : Sys → Prop
  | kill {pid : Nat} {q : Proc} (hProc : s.proc pid = some q) : Kill s (s.set pid { q with killed := true })

/-- The process that `main` has forked for a line, with the descriptors of the shell. -/
def Sys.start (cmd : Cmd) (fds : Fds) : Sys where
  proc n := if n = 0 then some ⟨.code (runcmd [] cmd) (0, 0), fds, [], [], false⟩ else none
  started := []
  made := []

abbrev Runs : Sys → Sys → Prop := Relation.ReflTransGen fun s s' => Step s s' ∨ Fails s s' ∨ ForkFails s s' ∨ Kill s s'

/-! ## Executing the calls -/

/-- The next call of a process where it does not fail; the other number is that of the child that is forked or reaped. -/
def Sys.next (s : Sys) (pid pid' : Nat) : Option Sys :=
  match s.proc pid with
  | none | some ⟨.zombie, _, _, _, _⟩ => none
  | some ⟨.prog _, _, _, home, killed⟩ => some (s.set pid ⟨.zombie, fun _ => none, [], home, killed⟩)
  | some ⟨.code c p, fds, children, home, killed⟩ => match c with
    | .close fd next => some (s.set pid ⟨.code next p, Function.update fds (fd.val p) none, children, home, killed⟩)
    | .dup fd next => some (s.set pid ⟨.code next p, dupFd fds (fd.val p), children, home, killed⟩)
    | .open file mode next _ => match freeFd fds with
      | none => none
      | some fd => some (s.set pid ⟨.code next p, Function.update fds fd (some (.file file mode)), children, home, killed⟩)
    | .pipe u next _ => match freeFd fds with
      | none => none
      | some r => match freeFd (Function.update fds r (some (.readEnd u))) with
        | none => none
        | some w => some ({ s with made := u :: s.made }.set pid
            ⟨.code next (r, w), Function.update (Function.update fds r (some (.readEnd u))) w (some (.writeEnd u)), children, home, killed⟩)
    | .fork home' child parent _ =>
      if (s.proc pid').isNone then
        some ((s.set pid ⟨.code parent p, fds, pid' :: children, home, killed⟩).set pid' ⟨.code child p, fds, [], home', false⟩)
      else none
    | .wait _ next => match s.proc pid' with
      | some ⟨.zombie, _, _, _, _⟩ =>
        if pid' ∈ children then some ((s.drop pid').set pid ⟨.code next p, fds, children.erase pid', home, killed⟩) else none
      | _ => none
    | .exec u argv _ => some ({ s with started := ⟨u, argv, fds⟩ :: s.started }.set pid ⟨.prog u, fds, children, home, killed⟩)
    | .print _ => some (s.set pid ⟨.code .exit p, fds, children, home, killed⟩)
    | .exit => some (s.set pid ⟨.zombie, fun _ => none, [], home, killed⟩)

theorem step_of_next {s s' : Sys} {pid pid' : Nat} (h : s.next pid pid' = some s') : Step s s' := by
  rw [Sys.next] at h
  split at h
  · cases h
  · cases h
  · next hProc =>
    obtain rfl := Option.some.inj h
    exact .ended hProc rfl
  · next c p fds children home killed hProc =>
    cases c with
    | close fd next =>
      obtain rfl := Option.some.inj h
      exact .close hProc rfl
    | dup fd next =>
      obtain rfl := Option.some.inj h
      exact .dup hProc rfl
    | «open» file mode next failed =>
      dsimp only at h
      split at h
      · cases h
      · next fd hFree =>
        obtain rfl := Option.some.inj h
        exact .opened hProc rfl hFree
    | pipe u next failed =>
      dsimp only at h
      split at h
      · cases h
      · next r hRead =>
        split at h
        · cases h
        · next w hWrite =>
          obtain rfl := Option.some.inj h
          exact .piped hProc rfl hRead hWrite
    | fork home' child parent failed =>
      obtain ⟨hNew, hEq⟩ := Option.ite_none_right_eq_some.mp h
      obtain rfl := Option.some.inj hEq
      exact .forked hProc rfl (Option.isNone_iff_eq_none.mp hNew)
    | wait u next =>
      dsimp only at h
      split at h
      · next hChild =>
        obtain ⟨hMem, hEq⟩ := Option.ite_none_right_eq_some.mp h
        obtain rfl := Option.some.inj hEq
        exact .reaped hProc rfl hMem hChild rfl
      · cases h
    | exec u argv failed =>
      obtain rfl := Option.some.inj h
      exact .started hProc rfl
    | print m =>
      obtain rfl := Option.some.inj h
      exact .print hProc rfl
    | exit =>
      obtain rfl := Option.some.inj h
      exact .exit hProc rfl

def play (s : Sys) : List (Nat × Nat) → Option Sys
  | [] => some s
  | (pid, pid') :: turns => (s.next pid pid').bind fun s => play s turns

theorem steps_of_play {s s' : Sys} {turns : List (Nat × Nat)} (h : play s turns = some s') : Relation.ReflTransGen Step s s' := by
  induction turns generalizing s with
  | nil =>
    cases h
    exact .refl
  | cons turn turns ih =>
    obtain ⟨s₁, hNext, hPlay⟩ := Option.bind_eq_some_iff.mp h
    exact .head (step_of_next hNext) (ih hPlay)

end Xv6Rpi.Shell
