import Mathlib.Data.List.TakeWhile
import Mathlib.Tactic

/-! # The parser of the shell

The recursive descent of sh.c. A pointer into the line is what the line is from there on, so the
pointer to its end `es` is the empty list. Functions that call each other or loop take a number of
turns, of which `parsecmd` gives them enough. Memory for the tree is always found.
-/

namespace Xv6Rpi.Shell

def maxargs : Nat := 10

def oRdonly : Nat := 0x000
def oWronly : Nat := 0x001
def oCreate : Nat := 0x200

abbrev Ptr := List UInt8

/-! ## Characters -/

def bar : UInt8 := 0x7c
def lparen : UInt8 := 0x28
def rparen : UInt8 := 0x29
def semi : UInt8 := 0x3b
def amp : UInt8 := 0x26
def lt : UInt8 := 0x3c
def gt : UInt8 := 0x3e
def plus : UInt8 := 0x2b
def letterA : UInt8 := 0x61

def whitespace : List UInt8 := [0x20, 0x09, 0x0d, 0x0a, 0x0b]

def symbols : List UInt8 := [lt, bar, gt, amp, semi, lparen, rparen]

def inWord (c : UInt8) : Bool := c ∉ whitespace && c ∉ symbols

/-! ## Tokens -/

structure Span where
  q : Ptr
  eq : Ptr
  deriving DecidableEq

structure Token where
  ret : UInt8
  span : Span

def skip (s : Ptr) : Ptr := s.dropWhile (· ∈ whitespace)

/-- The result of `gettoken` at a character that is not white space, and the end of the token. -/
def scan : Ptr → UInt8 × Ptr
  | [] => (0, [])
  | c :: s =>
    if c ∈ [bar, lparen, rparen, semi, amp, lt] then (c, s)
    else if c = gt then
      if s.head? = some gt then (plus, s.tail) else (gt, s)
    else (letterA, (c :: s).dropWhile inWord)

def gettoken (s : Ptr) : Token × Ptr :=
  let q := skip s
  let (ret, eq) := scan q
  (⟨ret, ⟨q, eq⟩⟩, skip eq)

def peek (s : Ptr) (toks : List UInt8) : Bool × Ptr := ((skip s).head?.any (· ∈ toks), skip s)

/-! ## Commands -/

inductive Cmd where
  | exec (argv : List Span)
  | redir (cmd : Cmd) (file : Span) (mode fd : Nat)
  | pipe (left right : Cmd)
  | list (left right : Cmd)
  | back (cmd : Cmd)
  deriving DecidableEq

/-- The command that is redirected is executed with one more argument; `parseexec` reaches it
through a pointer. -/
def Cmd.addArg (a : Span) : Cmd → Cmd
  | .exec argv => .exec (argv ++ [a])
  | .redir cmd file mode fd => .redir (cmd.addArg a) file mode fd
  | cmd => cmd

def redircmd (cmd : Cmd) (tok : UInt8) (file : Span) : Cmd :=
  if tok = lt then .redir cmd file oRdonly 0
  else if tok = gt then .redir cmd file (oWronly ||| oCreate) 1
  else if tok = plus then .redir cmd file (oWronly ||| oCreate) 1
  else cmd

/-- The panics of the parser; the last one is none of them, but says that there were not enough
turns. -/
inductive Failure where
  | missingFile
  | parseblock
  | missingParen
  | badToken
  | tooManyArgs
  | leftovers
  | unending
  deriving DecidableEq

def Failure.text : Failure → String
  | .missingFile => "missing file for redirection"
  | .parseblock => "parseblock"
  | .missingParen => "syntax - missing )"
  | .badToken | .leftovers => "syntax"
  | .tooManyArgs => "too many args"
  | .unending => ""

abbrev Parsed := Except Failure (Cmd × Ptr)

/-! ## The parser -/

def parseredirs : Nat → Cmd → Ptr → Parsed
  | 0, _, _ => .error .unending
  | n + 1, cmd, s =>
    let (more, s) := peek s [lt, gt]
    if more then
      let (tok, s) := gettoken s
      let (file, s) := gettoken s
      if file.ret ≠ letterA then .error .missingFile
      else parseredirs n (redircmd cmd tok.ret file.span) s
    else .ok (cmd, s)

def parseargs : Nat → Nat → Cmd → Ptr → Parsed
  | 0, _, _, _ => .error .unending
  | n + 1, argc, cmd, s =>
    let (stop, s) := peek s [bar, rparen, amp, semi]
    if stop then .ok (cmd, s)
    else
      let (tok, s) := gettoken s
      if tok.ret = 0 then .ok (cmd, s)
      else if tok.ret ≠ letterA then .error .badToken
      else if maxargs ≤ argc + 1 then .error .tooManyArgs
      else do
        let (cmd, s) ← parseredirs n (cmd.addArg tok.span) s
        parseargs n (argc + 1) cmd s

def parsebacks : Nat → Cmd → Ptr → Parsed
  | 0, _, _ => .error .unending
  | n + 1, cmd, s =>
    let (more, s) := peek s [amp]
    if more then parsebacks n (.back cmd) (gettoken s).2 else .ok (cmd, s)

mutual

def parseline : Nat → Ptr → Parsed
  | 0, _ => .error .unending
  | n + 1, s => do
    let (cmd, s) ← parsepipe n s
    let (cmd, s) ← parsebacks n cmd s
    let (more, s) := peek s [semi]
    if more then
      let (right, s) ← parseline n (gettoken s).2
      return (.list cmd right, s)
    else return (cmd, s)

def parsepipe : Nat → Ptr → Parsed
  | 0, _ => .error .unending
  | n + 1, s => do
    let (cmd, s) ← parseexec n s
    let (more, s) := peek s [bar]
    if more then
      let (right, s) ← parsepipe n (gettoken s).2
      return (.pipe cmd right, s)
    else return (cmd, s)

def parseexec : Nat → Ptr → Parsed
  | 0, _ => .error .unending
  | n + 1, s => do
    let (block, s) := peek s [lparen]
    if block then parseblock n s
    else
      let (cmd, s) ← parseredirs n (.exec []) s
      parseargs n 0 cmd s

def parseblock : Nat → Ptr → Parsed
  | 0, _ => .error .unending
  | n + 1, s => do
    let (block, s) := peek s [lparen]
    if !block then .error .parseblock
    else
      let (cmd, s) ← parseline n (gettoken s).2
      let (closed, s) := peek s [rparen]
      if !closed then .error .missingParen
      else parseredirs n cmd (gettoken s).2

end

/-! ## Strings -/

def memory (line : Ptr) (i : Nat) : UInt8 := line.getD i 0

def address (line p : Ptr) : Nat := line.length - p.length

def clear (line : Ptr) (mem : Nat → UInt8) (p : Ptr) : Nat → UInt8 := Function.update mem (address line p) 0

def nulterminate (line : Ptr) : Cmd → (Nat → UInt8) → Nat → UInt8
  | .exec argv, mem => argv.foldl (fun mem a => clear line mem a.eq) mem
  | .redir cmd file _ _, mem => clear line (nulterminate line cmd mem) file.eq
  | .pipe left right, mem => nulterminate line right (nulterminate line left mem)
  | .list left right, mem => nulterminate line right (nulterminate line left mem)
  | .back cmd, mem => nulterminate line cmd mem

def strz (s : List UInt8) : Ptr := s.takeWhile (· ≠ 0)

/-- The tree, and the line as the strings of the tree have been terminated in it. -/
def parsecmd (s : List UInt8) : Except Failure (Cmd × (Nat → UInt8)) := do
  let line := strz s
  let (cmd, rest) ← parseline (4 * line.length + 4) line
  let (_, rest) := peek rest []
  if rest ≠ [] then .error .leftovers
  else return (cmd, nulterminate line cmd (memory line))

end Xv6Rpi.Shell
