import Mathlib.Data.List.DropRight
import Xv6Rpi.Shell.Parser

/-! # The grammar of the shell

    line  ::= pipe '&'* [';' line]
    pipe  ::= exec ['|' pipe]
    exec  ::= '(' line ')' redir* | redir* (word redir*)*
    redir ::= ('<' | '>' | '>>') word

over the tokens that `gettoken` finds one after another, together with the command of a
derivation.
-/

namespace Xv6Rpi.Shell

/-! ## The tokens of a line -/

theorem skip_skip (s : Ptr) : skip (skip s) = skip s := by
  simp only [skip]
  exact List.dropWhile_idempotent _ s

theorem skip_length_le (s : Ptr) : (skip s).length ≤ s.length :=
  (List.dropWhile_suffix _).length_le

theorem head_skip {s q : Ptr} {c : UInt8} (h : skip s = c :: q) : c ∉ whitespace := by
  have hHead := List.head?_dropWhile_not (fun c => decide (c ∈ whitespace)) s
  rw [← skip, h] at hHead
  exact of_decide_eq_false hHead

theorem inWord_of_head {c : UInt8} (hSpace : c ∉ whitespace)
    (hOps : c ∉ [bar, lparen, rparen, semi, amp, lt]) (hGt : c ≠ gt) : inWord c = true := by
  simp only [List.mem_cons, List.not_mem_nil, or_false, not_or] at hOps
  simp only [inWord, symbols, hSpace, List.mem_cons, List.not_mem_nil, or_false]
  simp [hOps, hGt]

theorem scan_length_lt {s q : Ptr} {c : UInt8} (h : skip s = c :: q) :
    (scan (c :: q)).2.length < (c :: q).length := by
  simp only [scan]
  split
  · simp
  · next hOps =>
    split
    · split
      · simp only [List.length_tail, List.length_cons]
        omega
      · simp
    · next hGt =>
      rw [List.dropWhile_cons, if_pos (inWord_of_head (head_skip h) hOps hGt), List.length_cons]
      exact Nat.lt_succ_of_le (List.dropWhile_suffix _).length_le

theorem scan_ret_ne_zero (c : UInt8) (q : Ptr) : (scan (c :: q)).1 ≠ 0 := by
  simp only [scan]
  split
  · next hOps =>
    rintro rfl
    exact absurd hOps (by decide)
  · split
    · split
      · exact (by decide : plus ≠ 0)
      · exact (by decide : gt ≠ 0)
    · exact (by decide : letterA ≠ 0)

theorem gettoken_skip (s : Ptr) : gettoken (skip s) = gettoken s := by
  simp only [gettoken, skip_skip]

theorem gettoken_ret (s : Ptr) : (gettoken s).1.ret = (scan (skip s)).1 := rfl

theorem gettoken_rest (s : Ptr) : (gettoken s).2 = skip (scan (skip s)).2 := rfl

theorem gettoken_length_lt {s : Ptr} (h : (gettoken s).1.ret ≠ 0) :
    (gettoken s).2.length < s.length := by
  rw [gettoken_ret] at h
  rw [gettoken_rest]
  have hSkip := skip_length_le s
  cases hs : skip s with
  | nil =>
    rw [hs] at h
    exact absurd rfl h
  | cons c q =>
    have hScan := scan_length_lt hs
    have hRest := skip_length_le (scan (c :: q)).2
    rw [hs] at hSkip
    omega

/-- The tokens that `gettoken` finds up to the end of the line. -/
def tokens (s : Ptr) : List Token :=
  if _ : (gettoken s).1.ret = 0 then [] else (gettoken s).1 :: tokens (gettoken s).2
termination_by s.length
decreasing_by exact gettoken_length_lt ‹_›

theorem tokens_of_end {s : Ptr} (h : (gettoken s).1.ret = 0) : tokens s = [] := by
  rw [tokens, dif_pos h]

theorem tokens_of_ne {s : Ptr} (h : (gettoken s).1.ret ≠ 0) :
    tokens s = (gettoken s).1 :: tokens (gettoken s).2 := by
  rw [tokens, dif_neg h]

theorem tokens_skip (s : Ptr) : tokens (skip s) = tokens s := by
  rw [tokens, gettoken_skip]
  exact (tokens.eq_1 s).symm

theorem tokens_eq_nil {s : Ptr} : tokens s = [] ↔ skip s = [] := by
  constructor
  · intro h
    cases hs : skip s with
    | nil => rfl
    | cons c q =>
      have hRet : (gettoken s).1.ret ≠ 0 := by
        rw [gettoken_ret, hs]
        exact scan_ret_ne_zero c q
      rw [tokens_of_ne hRet] at h
      exact absurd h (List.cons_ne_nil _ _)
  · intro h
    apply tokens_of_end
    rw [gettoken_ret, h]
    rfl

theorem tokens_eq_cons {s : Ptr} {t : Token} {ts : List Token} (h : tokens s = t :: ts) :
    (gettoken s).1 = t ∧ tokens (gettoken s).2 = ts ∧ (gettoken s).2.length < s.length := by
  have hRet : (gettoken s).1.ret ≠ 0 := by
    intro hEnd
    rw [tokens_of_end hEnd] at h
    exact absurd h.symm (List.cons_ne_nil _ _)
  rw [tokens_of_ne hRet, List.cons.injEq] at h
  exact ⟨h.1, h.2, gettoken_length_lt hRet⟩

/-! ## The next token -/

/-- The character that the tokens begin with, 0 where there is none and `a` before a word. -/
def first : List Token → UInt8
  | [] => 0
  | t :: _ => if t.ret = plus then gt else t.ret

theorem first_scan (c : UInt8) (q : Ptr) :
    (if (scan (c :: q)).1 = plus then gt else (scan (c :: q)).1) =
      if c ∈ symbols then c else letterA := by
  simp only [scan]
  split
  · next hOps =>
    have hSymbol : c ∈ symbols := by
      revert hOps
      simp only [symbols, List.mem_cons, List.not_mem_nil, or_false]
      tauto
    have hPlus : c ≠ plus := by
      rintro rfl
      exact absurd hSymbol (by decide)
    rw [if_neg hPlus, if_pos hSymbol]
  · next hOps =>
    split
    · next hGt =>
      subst hGt
      split
      · rfl
      · rfl
    · next hGt =>
      have hSymbol : c ∉ symbols := by
        revert hOps
        simp only [symbols, List.mem_cons, List.not_mem_nil, or_false]
        tauto
      rw [if_neg hSymbol]
      rfl

theorem first_tokens_of_skip {s q : Ptr} {c : UInt8} (h : skip s = c :: q) :
    first (tokens s) = if c ∈ symbols then c else letterA := by
  have hRet : (gettoken s).1.ret ≠ 0 := by
    rw [gettoken_ret, h]
    exact scan_ret_ne_zero c q
  rw [tokens_of_ne hRet, first, gettoken_ret, h]
  exact first_scan c q

theorem peek_eq (s : Ptr) {toks : List UInt8} (hToks : toks ⊆ symbols) :
    peek s toks = (decide (first (tokens s) ∈ toks), skip s) := by
  have hFst : (skip s).head?.any (· ∈ toks) = decide (first (tokens s) ∈ toks) := by
    cases hs : skip s with
    | nil =>
      rw [tokens_eq_nil.mpr hs]
      have hZero : (0 : UInt8) ∉ toks := fun h => absurd (hToks h) (by decide)
      simp [first, hZero]
    | cons c q =>
      rw [first_tokens_of_skip hs]
      simp only [List.head?_cons, Option.any_some]
      split
      · rfl
      · next hSymbol =>
        have hChar : c ∉ toks := fun h => hSymbol (hToks h)
        have hWord : letterA ∉ toks := fun h => absurd (hToks h) (by decide)
        simp [hChar, hWord]
  rw [peek, hFst]

/-! ## Derivations -/

/-- `redir*`: the redirections put around a command. -/
inductive Redirs : List Token → Cmd → Cmd → Prop
  | nil (cmd : Cmd) : Redirs [] cmd cmd
  | cons {tok file : Token} {ts : List Token} {cmd cmd' : Cmd}
      (hTok : tok.ret ∈ [lt, gt, plus]) (hFile : file.ret = letterA)
      (h : Redirs ts (redircmd cmd tok.ret file.span) cmd') : Redirs (tok :: file :: ts) cmd cmd'

/-- `(word redir*)*`: the arguments added to a command, and the redirections between them. -/
inductive Args : List Token → Cmd → Cmd → Prop
  | nil (cmd : Cmd) : Args [] cmd cmd
  | cons {tok : Token} {ts us : List Token} {cmd cmd' cmd'' : Cmd} (hTok : tok.ret = letterA)
      (hRedirs : Redirs ts (cmd.addArg tok.span) cmd') (h : Args us cmd' cmd'') :
      Args (tok :: (ts ++ us)) cmd cmd''

/-- `'&'*`: a command sent to the background once for each of them. -/
inductive Backs : List Token → Cmd → Cmd → Prop
  | nil (cmd : Cmd) : Backs [] cmd cmd
  | cons {tok : Token} {ts : List Token} {cmd cmd' : Cmd} (hTok : tok.ret = amp)
      (h : Backs ts (.back cmd) cmd') : Backs (tok :: ts) cmd cmd'

inductive Nonterminal where
  | line
  | pipe
  | exec

inductive Derives : Nonterminal → List Token → Cmd → Prop
  | line {ts us : List Token} {cmd cmd' : Cmd} (hPipe : Derives .pipe ts cmd)
      (hBacks : Backs us cmd cmd') : Derives .line (ts ++ us) cmd'
  | list {ts us vs : List Token} {tok : Token} {cmd cmd' right : Cmd}
      (hPipe : Derives .pipe ts cmd) (hBacks : Backs us cmd cmd') (hTok : tok.ret = semi)
      (hLine : Derives .line vs right) : Derives .line (ts ++ (us ++ tok :: vs)) (.list cmd' right)
  | command {ts : List Token} {cmd : Cmd} (hExec : Derives .exec ts cmd) : Derives .pipe ts cmd
  | pipe {ts us : List Token} {tok : Token} {cmd right : Cmd} (hExec : Derives .exec ts cmd)
      (hTok : tok.ret = bar) (hPipe : Derives .pipe us right) :
      Derives .pipe (ts ++ tok :: us) (.pipe cmd right)
  | block {opening closing : Token} {ts us : List Token} {cmd cmd' : Cmd}
      (hOpen : opening.ret = lparen) (hLine : Derives .line ts cmd) (hClose : closing.ret = rparen)
      (hRedirs : Redirs us cmd cmd') : Derives .exec (opening :: (ts ++ closing :: us)) cmd'
  | exec {ts us : List Token} {cmd cmd' : Cmd} (hRedirs : Redirs ts (.exec []) cmd)
      (hArgs : Args us cmd cmd') : Derives .exec (ts ++ us) cmd'

/-! ## Arguments of a command -/

/-- Every command of the tree has fewer arguments than `MAXARGS`. -/
def Cmd.Small : Cmd → Prop
  | .exec argv => argv.length < maxargs
  | .redir cmd _ _ _ => cmd.Small
  | .pipe left right => left.Small ∧ right.Small
  | .list left right => left.Small ∧ right.Small
  | .back cmd => cmd.Small

def Cmd.argc : Cmd → Option Nat
  | .exec argv => some argv.length
  | .redir cmd _ _ _ => cmd.argc
  | _ => none

theorem Cmd.small_of_argc {cmd : Cmd} {n : Nat} (h : cmd.argc = some n) :
    cmd.Small ↔ n < maxargs := by
  induction cmd with
  | exec argv =>
    cases h
    rfl
  | redir cmd file mode fd ih => exact ih h
  | pipe left right => cases h
  | list left right => cases h
  | back cmd => cases h

theorem Cmd.argc_addArg (cmd : Cmd) (a : Span) : (cmd.addArg a).argc = cmd.argc.map (· + 1) := by
  induction cmd with
  | exec argv => simp [addArg, argc]
  | redir cmd file mode fd ih => exact ih
  | pipe left right => rfl
  | list left right => rfl
  | back cmd => rfl

theorem argc_redircmd (cmd : Cmd) (tok : UInt8) (file : Span) :
    (redircmd cmd tok file).argc = cmd.argc := by
  simp only [redircmd]
  split <;> [rfl; split <;> [rfl; split <;> rfl]]

theorem small_redircmd (cmd : Cmd) (tok : UInt8) (file : Span) :
    (redircmd cmd tok file).Small ↔ cmd.Small := by
  simp only [redircmd]
  split <;> [rfl; split <;> [rfl; split <;> rfl]]

theorem Redirs.argc_eq {ts : List Token} {cmd cmd' : Cmd} (h : Redirs ts cmd cmd') :
    cmd'.argc = cmd.argc := by
  induction h with
  | nil cmd => rfl
  | cons hTok hFile h ih => rw [ih, argc_redircmd]

theorem Redirs.small_iff {ts : List Token} {cmd cmd' : Cmd} (h : Redirs ts cmd cmd') :
    cmd'.Small ↔ cmd.Small := by
  induction h with
  | nil cmd => rfl
  | cons hTok hFile h ih => rw [ih, small_redircmd]

theorem Backs.small_iff {ts : List Token} {cmd cmd' : Cmd} (h : Backs ts cmd cmd') :
    cmd'.Small ↔ cmd.Small := by
  induction h with
  | nil cmd => rfl
  | cons hTok h ih => exact ih

theorem Args.argc_le {ts : List Token} {cmd cmd' : Cmd} (h : Args ts cmd cmd') {n : Nat}
    (hArgc : cmd.argc = some n) : ∃ m, cmd'.argc = some m ∧ n ≤ m := by
  induction h generalizing n with
  | nil cmd => exact ⟨n, hArgc, le_rfl⟩
  | cons hTok hRedirs h ih =>
    have hMore := hRedirs.argc_eq
    rw [Cmd.argc_addArg, hArgc, Option.map_some] at hMore
    obtain ⟨m, hm, hle⟩ := ih hMore
    exact ⟨m, hm, by omega⟩

/-! ## Strings of a command -/

def Cmd.strings : Cmd → List Span
  | .exec argv => argv
  | .redir cmd file _ _ => cmd.strings ++ [file]
  | .pipe left right => left.strings ++ right.strings
  | .list left right => left.strings ++ right.strings
  | .back cmd => cmd.strings

def words (ts : List Token) : List Span := (ts.filter (·.ret = letterA)).map (·.span)

@[simp] theorem words_nil : words [] = [] := rfl

theorem words_cons_word {t : Token} (h : t.ret = letterA) (ts : List Token) :
    words (t :: ts) = t.span :: words ts := by
  simp [words, h]

theorem words_cons_symbol {t : Token} (h : t.ret ≠ letterA) (ts : List Token) :
    words (t :: ts) = words ts := by
  simp [words, h]

@[simp] theorem words_append (ts us : List Token) : words (ts ++ us) = words ts ++ words us := by
  simp [words]

theorem strings_redircmd (cmd : Cmd) {tok : UInt8} (hTok : tok ∈ [lt, gt, plus]) (file : Span) :
    (redircmd cmd tok file).strings = cmd.strings ++ [file] := by
  simp only [List.mem_cons, List.not_mem_nil, or_false] at hTok
  obtain rfl | rfl | rfl := hTok
  · rfl
  · rfl
  · rfl

theorem Cmd.strings_addArg {cmd : Cmd} {n : Nat} (h : cmd.argc = some n) (a : Span) :
    (cmd.addArg a).strings.Perm (cmd.strings ++ [a]) := by
  induction cmd with
  | exec argv => rfl
  | redir cmd file mode fd ih =>
    have hSwap : (cmd.strings ++ ([a] ++ [file])).Perm (cmd.strings ++ ([file] ++ [a])) :=
      List.perm_append_comm.append_left cmd.strings
    simp only [addArg, strings]
    refine ((ih h).append_right [file]).trans ?_
    rw [List.append_assoc, List.append_assoc]
    exact hSwap
  | pipe left right => cases h
  | list left right => cases h
  | back cmd => cases h

theorem Redirs.strings {ts : List Token} {cmd cmd' : Cmd} (h : Redirs ts cmd cmd') :
    cmd'.strings = cmd.strings ++ words ts := by
  induction h with
  | nil cmd => rw [words_nil, List.append_nil]
  | @cons tok file ts cmd cmd' hTok hFile h ih =>
    have hSymbol : tok.ret ≠ letterA := by
      intro hWord
      rw [hWord] at hTok
      exact absurd hTok (by decide)
    rw [ih, strings_redircmd cmd hTok, words_cons_symbol hSymbol, words_cons_word hFile,
      List.append_assoc, List.singleton_append]

theorem Args.strings {ts : List Token} {cmd cmd' : Cmd} (h : Args ts cmd cmd') {n : Nat}
    (hArgc : cmd.argc = some n) : cmd'.strings.Perm (cmd.strings ++ words ts) := by
  induction h generalizing n with
  | nil cmd => rw [words_nil, List.append_nil]
  | @cons tok ts us cmd cmd' cmd'' hTok hRedirs h ih =>
    have hMore := hRedirs.argc_eq
    rw [Cmd.argc_addArg, hArgc, Option.map_some] at hMore
    have hArg := (Cmd.strings_addArg hArgc tok.span).append_right (words ts ++ words us)
    refine (ih hMore).trans ?_
    rw [hRedirs.strings, words_cons_word hTok, words_append, List.append_assoc]
    rw [List.append_assoc, List.singleton_append] at hArg
    exact hArg

theorem Backs.strings {ts : List Token} {cmd cmd' : Cmd} (h : Backs ts cmd cmd') :
    cmd'.strings = cmd.strings ∧ words ts = [] := by
  induction h with
  | nil cmd => exact ⟨rfl, rfl⟩
  | @cons tok ts cmd cmd' hTok h ih =>
    have hSymbol : tok.ret ≠ letterA := by
      rw [hTok]
      decide
    rw [words_cons_symbol hSymbol]
    exact ih

theorem Derives.strings {N : Nonterminal} {ts : List Token} {cmd : Cmd} (h : Derives N ts cmd) :
    cmd.strings.Perm (words ts) := by
  induction h with
  | line hPipe hBacks ih =>
    rw [words_append, hBacks.strings.1, hBacks.strings.2, List.append_nil]
    exact ih
  | @list ts us vs tok cmd cmd' right hPipe hBacks hTok hLine ihPipe ihLine =>
    have hSymbol : tok.ret ≠ letterA := by
      rw [hTok]
      decide
    rw [words_append, words_append, words_cons_symbol hSymbol, hBacks.strings.2, List.nil_append,
      Cmd.strings, hBacks.strings.1]
    exact ihPipe.append ihLine
  | command hExec ih => exact ih
  | @pipe ts us tok cmd right hExec hTok hPipe ihExec ihPipe =>
    have hSymbol : tok.ret ≠ letterA := by
      rw [hTok]
      decide
    rw [words_append, words_cons_symbol hSymbol, Cmd.strings]
    exact ihExec.append ihPipe
  | @block opening closing ts us cmd cmd' hOpen hLine hClose hRedirs ih =>
    have hLeft : opening.ret ≠ letterA := by
      rw [hOpen]
      decide
    have hRight : closing.ret ≠ letterA := by
      rw [hClose]
      decide
    rw [words_cons_symbol hLeft, words_append, words_cons_symbol hRight, hRedirs.strings]
    exact ih.append_right (words us)
  | @exec ts us cmd cmd' hRedirs hArgs =>
    have hArgc : cmd.argc = some 0 := hRedirs.argc_eq
    have hStrings := hArgs.strings hArgc
    rw [hRedirs.strings] at hStrings
    rw [words_append]
    exact hStrings

end Xv6Rpi.Shell
