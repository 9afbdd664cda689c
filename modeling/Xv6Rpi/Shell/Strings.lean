import Xv6Rpi.Shell.Parse

/-! # The strings of a command

A word goes on as long as its characters are those of words, so the character at the end of a
word, which `nulterminate` clears, is in no other word.
-/

namespace Xv6Rpi.Shell

/-! ## Pointers into the line -/

theorem skip_suffix (s : Ptr) : skip s <:+ s := List.dropWhile_suffix _

theorem scan_suffix (q : Ptr) : (scan q).2 <:+ q := by
  cases q with
  | nil => exact List.suffix_rfl
  | cons c q =>
    simp only [scan]
    split
    · exact List.suffix_cons c q
    · split
      · split
        · exact (List.tail_suffix q).trans (List.suffix_cons c q)
        · exact List.suffix_cons c q
      · exact List.dropWhile_suffix _

theorem gettoken_suffix (s : Ptr) : (gettoken s).2 <:+ s :=
  (skip_suffix _).trans ((scan_suffix _).trans (skip_suffix s))

theorem scan_word {q : Ptr} (h : (scan q).1 = letterA) : (scan q).2 = q.dropWhile inWord := by
  cases q with
  | nil => rfl
  | cons c q =>
    revert h
    simp only [scan]
    split
    · next hOps =>
      intro h
      have hChar : c = letterA := h
      rw [hChar] at hOps
      exact absurd hOps (by decide)
    · split
      · split
        · exact fun h => absurd h (by decide : plus ≠ letterA)
        · exact fun h => absurd h (by decide : gt ≠ letterA)
      · exact fun _ => rfl

/-- The string from `q` to `eq`, without the character at `eq`. -/
def Span.text (a : Span) : List UInt8 := a.q.takeWhile inWord

structure Span.Word (line : Ptr) (a : Span) : Prop where
  suffix : a.q <:+ line
  eq_end : a.eq = a.q.dropWhile inWord

theorem Span.Word.text_append {line : Ptr} {a : Span} (h : a.Word line) : a.q = a.text ++ a.eq := by
  rw [h.eq_end]
  exact List.takeWhile_append_dropWhile.symm

theorem tokens_word (line : Ptr) : ∀ s : Ptr, s <:+ line →
    ∀ t ∈ tokens s, t.ret = letterA → t.span.Word line := by
  intro s
  induction s using tokens.induct with
  | case1 s hEnd =>
    intro _ t ht
    rw [tokens_of_end hEnd] at ht
    exact absurd ht List.not_mem_nil
  | case2 s hRet ih =>
    intro hSuffix t ht hWord
    rw [tokens_of_ne hRet] at ht
    obtain rfl | ht := List.mem_cons.mp ht
    · exact ⟨(skip_suffix s).trans hSuffix, scan_word hWord⟩
    · exact ih ((gettoken_suffix s).trans hSuffix) t ht hWord

theorem words_word {line : Ptr} {a : Span} (h : a ∈ words (tokens line)) : a.Word line := by
  obtain ⟨t, ht, rfl⟩ := List.mem_map.mp h
  rw [List.mem_filter, decide_eq_true_eq] at ht
  exact tokens_word line line List.suffix_rfl t ht.1 ht.2

theorem memory_address {line p : Ptr} (h : p <:+ line) (j : Nat) :
    memory line (address line p + j) = p.getD j 0 := by
  obtain ⟨before, rfl⟩ := h
  have hLength : address (before ++ p) p = before.length := by
    simp [address]
  rw [hLength, memory, List.getD_eq_getElem?_getD, List.getD_eq_getElem?_getD,
    List.getElem?_append_right (Nat.le_add_right _ _), Nat.add_sub_cancel_left]

/-! ## Termination of the strings -/

theorem clear_apply (line : Ptr) (mem : Nat → UInt8) (p : Ptr) (i : Nat) :
    clear line mem p i = if i = address line p then 0 else mem i := by
  simp only [clear, Function.update_apply]

theorem foldl_clear (line : Ptr) (argv : List Span) (mem : Nat → UInt8) (i : Nat) :
    argv.foldl (fun mem a => clear line mem a.eq) mem i =
      if ∃ a ∈ argv, i = address line a.eq then 0 else mem i := by
  induction argv generalizing mem with
  | nil => simp
  | cons a argv ih =>
    rw [List.foldl_cons, ih, clear_apply]
    by_cases hRest : ∃ b ∈ argv, i = address line b.eq
    · obtain ⟨b, hb, hi⟩ := hRest
      rw [if_pos ⟨b, hb, hi⟩, if_pos ⟨b, List.mem_cons_of_mem a hb, hi⟩]
    · rw [if_neg hRest]
      by_cases ha : i = address line a.eq
      · rw [if_pos ha, if_pos ⟨a, List.mem_cons_self, ha⟩]
      · rw [if_neg ha, if_neg]
        rintro ⟨b, hb, hi⟩
        obtain rfl | hb := List.mem_cons.mp hb
        · exact ha hi
        · exact hRest ⟨b, hb, hi⟩

theorem nulterminate_apply (line : Ptr) (cmd : Cmd) (mem : Nat → UInt8) (i : Nat) :
    nulterminate line cmd mem i =
      if ∃ a ∈ cmd.strings, i = address line a.eq then 0 else mem i := by
  induction cmd generalizing mem with
  | exec argv => exact foldl_clear line argv mem i
  | redir cmd file mode fd ih =>
    rw [nulterminate, clear_apply, ih]
    simp only [Cmd.strings, List.mem_append, List.mem_singleton, or_and_right, exists_or,
      exists_eq_left]
    by_cases hFile : i = address line file.eq
    · simp [hFile]
    · simp [hFile]
  | pipe left right ihLeft ihRight =>
    rw [nulterminate, ihRight, ihLeft]
    simp only [Cmd.strings, List.mem_append, or_and_right, exists_or, ite_or]
    split
    · simp
    · rfl
  | list left right ihLeft ihRight =>
    rw [nulterminate, ihRight, ihLeft]
    simp only [Cmd.strings, List.mem_append, or_and_right, exists_or, ite_or]
    split
    · simp
    · rfl
  | back cmd ih => exact ih mem

structure StringAt (mem : Nat → UInt8) (i : Nat) (text : List UInt8) : Prop where
  chars : ∀ (j : Nat) (hj : j < text.length), mem (i + j) = text[j]
  nul : mem (i + text.length) = 0
  noNul : 0 ∉ text

theorem Span.Word.address_eq {line : Ptr} {a : Span} (h : a.Word line) :
    address line a.eq = address line a.q + a.text.length := by
  have hLength := congrArg List.length h.text_append
  have hLe := h.suffix.length_le
  rw [List.length_append] at hLength
  simp only [address]
  omega

theorem Span.Word.chars_apart {line : Ptr} {a b : Span} (ha : a.Word line) (hb : b.Word line)
    {j : Nat} (hj : j < a.text.length) : address line a.q + j ≠ address line b.eq := by
  intro hEq
  have hMem := memory_address ha.suffix j
  have hSuffix : b.eq <:+ line := by
    rw [hb.eq_end]
    exact (List.dropWhile_suffix _).trans hb.suffix
  have hChar : a.q[j]? = some a.text[j] := by
    rw [ha.text_append, List.getElem?_append_left hj, List.getElem?_eq_getElem hj]
  have hIn : inWord a.text[j] = true := List.mem_takeWhile_imp (List.getElem_mem hj)
  cases hTail : b.eq with
  | nil =>
    -- the end of the line is behind every character
    have hLength := congrArg List.length ha.text_append
    have hLe := ha.suffix.length_le
    rw [List.length_append] at hLength
    rw [hTail] at hEq
    simp only [address, List.length_nil] at hEq
    omega
  | cons c q =>
    have hOut := List.head?_dropWhile_not inWord b.q
    rw [← hb.eq_end, hTail] at hOut
    have hHere := memory_address hSuffix 0
    rw [Nat.add_zero, ← hEq, hMem, hTail, List.getD_eq_getElem?_getD, hChar] at hHere
    have hSame : a.text[j] = c := hHere
    rw [hSame] at hIn
    exact absurd hIn (by rw [hOut]; exact Bool.false_ne_true)

theorem stringAt_nulterminate {line : Ptr} {cmd : Cmd} (hLine : 0 ∉ line)
    (hWords : ∀ a ∈ cmd.strings, a.Word line) {a : Span} (ha : a ∈ cmd.strings) :
    StringAt (nulterminate line cmd (memory line)) (address line a.q) a.text := by
  have hWord := hWords a ha
  constructor
  · intro j hj
    rw [nulterminate_apply, if_neg, memory_address hWord.suffix, hWord.text_append,
      List.getD_eq_getElem?_getD, List.getElem?_append_left hj, List.getElem?_eq_getElem hj]
    · rfl
    · rintro ⟨b, hb, hEq⟩
      exact hWord.chars_apart (hWords b hb) hj hEq
  · rw [nulterminate_apply, if_pos ⟨a, ha, hWord.address_eq.symm⟩]
  · intro hZero
    exact hLine (hWord.suffix.subset ((List.takeWhile_prefix _).subset hZero))

/-! ## The parser -/

theorem zero_not_mem_strz (s : List UInt8) : 0 ∉ strz s := by
  intro h
  have hNe := List.mem_takeWhile_imp h
  exact absurd hNe (by decide)

theorem parsecmd_eq (s : List UInt8) :
    parsecmd s = parseline (4 * (strz s).length + 4) (strz s) >>= fun r =>
      if skip r.2 = [] then .ok (r.1, nulterminate (strz s) r.1 (memory (strz s)))
      else .error .leftovers := by
  rw [parsecmd]
  congr 1
  funext ⟨cmd, rest⟩
  by_cases hEnd : skip rest = []
  · rw [if_pos hEnd]
    exact if_neg (not_not_intro hEnd)
  · rw [if_neg hEnd]
    exact if_pos hEnd

theorem Derives.words {line : Ptr} {cmd : Cmd} (h : Derives .line (tokens line) cmd) :
    ∀ a ∈ cmd.strings, a.Word line :=
  fun _ ha => words_word (h.strings.subset ha)

/-- Whatever the buffer holds, `parsecmd` returns: the tree of a derivation of the tokens of the
line, with few enough arguments in each command, where there is one, and none otherwise. -/
theorem parsecmd_eq_ok_iff (s : List UInt8) (cmd : Cmd) (mem : Nat → UInt8) :
    parsecmd s = .ok (cmd, mem) ↔
      Accepted .line (tokens (strz s)) cmd ∧
        mem = nulterminate (strz s) cmd (memory (strz s)) := by
  have hSound := (soundAt (4 * (strz s).length + 4)).line (strz s) le_rfl
  constructor
  · intro h
    rw [parsecmd_eq] at h
    cases hRes : parseline (4 * (strz s).length + 4) (strz s) with
    | error f =>
      rw [hRes] at h
      cases h
    | ok r =>
      rw [hRes] at h hSound
      obtain ⟨-, ts, hTokens, hCmd⟩ := hSound
      simp only [bind, Except.bind] at h
      split at h
      · next hEnd =>
        rw [tokens_eq_nil.mpr hEnd, List.append_nil] at hTokens
        rw [← hTokens] at hCmd
        cases h
        exact ⟨hCmd, rfl⟩
      · cases h
  · rintro ⟨⟨hDerives, hSmall⟩, rfl⟩
    obtain ⟨rest, hRes, -, hTokens⟩ := hDerives.complete hSmall (4 * (strz s).length + 4) (strz s) []
      le_rfl (List.append_nil _).symm (by decide)
    simp only [Nonterminal.parse] at hRes
    rw [parsecmd_eq, hRes]
    exact if_pos (tokens_eq_nil.mp hTokens)

theorem parsecmd_ne_unending (s : List UInt8) : parsecmd s ≠ .error .unending := by
  have hSound := (soundAt (4 * (strz s).length + 4)).line (strz s) le_rfl
  intro h
  rw [parsecmd_eq] at h
  cases hRes : parseline (4 * (strz s).length + 4) (strz s) with
  | error f =>
    rw [hRes] at h hSound
    simp only [bind, Except.bind, Except.error.injEq] at h
    exact hSound h
  | ok r =>
    rw [hRes] at h
    simp only [bind, Except.bind] at h
    split at h
    · cases h
    · cases h

/-- The parser returns for every line, with a tree if and only if the tokens of the line are
derived by the grammar, and the tree is that of the derivation; the strings of the tree are the
words of the line, each of them at its place and undamaged. -/
theorem parsecmd_exact (s : List UInt8) :
    parsecmd s ≠ .error .unending ∧
      (∀ cmd, (∃ mem, parsecmd s = .ok (cmd, mem)) ↔
        Derives .line (tokens (strz s)) cmd ∧ cmd.Small) ∧
      ∀ cmd mem, parsecmd s = .ok (cmd, mem) →
        cmd.strings.Perm (words (tokens (strz s))) ∧
          ∀ a ∈ cmd.strings, StringAt mem (address (strz s) a.q) a.text := by
  refine ⟨parsecmd_ne_unending s, ?_, ?_⟩
  · intro cmd
    constructor
    · rintro ⟨mem, h⟩
      exact ((parsecmd_eq_ok_iff s cmd mem).mp h).1
    · intro h
      exact ⟨_, (parsecmd_eq_ok_iff s cmd _).mpr ⟨h, rfl⟩⟩
  · intro cmd mem h
    obtain ⟨⟨hDerives, -⟩, rfl⟩ := (parsecmd_eq_ok_iff s cmd mem).mp h
    exact ⟨hDerives.strings,
      fun a ha => stringAt_nulterminate (zero_not_mem_strz s) hDerives.words ha⟩

end Xv6Rpi.Shell
