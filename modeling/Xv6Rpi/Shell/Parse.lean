import Xv6Rpi.Shell.Grammar

/-! # The parser accepts its grammar

Both directions at every input. What a function of the parser returns comes with a derivation of
the tokens it has read; and where the tokens begin with a derivation, and go on with a token that
may follow it, the function returns the command of the derivation.
-/

namespace Xv6Rpi.Shell

/-! ## The functions of the parser by the next token -/

theorem parseredirs_succ (n : Nat) (cmd : Cmd) (s : Ptr) :
    parseredirs (n + 1) cmd s =
      if first (tokens s) ∈ [lt, gt] then
        if (gettoken (gettoken s).2).1.ret ≠ letterA then .error .missingFile
        else parseredirs n
          (redircmd cmd (gettoken s).1.ret (gettoken (gettoken s).2).1.span)
          (gettoken (gettoken s).2).2
      else .ok (cmd, skip s) := by
  rw [parseredirs, peek_eq s (by decide)]
  simp only [gettoken_skip, decide_eq_true_eq]

theorem parseargs_succ (n argc : Nat) (cmd : Cmd) (s : Ptr) :
    parseargs (n + 1) argc cmd s =
      if first (tokens s) ∈ [bar, rparen, amp, semi] then .ok (cmd, skip s)
      else if (gettoken s).1.ret = 0 then .ok (cmd, (gettoken s).2)
      else if (gettoken s).1.ret ≠ letterA then .error .badToken
      else if maxargs ≤ argc + 1 then .error .tooManyArgs
      else parseredirs n (cmd.addArg (gettoken s).1.span) (gettoken s).2 >>=
        fun r => parseargs n (argc + 1) r.1 r.2 := by
  rw [parseargs, peek_eq s (by decide)]
  simp only [gettoken_skip, decide_eq_true_eq]

theorem parsebacks_succ (n : Nat) (cmd : Cmd) (s : Ptr) :
    parsebacks (n + 1) cmd s =
      if first (tokens s) ∈ [amp] then parsebacks n (.back cmd) (gettoken s).2
      else .ok (cmd, skip s) := by
  rw [parsebacks, peek_eq s (by decide)]
  simp only [gettoken_skip, decide_eq_true_eq]

theorem parseline_succ (n : Nat) (s : Ptr) :
    parseline (n + 1) s =
      parsepipe n s >>= fun r => parsebacks n r.1 r.2 >>= fun r =>
        if first (tokens r.2) ∈ [semi] then
          parseline n (gettoken r.2).2 >>= fun q => .ok (.list r.1 q.1, q.2)
        else .ok (r.1, skip r.2) := by
  rw [parseline]
  congr 1
  funext ⟨cmd, s⟩
  dsimp only
  congr 1
  funext ⟨cmd, s⟩
  dsimp only
  rw [peek_eq s (by decide)]
  simp only [gettoken_skip, decide_eq_true_eq]
  rfl

theorem parsepipe_succ (n : Nat) (s : Ptr) :
    parsepipe (n + 1) s =
      parseexec n s >>= fun r =>
        if first (tokens r.2) ∈ [bar] then
          parsepipe n (gettoken r.2).2 >>= fun q => .ok (.pipe r.1 q.1, q.2)
        else .ok (r.1, skip r.2) := by
  rw [parsepipe]
  congr 1
  funext r
  dsimp only
  rw [peek_eq r.2 (by decide)]
  simp only [gettoken_skip, decide_eq_true_eq]
  rfl

theorem parseexec_succ (n : Nat) (s : Ptr) :
    parseexec (n + 1) s =
      if first (tokens s) ∈ [lparen] then parseblock n (skip s)
      else parseredirs n (.exec []) (skip s) >>= fun r => parseargs n 0 r.1 r.2 := by
  rw [parseexec, peek_eq s (by decide)]
  simp only [decide_eq_true_eq]

theorem parseblock_succ (n : Nat) (s : Ptr) :
    parseblock (n + 1) s =
      if first (tokens s) ∈ [lparen] then
        parseline n (gettoken s).2 >>= fun r =>
          if first (tokens r.2) ∈ [rparen] then parseredirs n r.1 (gettoken r.2).2
          else .error .missingParen
      else .error .parseblock := by
  rw [parseblock, peek_eq s (by decide)]
  by_cases hBlock : first (tokens s) ∈ [lparen]
  · rw [if_pos hBlock]
    simp only [hBlock, decide_true, Bool.not_true, Bool.false_eq_true, if_false, gettoken_skip]
    congr 1
    funext ⟨cmd, s⟩
    rw [peek_eq s (by decide)]
    by_cases hClosed : first (tokens s) ∈ [rparen]
    · simp [hClosed, gettoken_skip]
    · simp [hClosed]
  · rw [if_neg hBlock]
    simp [hBlock]

/-! ## What has been parsed has a derivation -/

/-- A call at `s` has not run out of turns, and a command it has returned is one of the tokens up
to where it has stopped. -/
def Sound (P : List Token → Cmd → Prop) (s : Ptr) : Parsed → Prop
  | .error f => f ≠ .unending
  | .ok (cmd, s') => s'.length ≤ s.length ∧ ∃ ts, tokens s = ts ++ tokens s' ∧ P ts cmd

variable {P Q : List Token → Cmd → Prop} {s : Ptr}

theorem Sound.ok_skip {cmd : Cmd} (h : P [] cmd) : Sound P s (.ok (cmd, skip s)) :=
  ⟨skip_length_le s, [], (tokens_skip s).symm, h⟩

theorem Sound.mono {r : Parsed} (h : Sound P s r) (hImp : ∀ ts cmd, P ts cmd → Q ts cmd) :
    Sound Q s r := by
  cases r with
  | error f => exact h
  | ok r =>
    obtain ⟨hLength, ts, hTokens, hCmd⟩ := h
    exact ⟨hLength, ts, hTokens, hImp ts r.1 hCmd⟩

theorem Sound.skip {r : Parsed} (h : Sound P (skip s) r) : Sound P s r := by
  cases r with
  | error f => exact h
  | ok r =>
    obtain ⟨hLength, ts, hTokens, hCmd⟩ := h
    rw [tokens_skip] at hTokens
    exact ⟨hLength.trans (skip_length_le s), ts, hTokens, hCmd⟩

theorem Sound.bind {r : Parsed} {f : Cmd × Ptr → Parsed} (h : Sound P s r)
    (hNext : ∀ ts cmd s', s'.length ≤ s.length → P ts cmd →
      Sound (fun us cmd' => Q (ts ++ us) cmd') s' (f (cmd, s'))) : Sound Q s (r >>= f) := by
  cases r with
  | error f => exact h
  | ok r =>
    obtain ⟨hLength, ts, hTokens, hCmd⟩ := h
    have hThen := hNext ts r.1 r.2 hLength hCmd
    change Sound Q s (f (r.1, r.2))
    cases hRes : f (r.1, r.2) with
    | error e =>
      rw [hRes] at hThen
      exact hThen
    | ok q =>
      rw [hRes] at hThen
      obtain ⟨hLength', us, hTokens', hCmd'⟩ := hThen
      refine ⟨hLength'.trans hLength, ts ++ us, ?_, hCmd'⟩
      rw [hTokens, hTokens', List.append_assoc]

theorem Sound.token {t : Token} {us : List Token} {r : Parsed} (hTokens : tokens s = t :: us)
    (h : Sound (fun ts cmd => P (t :: ts) cmd) (gettoken s).2 r) : Sound P s r := by
  obtain ⟨-, hRest, hLess⟩ := tokens_eq_cons hTokens
  cases r with
  | error f => exact h
  | ok r =>
    obtain ⟨hLength, ts, hTokens', hCmd⟩ := h
    refine ⟨hLength.trans hLess.le, t :: ts, ?_, hCmd⟩
    rw [hTokens, List.cons_append, ← hTokens', hRest]

theorem exists_cons_of_first {ts : List Token} {toks : List UInt8} (h : first ts ∈ toks)
    (hZero : 0 ∉ toks) : ∃ t us, ts = t :: us := by
  cases ts with
  | nil => exact absurd h hZero
  | cons t us => exact ⟨t, us, rfl⟩

theorem ret_of_first {t : Token} {ts : List Token} {c : UInt8} (h : first (t :: ts) = c)
    (hGt : c ≠ gt) : t.ret = c := by
  simp only [first] at h
  split at h
  · exact absurd h.symm hGt
  · exact h

theorem ret_redir {t : Token} {ts : List Token} (h : first (t :: ts) ∈ [lt, gt]) :
    t.ret ∈ [lt, gt, plus] := by
  simp only [first] at h
  simp only [List.mem_cons, List.not_mem_nil, or_false] at h ⊢
  split at h
  · next hPlus => exact .inr (.inr hPlus)
  · obtain hLt | hGt := h
    · exact .inl hLt
    · exact .inr (.inl hGt)

theorem tokens_of_ret {s : Ptr} {c : UInt8} (h : (gettoken s).1.ret = c) (hc : c ≠ 0) :
    tokens s = (gettoken s).1 :: tokens (gettoken s).2 :=
  tokens_of_ne (by rwa [h])

theorem tokens_nil : tokens [] = [] := tokens_eq_nil.mpr rfl

theorem gettoken_end {s : Ptr} (h : (gettoken s).1.ret = 0) :
    tokens s = [] ∧ (gettoken s).2 = [] := by
  have hTokens := tokens_of_end h
  refine ⟨hTokens, ?_⟩
  rw [gettoken_rest, tokens_eq_nil.mp hTokens]
  rfl

theorem parseredirs_sound (n : Nat) (cmd : Cmd) (s : Ptr) (hTurns : s.length < n) :
    Sound (fun ts cmd' => Redirs ts cmd cmd') s (parseredirs n cmd s) := by
  induction n generalizing cmd s with
  | zero => exact absurd hTurns (Nat.not_lt_zero _)
  | succ n ih =>
    rw [parseredirs_succ]
    split
    · next hMore =>
      obtain ⟨tok, us, hTokens⟩ := exists_cons_of_first hMore (by decide)
      obtain ⟨hTok, hRest, hLess⟩ := tokens_eq_cons hTokens
      rw [hTokens] at hMore
      rw [hTok]
      split
      · exact Failure.noConfusion
      · next hFile =>
        have hWord : (gettoken (gettoken s).2).1.ret = letterA := Decidable.of_not_not hFile
        have hTokens' := tokens_of_ret hWord (by decide)
        have hLess' := (tokens_eq_cons hTokens').2.2
        apply Sound.token hTokens
        apply Sound.token hTokens'
        refine (ih _ _ (by omega)).mono ?_
        intro ts cmd' hRedirs
        exact .cons (ret_redir hMore) hWord hRedirs
    · exact Sound.ok_skip (.nil cmd)

theorem parsebacks_sound (n : Nat) (cmd : Cmd) (s : Ptr) (hTurns : s.length < n) :
    Sound (fun ts cmd' => Backs ts cmd cmd') s (parsebacks n cmd s) := by
  induction n generalizing cmd s with
  | zero => exact absurd hTurns (Nat.not_lt_zero _)
  | succ n ih =>
    rw [parsebacks_succ]
    split
    · next hMore =>
      obtain ⟨tok, us, hTokens⟩ := exists_cons_of_first hMore (by decide)
      obtain ⟨-, -, hLess⟩ := tokens_eq_cons hTokens
      rw [hTokens] at hMore
      have hTok := ret_of_first (List.mem_singleton.mp hMore) (by decide)
      apply Sound.token hTokens
      refine (ih (.back cmd) _ (by omega)).mono ?_
      intro ts cmd' hBacks
      exact .cons hTok hBacks
    · exact Sound.ok_skip (.nil cmd)

theorem parseargs_sound (n argc : Nat) (cmd : Cmd) (s : Ptr) (hTurns : s.length < n)
    (hArgc : cmd.argc = some argc) (hSmall : argc < maxargs) :
    Sound (fun ts cmd' => Args ts cmd cmd' ∧ cmd'.Small) s (parseargs n argc cmd s) := by
  induction n generalizing argc cmd s with
  | zero => exact absurd hTurns (Nat.not_lt_zero _)
  | succ n ih =>
    have hDone : Args [] cmd cmd ∧ cmd.Small := ⟨.nil cmd, (Cmd.small_of_argc hArgc).mpr hSmall⟩
    rw [parseargs_succ]
    split
    · exact Sound.ok_skip hDone
    · split
      · next hEnd =>
        obtain ⟨hTokens, hRest⟩ := gettoken_end hEnd
        rw [hRest]
        refine ⟨Nat.zero_le _, [], ?_, hDone⟩
        rw [hTokens, tokens_nil, List.append_nil]
      · split
        · exact Failure.noConfusion
        · next hTok =>
          split
          · exact Failure.noConfusion
          · next hRoom =>
            have hWord : (gettoken s).1.ret = letterA := Decidable.of_not_not hTok
            have hTokens := tokens_of_ret hWord (by decide)
            have hLess := (tokens_eq_cons hTokens).2.2
            apply Sound.token hTokens
            refine (parseredirs_sound n _ _ (by omega)).bind ?_
            intro ts cmd' s' hLength hRedirs
            have hMore := hRedirs.argc_eq
            rw [Cmd.argc_addArg, hArgc, Option.map_some] at hMore
            refine (ih (argc + 1) cmd' s' (by omega) hMore (by omega)).mono ?_
            rintro us cmd'' ⟨hArgs, hSmall'⟩
            exact ⟨.cons hWord hRedirs hArgs, hSmall'⟩

def Accepted (N : Nonterminal) (ts : List Token) (cmd : Cmd) : Prop := Derives N ts cmd ∧ cmd.Small

structure SoundAt (n : Nat) : Prop where
  line : ∀ s : Ptr, 4 * s.length + 4 ≤ n → Sound (Accepted .line) s (parseline n s)
  pipe : ∀ s : Ptr, 4 * s.length + 3 ≤ n → Sound (Accepted .pipe) s (parsepipe n s)
  exec : ∀ s : Ptr, 4 * s.length + 2 ≤ n → Sound (Accepted .exec) s (parseexec n s)
  block : ∀ s : Ptr, 4 * s.length + 1 ≤ n → Sound (Accepted .exec) s (parseblock n s)

theorem SoundAt.line_succ {n : Nat} (h : SoundAt n) (s : Ptr) (hTurns : 4 * s.length + 4 ≤ n + 1) :
    Sound (Accepted .line) s (parseline (n + 1) s) := by
  rw [parseline_succ]
  refine (h.pipe s (by omega)).bind ?_
  rintro ts cmd s₁ hLength₁ ⟨hPipe, hSmall⟩
  refine (parsebacks_sound n cmd s₁ (by omega)).bind ?_
  intro us cmd' s₂ hLength₂ hBacks
  have hSmall' : cmd'.Small := hBacks.small_iff.mpr hSmall
  dsimp only
  split
  · next hMore =>
    obtain ⟨tok, vs, hTokens⟩ := exists_cons_of_first hMore (by decide)
    have hLess := (tokens_eq_cons hTokens).2.2
    rw [hTokens] at hMore
    have hTok := ret_of_first (List.mem_singleton.mp hMore) (by decide)
    apply Sound.token hTokens
    refine (h.line _ (by omega)).bind ?_
    rintro vs right s₃ - ⟨hLine, hSmallRight⟩
    refine ⟨le_rfl, [], rfl, ?_, hSmall', hSmallRight⟩
    rw [List.append_nil]
    exact .list hPipe hBacks hTok hLine
  · apply Sound.ok_skip
    rw [List.append_nil]
    exact ⟨.line hPipe hBacks, hSmall'⟩

theorem SoundAt.pipe_succ {n : Nat} (h : SoundAt n) (s : Ptr) (hTurns : 4 * s.length + 3 ≤ n + 1) :
    Sound (Accepted .pipe) s (parsepipe (n + 1) s) := by
  rw [parsepipe_succ]
  refine (h.exec s (by omega)).bind ?_
  rintro ts cmd s₁ hLength₁ ⟨hExec, hSmall⟩
  dsimp only
  split
  · next hMore =>
    obtain ⟨tok, us, hTokens⟩ := exists_cons_of_first hMore (by decide)
    have hLess := (tokens_eq_cons hTokens).2.2
    rw [hTokens] at hMore
    have hTok := ret_of_first (List.mem_singleton.mp hMore) (by decide)
    apply Sound.token hTokens
    refine (h.pipe _ (by omega)).bind ?_
    rintro us right s₂ - ⟨hPipe, hSmallRight⟩
    refine ⟨le_rfl, [], rfl, ?_, hSmall, hSmallRight⟩
    rw [List.append_nil]
    exact .pipe hExec hTok hPipe
  · apply Sound.ok_skip
    rw [List.append_nil]
    exact ⟨.command hExec, hSmall⟩

theorem SoundAt.exec_succ {n : Nat} (h : SoundAt n) (s : Ptr) (hTurns : 4 * s.length + 2 ≤ n + 1) :
    Sound (Accepted .exec) s (parseexec (n + 1) s) := by
  have hSkip := skip_length_le s
  rw [parseexec_succ]
  apply Sound.skip
  split
  · exact h.block _ (by omega)
  · refine (parseredirs_sound n _ _ (by omega)).bind ?_
    intro ts cmd s₁ hLength₁ hRedirs
    have hArgc : cmd.argc = some 0 := hRedirs.argc_eq
    refine (parseargs_sound n 0 cmd s₁ (by omega) hArgc (by decide)).mono ?_
    rintro us cmd' ⟨hArgs, hSmall⟩
    exact ⟨.exec hRedirs hArgs, hSmall⟩

theorem SoundAt.block_succ {n : Nat} (h : SoundAt n) (s : Ptr)
    (hTurns : 4 * s.length + 1 ≤ n + 1) : Sound (Accepted .exec) s (parseblock (n + 1) s) := by
  rw [parseblock_succ]
  split
  · next hBlock =>
    obtain ⟨opening, us, hTokens⟩ := exists_cons_of_first hBlock (by decide)
    have hLess := (tokens_eq_cons hTokens).2.2
    rw [hTokens] at hBlock
    have hOpen := ret_of_first (List.mem_singleton.mp hBlock) (by decide)
    apply Sound.token hTokens
    refine (h.line _ (by omega)).bind ?_
    rintro ts cmd s₁ hLength₁ ⟨hLine, hSmall⟩
    dsimp only
    split
    · next hClosed =>
      obtain ⟨closing, vs, hTokens₁⟩ := exists_cons_of_first hClosed (by decide)
      have hLess₁ := (tokens_eq_cons hTokens₁).2.2
      rw [hTokens₁] at hClosed
      have hClose := ret_of_first (List.mem_singleton.mp hClosed) (by decide)
      apply Sound.token hTokens₁
      refine (parseredirs_sound n cmd _ (by omega)).mono ?_
      intro us cmd' hRedirs
      exact ⟨.block hOpen hLine hClose hRedirs, hRedirs.small_iff.mpr hSmall⟩
    · exact Failure.noConfusion
  · exact Failure.noConfusion

theorem soundAt (n : Nat) : SoundAt n := by
  induction n with
  | zero =>
    constructor
    · exact fun s h => absurd h (by omega)
    · exact fun s h => absurd h (by omega)
    · exact fun s h => absurd h (by omega)
    · exact fun s h => absurd h (by omega)
  | succ n ih => exact ⟨ih.line_succ, ih.pipe_succ, ih.exec_succ, ih.block_succ⟩

/-! ## What has a derivation is parsed -/

/-- A call at `s` has returned a command and has left these tokens. -/
def Reads (us : List Token) (cmd : Cmd) (s : Ptr) (r : Parsed) : Prop :=
  ∃ s', r = .ok (cmd, s') ∧ s'.length ≤ s.length ∧ tokens s' = us

variable {ts us vs : List Token} {cmd cmd' : Cmd} {r : Parsed}

theorem Reads.ok_skip (h : tokens s = us) : Reads us cmd s (.ok (cmd, skip s)) := by
  refine ⟨skip s, rfl, skip_length_le s, ?_⟩
  rw [tokens_skip, h]

theorem Reads.skip (h : Reads us cmd (skip s) r) : Reads us cmd s r := by
  obtain ⟨s', hRes, hLength, hTokens⟩ := h
  exact ⟨s', hRes, hLength.trans (skip_length_le s), hTokens⟩

theorem Reads.bind {f : Cmd × Ptr → Parsed} (h : Reads us cmd s r)
    (hNext : ∀ s', s'.length ≤ s.length → tokens s' = us → Reads vs cmd' s' (f (cmd, s'))) :
    Reads vs cmd' s (r >>= f) := by
  obtain ⟨s', rfl, hLength, hTokens⟩ := h
  obtain ⟨s'', hRes, hLength', hTokens'⟩ := hNext s' hLength hTokens
  exact ⟨s'', hRes, hLength'.trans hLength, hTokens'⟩

theorem Reads.token {t : Token} (hTokens : tokens s = t :: us)
    (h : Reads vs cmd (gettoken s).2 r) : Reads vs cmd s r := by
  obtain ⟨s', hRes, hLength, hRest⟩ := h
  exact ⟨s', hRes, hLength.trans (tokens_eq_cons hTokens).2.2.le, hRest⟩

theorem first_of_ret {t : Token} {c : UInt8} (h : t.ret = c) (hc : c ≠ plus) :
    first (t :: ts) = c := by
  rw [first, h, if_neg hc]

theorem first_redir {t : Token} (h : t.ret ∈ [lt, gt, plus]) : first (t :: ts) ∈ [lt, gt] := by
  simp only [List.mem_cons, List.not_mem_nil, or_false] at h
  rw [first]
  obtain hRet | hRet | hRet := h
  · rw [hRet]
    decide
  · rw [hRet]
    decide
  · rw [hRet]
    decide

theorem tokens_of_first_zero (h : first (tokens s) = 0) : tokens s = [] := by
  cases hs : Shell.skip s with
  | nil => exact tokens_eq_nil.mpr hs
  | cons c q =>
    rw [first_tokens_of_skip hs] at h
    split at h
    · next hSymbol =>
      rw [h] at hSymbol
      exact absurd hSymbol (by decide)
    · exact absurd h (by decide)

theorem Redirs.first_append (h : Redirs ts cmd cmd') :
    ts = [] ∨ first (ts ++ us) ∈ [lt, gt] := by
  cases h with
  | nil => exact .inl rfl
  | cons hTok hFile h => exact .inr (first_redir hTok)

theorem Args.first_append (h : Args ts cmd cmd') : ts = [] ∨ first (ts ++ us) = letterA := by
  cases h with
  | nil => exact .inl rfl
  | cons hTok hRedirs h => exact .inr (first_of_ret hTok (by decide))

theorem Backs.first_append (h : Backs ts cmd cmd') : ts = [] ∨ first (ts ++ us) = amp := by
  cases h with
  | nil => exact .inl rfl
  | cons hTok h => exact .inr (first_of_ret hTok (by decide))

theorem parseredirs_complete (h : Redirs ts cmd cmd') {n : Nat} (hTurns : s.length < n)
    (hTokens : tokens s = ts ++ us) (hFollow : first us ∉ [lt, gt]) :
    Reads us cmd' s (parseredirs n cmd s) := by
  induction h generalizing n s with
  | nil cmd =>
    cases n with
    | zero => exact absurd hTurns (Nat.not_lt_zero _)
    | succ n =>
      rw [List.nil_append] at hTokens
      rw [parseredirs_succ, hTokens, if_neg hFollow]
      exact Reads.ok_skip hTokens
  | @cons tok file ts cmd cmd' hTok hFile h ih =>
    cases n with
    | zero => exact absurd hTurns (Nat.not_lt_zero _)
    | succ n =>
      have hTokens₁ : tokens s = tok :: file :: (ts ++ us) := hTokens
      obtain ⟨hTok₁, hTokens₂, hLess₁⟩ := tokens_eq_cons hTokens₁
      obtain ⟨hTok₂, hTokens₃, hLess₂⟩ := tokens_eq_cons hTokens₂
      rw [parseredirs_succ, hTokens₁, if_pos (first_redir hTok), hTok₁, hTok₂,
        if_neg (not_not_intro hFile)]
      apply Reads.token hTokens₁
      apply Reads.token hTokens₂
      exact ih (by omega) hTokens₃

theorem parsebacks_complete (h : Backs ts cmd cmd') {n : Nat} (hTurns : s.length < n)
    (hTokens : tokens s = ts ++ us) (hFollow : first us ≠ amp) :
    Reads us cmd' s (parsebacks n cmd s) := by
  induction h generalizing n s with
  | nil cmd =>
    cases n with
    | zero => exact absurd hTurns (Nat.not_lt_zero _)
    | succ n =>
      rw [List.nil_append] at hTokens
      rw [parsebacks_succ, hTokens, if_neg (fun h => hFollow (List.mem_singleton.mp h))]
      exact Reads.ok_skip hTokens
  | @cons tok ts cmd cmd' hTok h ih =>
    cases n with
    | zero => exact absurd hTurns (Nat.not_lt_zero _)
    | succ n =>
      have hTokens₁ : tokens s = tok :: (ts ++ us) := hTokens
      obtain ⟨-, hTokens₂, hLess⟩ := tokens_eq_cons hTokens₁
      have hFirst : first (tok :: (ts ++ us)) ∈ [amp] :=
        List.mem_singleton.mpr (first_of_ret hTok (by decide))
      rw [parsebacks_succ, hTokens₁, if_pos hFirst]
      apply Reads.token hTokens₁
      exact ih (by omega) hTokens₂

def stops : List UInt8 := [0, bar, rparen, amp, semi]

theorem not_redir_of_stops {c : UInt8} (h : c ∈ stops) : c ∉ [lt, gt] := by
  revert h
  simp only [stops, List.mem_cons, List.not_mem_nil, or_false]
  rintro (rfl | rfl | rfl | rfl | rfl)
  · decide
  · decide
  · decide
  · decide
  · decide

theorem parseargs_complete (h : Args ts cmd cmd') {n argc : Nat} (hTurns : s.length < n)
    (hArgc : cmd.argc = some argc) (hSmall : cmd'.Small) (hTokens : tokens s = ts ++ us)
    (hFollow : first us ∈ stops) : Reads us cmd' s (parseargs n argc cmd s) := by
  induction h generalizing n argc s with
  | nil cmd =>
    cases n with
    | zero => exact absurd hTurns (Nat.not_lt_zero _)
    | succ n =>
      rw [List.nil_append] at hTokens
      rw [parseargs_succ]
      obtain hEnd | hStop := List.mem_cons.mp hFollow
      · rw [← hTokens] at hEnd
        have hNone := tokens_of_first_zero hEnd
        have hRet : (gettoken s).1.ret = 0 := by
          rw [gettoken_ret, tokens_eq_nil.mp hNone]
          rfl
        rw [hEnd, if_neg (by decide), if_pos hRet, (gettoken_end hRet).2]
        refine ⟨[], rfl, Nat.zero_le _, ?_⟩
        rw [tokens_nil, ← hTokens, hNone]
      · rw [hTokens, if_pos hStop]
        exact Reads.ok_skip hTokens
  | @cons tok ts us' cmd cmd' cmd'' hTok hRedirs h ih =>
    cases n with
    | zero => exact absurd hTurns (Nat.not_lt_zero _)
    | succ n =>
      have hTokens₁ : tokens s = tok :: (ts ++ (us' ++ us)) := by
        rw [hTokens, List.cons_append, List.append_assoc]
      obtain ⟨hTok₁, hTokens₂, hLess⟩ := tokens_eq_cons hTokens₁
      have hFirst : first (tok :: (ts ++ (us' ++ us))) = letterA := first_of_ret hTok (by decide)
      have hMore := hRedirs.argc_eq
      rw [Cmd.argc_addArg, hArgc, Option.map_some] at hMore
      obtain ⟨m, hm, hle⟩ := h.argc_le hMore
      have hRoom : m < maxargs := (Cmd.small_of_argc hm).mp hSmall
      rw [parseargs_succ, hTokens₁, hFirst, if_neg (by decide), hTok₁, if_neg, if_neg, if_neg]
      · apply Reads.token hTokens₁
        have hBehind : first (us' ++ us) ∉ [lt, gt] := by
          obtain rfl | hWord := @Args.first_append _ us _ _ h
          · exact not_redir_of_stops hFollow
          · rw [hWord]
            decide
        refine (parseredirs_complete hRedirs (by omega) hTokens₂ hBehind).bind ?_
        intro s' hLength hTokens'
        exact ih (by omega) hMore hSmall hTokens'
      · omega
      · exact not_not_intro hTok
      · rw [hTok]
        decide

def Nonterminal.parse : Nonterminal → Nat → Ptr → Parsed
  | .line => parseline
  | .pipe => parsepipe
  | .exec => parseexec

def Nonterminal.turns : Nonterminal → Nat
  | .line => 4
  | .pipe => 3
  | .exec => 2

def Nonterminal.follow : Nonterminal → List UInt8
  | .line => [0, rparen]
  | .pipe => [0, rparen, amp, semi]
  | .exec => [0, rparen, amp, semi, bar]

theorem follow_line {c : UInt8} (h : c ∈ Nonterminal.line.follow) :
    c ≠ amp ∧ c ∉ [semi] ∧ c ∈ Nonterminal.pipe.follow := by
  revert h
  simp only [Nonterminal.follow, List.mem_cons, List.not_mem_nil, or_false]
  rintro (rfl | rfl)
  · decide
  · decide

theorem follow_pipe {c : UInt8} (h : c ∈ Nonterminal.pipe.follow) :
    c ∉ [bar] ∧ c ∈ Nonterminal.exec.follow := by
  revert h
  simp only [Nonterminal.follow, List.mem_cons, List.not_mem_nil, or_false]
  rintro (rfl | rfl | rfl | rfl)
  · decide
  · decide
  · decide
  · decide

theorem follow_exec {c : UInt8} (h : c ∈ Nonterminal.exec.follow) : c ∈ stops ∧ c ∉ [lparen] := by
  revert h
  simp only [Nonterminal.follow, stops, List.mem_cons, List.not_mem_nil, or_false]
  rintro (rfl | rfl | rfl | rfl | rfl)
  · decide
  · decide
  · decide
  · decide
  · decide

/-- Wherever the tokens begin with those of a derivation and go on with one that may follow, the
parser returns its command. -/
def Complete (N : Nonterminal) (ts : List Token) (cmd : Cmd) : Prop :=
  cmd.Small → ∀ (n : Nat) (s : Ptr) (us : List Token), 4 * s.length + N.turns ≤ n →
    tokens s = ts ++ us → first us ∈ N.follow → Reads us cmd s (N.parse n s)

theorem complete_line {cmd' : Cmd} (hPipe : Complete .pipe ts cmd) (hBacks : Backs us cmd cmd') :
    Complete .line (ts ++ us) cmd' := by
  intro hSmall n s vs hTurns hTokens hFollow
  obtain ⟨hAmp, hSemi, hBehind⟩ := follow_line hFollow
  simp only [Nonterminal.turns] at hTurns
  cases n with
  | zero => omega
  | succ n =>
    rw [List.append_assoc] at hTokens
    have hFirst : first (us ++ vs) ∈ Nonterminal.pipe.follow := by
      obtain rfl | hBack := @Backs.first_append _ vs _ _ hBacks
      · exact hBehind
      · rw [hBack]
        decide
    have hSmall' : cmd.Small := hBacks.small_iff.mp hSmall
    simp only [Nonterminal.parse]
    rw [parseline_succ]
    have hReads := hPipe hSmall' n s (us ++ vs) (by simp only [Nonterminal.turns]; omega) hTokens
      hFirst
    refine hReads.bind ?_
    intro s₁ hLength₁ hTokens₁
    refine (parsebacks_complete hBacks (by omega) hTokens₁ hAmp).bind ?_
    intro s₂ hLength₂ hTokens₂
    dsimp only
    rw [hTokens₂, if_neg hSemi]
    exact Reads.ok_skip hTokens₂

theorem complete_list {cmd' right : Cmd} {tok : Token} (hPipe : Complete .pipe ts cmd)
    (hBacks : Backs us cmd cmd') (hTok : tok.ret = semi) (hLine : Complete .line vs right) :
    Complete .line (ts ++ (us ++ tok :: vs)) (.list cmd' right) := by
  rintro ⟨hSmall, hSmallRight⟩ n s ws hTurns hTokens hFollow
  simp only [Nonterminal.turns] at hTurns
  cases n with
  | zero => omega
  | succ n =>
    have hTokens : tokens s = ts ++ (us ++ (tok :: (vs ++ ws))) := by
      rw [hTokens, List.append_assoc, List.append_assoc, List.cons_append]
    have hSemi : first (tok :: (vs ++ ws)) = semi := first_of_ret hTok (by decide)
    have hFirst : first (us ++ (tok :: (vs ++ ws))) ∈ Nonterminal.pipe.follow := by
      obtain rfl | hBack := @Backs.first_append _ (tok :: (vs ++ ws)) _ _ hBacks
      · rw [List.nil_append, hSemi]
        decide
      · rw [hBack]
        decide
    have hAmp : first (tok :: (vs ++ ws)) ≠ amp := by
      rw [hSemi]
      decide
    have hSmall' : cmd.Small := hBacks.small_iff.mp hSmall
    simp only [Nonterminal.parse]
    rw [parseline_succ]
    have hReads := hPipe hSmall' n s _ (by simp only [Nonterminal.turns]; omega) hTokens hFirst
    refine hReads.bind ?_
    intro s₁ hLength₁ hTokens₁
    refine (parsebacks_complete hBacks (by omega) hTokens₁ hAmp).bind ?_
    intro s₂ hLength₂ hTokens₂
    obtain ⟨-, hTokens₃, hLess⟩ := tokens_eq_cons hTokens₂
    dsimp only
    rw [hTokens₂, if_pos (List.mem_singleton.mpr hSemi)]
    apply Reads.token hTokens₂
    have hRight := hLine hSmallRight n (gettoken s₂).2 ws
      (by simp only [Nonterminal.turns]; omega) hTokens₃ hFollow
    refine Reads.bind hRight ?_
    intro s₃ hLength₃ hTokens₄
    exact ⟨s₃, rfl, le_rfl, hTokens₄⟩

theorem complete_command (hExec : Complete .exec ts cmd) : Complete .pipe ts cmd := by
  intro hSmall n s us hTurns hTokens hFollow
  obtain ⟨hBar, hBehind⟩ := follow_pipe hFollow
  simp only [Nonterminal.turns] at hTurns
  cases n with
  | zero => omega
  | succ n =>
    simp only [Nonterminal.parse]
    rw [parsepipe_succ]
    have hReads := hExec hSmall n s us (by simp only [Nonterminal.turns]; omega) hTokens hBehind
    refine hReads.bind ?_
    intro s₁ hLength₁ hTokens₁
    dsimp only
    rw [hTokens₁, if_neg hBar]
    exact Reads.ok_skip hTokens₁

theorem complete_pipe {right : Cmd} {tok : Token} (hExec : Complete .exec ts cmd)
    (hTok : tok.ret = bar) (hPipe : Complete .pipe us right) :
    Complete .pipe (ts ++ tok :: us) (.pipe cmd right) := by
  rintro ⟨hSmall, hSmallRight⟩ n s vs hTurns hTokens hFollow
  simp only [Nonterminal.turns] at hTurns
  cases n with
  | zero => omega
  | succ n =>
    have hTokens : tokens s = ts ++ (tok :: (us ++ vs)) := by
      rw [hTokens, List.append_assoc, List.cons_append]
    have hBar : first (tok :: (us ++ vs)) = bar := first_of_ret hTok (by decide)
    have hFirst : first (tok :: (us ++ vs)) ∈ Nonterminal.exec.follow := by
      rw [hBar]
      decide
    simp only [Nonterminal.parse]
    rw [parsepipe_succ]
    have hReads := hExec hSmall n s _ (by simp only [Nonterminal.turns]; omega) hTokens hFirst
    refine hReads.bind ?_
    intro s₁ hLength₁ hTokens₁
    obtain ⟨-, hTokens₂, hLess⟩ := tokens_eq_cons hTokens₁
    dsimp only
    rw [hTokens₁, if_pos (List.mem_singleton.mpr hBar)]
    apply Reads.token hTokens₁
    have hRight := hPipe hSmallRight n (gettoken s₁).2 vs
      (by simp only [Nonterminal.turns]; omega) hTokens₂ hFollow
    refine Reads.bind hRight ?_
    intro s₂ hLength₂ hTokens₃
    exact ⟨s₂, rfl, le_rfl, hTokens₃⟩

theorem complete_block {cmd' : Cmd} {opening closing : Token} (hOpen : opening.ret = lparen)
    (hLine : Complete .line ts cmd) (hClose : closing.ret = rparen) (hRedirs : Redirs us cmd cmd') :
    Complete .exec (opening :: (ts ++ closing :: us)) cmd' := by
  intro hSmall n s vs hTurns hTokens hFollow
  obtain ⟨hStop, -⟩ := follow_exec hFollow
  simp only [Nonterminal.turns] at hTurns
  have hTokens : tokens s = opening :: (ts ++ (closing :: (us ++ vs))) := by
    rw [hTokens, List.cons_append, List.append_assoc, List.cons_append]
  have hLeft : first (opening :: (ts ++ (closing :: (us ++ vs)))) = lparen :=
    first_of_ret hOpen (by decide)
  have hRight : first (closing :: (us ++ vs)) = rparen := first_of_ret hClose (by decide)
  have hFirst : first (closing :: (us ++ vs)) ∈ Nonterminal.line.follow := by
    rw [hRight]
    decide
  have hSmall' : cmd.Small := hRedirs.small_iff.mp hSmall
  have hSkip := skip_length_le s
  match n, hTurns with
  | n + 2, hTurns =>
    simp only [Nonterminal.parse]
    rw [parseexec_succ, hTokens, if_pos (List.mem_singleton.mpr hLeft)]
    apply Reads.skip
    rw [← tokens_skip] at hTokens
    obtain ⟨-, hTokens₁, hLess⟩ := tokens_eq_cons hTokens
    rw [parseblock_succ, hTokens, if_pos (List.mem_singleton.mpr hLeft)]
    apply Reads.token hTokens
    have hInner := hLine hSmall' n (gettoken (skip s)).2 _
      (by simp only [Nonterminal.turns]; omega) hTokens₁ hFirst
    refine Reads.bind hInner ?_
    intro s₁ hLength₁ hTokens₂
    obtain ⟨-, hTokens₃, hLess₁⟩ := tokens_eq_cons hTokens₂
    dsimp only
    rw [hTokens₂, if_pos (List.mem_singleton.mpr hRight)]
    apply Reads.token hTokens₂
    exact parseredirs_complete hRedirs (by omega) hTokens₃ (not_redir_of_stops hStop)

theorem complete_exec {cmd' : Cmd} (hRedirs : Redirs ts (.exec []) cmd) (hArgs : Args us cmd cmd') :
    Complete .exec (ts ++ us) cmd' := by
  intro hSmall n s vs hTurns hTokens hFollow
  obtain ⟨hStop, hBlock⟩ := follow_exec hFollow
  simp only [Nonterminal.turns] at hTurns
  have hSkip := skip_length_le s
  cases n with
  | zero => omega
  | succ n =>
    rw [List.append_assoc] at hTokens
    have hBehind : first (us ++ vs) ∉ [lt, gt] ∧ first (us ++ vs) ∉ [lparen] := by
      obtain rfl | hWord := @Args.first_append _ vs _ _ hArgs
      · exact ⟨not_redir_of_stops hStop, hBlock⟩
      · rw [hWord]
        decide
    have hParen : first (ts ++ (us ++ vs)) ∉ [lparen] := by
      obtain rfl | hRedir := @Redirs.first_append _ (us ++ vs) _ _ hRedirs
      · exact hBehind.2
      · intro h
        rw [List.mem_singleton.mp h] at hRedir
        exact absurd hRedir (by decide)
    have hArgc : cmd.argc = some 0 := hRedirs.argc_eq
    simp only [Nonterminal.parse]
    rw [parseexec_succ, hTokens, if_neg hParen]
    apply Reads.skip
    rw [← tokens_skip] at hTokens
    refine (parseredirs_complete hRedirs (by omega) hTokens hBehind.1).bind ?_
    intro s₁ hLength₁ hTokens₁
    exact parseargs_complete hArgs (by omega) hArgc hSmall hTokens₁ hStop

theorem Derives.complete {N : Nonterminal} (h : Derives N ts cmd) : Complete N ts cmd := by
  induction h with
  | line hPipe hBacks ih => exact complete_line ih hBacks
  | list hPipe hBacks hTok hLine ihPipe ihLine => exact complete_list ihPipe hBacks hTok ihLine
  | command hExec ih => exact complete_command ih
  | pipe hExec hTok hPipe ihExec ihPipe => exact complete_pipe ihExec hTok ihPipe
  | block hOpen hLine hClose hRedirs ih => exact complete_block hOpen ih hClose hRedirs
  | exec hRedirs hArgs => exact complete_exec hRedirs hArgs

end Xv6Rpi.Shell
