import Xv6Rpi.Console.Machine

/-! # The line discipline

What the console is for, without a buffer of bounded size and its indices: there are the bytes
of finished lines that nobody has read yet, and the line that is being edited. Editing only
changes the line; a line is finished by its last byte or when the buffer is full.
-/

namespace Xv6Rpi.Console

structure Lines where
  unread : List UInt8
  line : List UInt8

namespace Lines

def intr (x : Lines) (c : UInt8) : Lines × Bool :=
  if c = ctrlP then (x, false)
  else if c = ctrlU then ({ x with line := [] }, false)
  else if c = ctrlH ∨ c = del then ({ x with line := x.line.dropLast }, false)
  else if c ≠ 0 ∧ c ≠ lf ∧ x.unread.length + x.line.length < inputBuf then
    let c := if c = cr then lf else c
    let line := x.line ++ [c]
    if c = lf ∨ c = ctrlD ∨ x.unread.length + line.length = inputBuf then (⟨x.unread ++ line, []⟩, true)
    else (⟨x.unread, line⟩, false)
  else (x, false)

def read (target : Nat) : Nat → Lines → List UInt8 × End × Lines
  | 0, x => ([], .returns, x)
  | n + 1, x => match x.unread with
    | [] => ([], .sleeps, x)
    | c :: rest =>
      if c = ctrlD then
        if n + 1 < target then ([], .returns, x) else ([], .eof, { x with unread := rest })
      else if c = lf then ([c], .returns, { x with unread := rest })
      else
        let (bytes, stop, x) := read target n { x with unread := rest }
        (c :: bytes, stop, x)

end Lines

def discipline : Device Lines := ⟨Lines.intr, Lines.read⟩

variable {P : Type}

def committed (m : Machine Lines P) : List UInt8 := m.readers.past ++ m.buffer.unread

/-- A read has stopped after a newline, when it was complete, before a `^D`, or with no bytes
behind a `^D`, and not earlier or later. -/
structure Stops (committed : List UInt8) (f : Finished P) : Prop where
  length : f.bytes.length ≤ f.target
  plain : ∀ c ∈ f.bytes, c ≠ ctrlD
  single : ∀ c ∈ f.bytes.dropLast, c ≠ lf
  stop : f.bytes.length = f.target ∨ f.bytes.getLast? = some lf ∨ f.bytes ≠ [] ∧ committed[f.past]? = some ctrlD ∨
    f.bytes = [] ∧ 0 < f.past ∧ committed[f.past - 1]? = some ctrlD

def eofPlaces (l : List UInt8) : List Nat := (List.range l.length).filter fun i => l[i]? = some ctrlD

/-- What holds in every state of the line discipline: at most so many bytes are kept and the line
is not finished; the bytes that were taken have been delivered in order but for the `^D`; each
`^D` that was taken has made one read return with no bytes, and no other read has; every read has
stopped where it should; and the bytes of the reads of a process are those that it was given. -/
structure Orderly [DecidableEq P] (m : Machine Lines P) : Prop where
  room : m.buffer.unread.length + m.buffer.line.length ≤ inputBuf
  unfinished : ∀ c ∈ m.buffer.line, c ≠ lf ∧ c ≠ ctrlD
  delivered : m.readers.delivered.map Prod.snd = m.readers.past.filter (· ≠ ctrlD)
  eofs : (m.readers.finished.filter (·.bytes = [])).map Finished.past = (eofPlaces m.readers.past).map (· + 1)
  stops : ∀ f ∈ m.readers.finished, Stops (committed m) f
  bytes : ∀ p, (m.readers.delivered.filter (·.1 = p)).map Prod.snd =
    (m.readers.finished.filter (·.reader = p)).flatMap Finished.bytes ++ (m.readers.pc p).got
  waiting : ∀ p target got, m.readers.pc p = .reading target got ∨ m.readers.pc p = .asleep target got →
    got.length < target ∧ ∀ c ∈ got, c ≠ ctrlD ∧ c ≠ lf

section Bytes

variable {l l' : List UInt8}

theorem eofPlaces_concat (l : List UInt8) (c : UInt8) :
    eofPlaces (l ++ [c]) = eofPlaces l ++ if c = ctrlD then [l.length] else [] := by
  have hOld : ∀ i ∈ List.range l.length, decide ((l ++ [c])[i]? = some ctrlD) = decide (l[i]? = some ctrlD) := by
    intro i hi
    rw [List.getElem?_append_left (List.mem_range.mp hi)]
  rw [eofPlaces, List.length_append, List.length_singleton, List.range_succ, List.filter_append, List.filter_congr hOld,
    eofPlaces, List.filter_singleton, List.getElem?_concat_length]
  by_cases hc : c = ctrlD
  · simp only [hc, decide_true, cond_true, if_true]
  · simp only [hc, Option.some.injEq, decide_false, cond_false, if_false]

theorem eofPlaces_plain (h : ∀ c ∈ l', c ≠ ctrlD) : eofPlaces (l ++ l') = eofPlaces l := by
  induction l' generalizing l with
  | nil => rw [List.append_nil]
  | cons c l' ih =>
    rw [List.append_cons, ih fun x hx => h x (List.mem_cons_of_mem _ hx), eofPlaces_concat,
      if_neg (h c (List.mem_cons_self ..)), List.append_nil]

theorem Stops.mono {P : Type} {f : Finished P} (h : Stops l f) (hPrefix : l <+: l') : Stops l' f where
  length := h.length
  plain := h.plain
  single := h.single
  stop := by
    have hSame : ∀ {i : Nat} {c : UInt8}, l[i]? = some c → l'[i]? = some c := by
      intro i c hi
      obtain ⟨t, rfl⟩ := hPrefix
      rw [List.getElem?_append_left (List.getElem?_eq_some_iff.mp hi).1, hi]
    obtain hFull | hLf | ⟨hSome, hEof⟩ | ⟨hNone, hPos, hEof⟩ := h.stop
    · exact .inl hFull
    · exact .inr (.inl hLf)
    · exact .inr (.inr (.inl ⟨hSome, hSame hEof⟩))
    · exact .inr (.inr (.inr ⟨hNone, hPos, hSame hEof⟩))

end Bytes

section Steps

variable [DecidableEq P] {m m' : Machine Lines P} {x : Lines} {c : UInt8} {target n : Nat}

/-- A character does nothing, takes away from the line, or is put to its end, which may finish it. -/
theorem intr_cases (x : Lines) (c : UInt8) : (x.intr c).1 = x ∨ (x.intr c).1 = { x with line := [] } ∨
    (x.intr c).1 = { x with line := x.line.dropLast } ∨
    x.unread.length + x.line.length < inputBuf ∧ ((∃ c', (x.intr c).1 = ⟨x.unread ++ (x.line ++ [c']), []⟩) ∨
      ∃ c', c' ≠ lf ∧ c' ≠ ctrlD ∧ (x.intr c).1 = ⟨x.unread, x.line ++ [c']⟩) := by
  rw [Lines.intr]
  by_cases hP : c = ctrlP
  · rw [if_pos hP]
    exact .inl rfl
  · rw [if_neg hP]
    by_cases hU : c = ctrlU
    · rw [if_pos hU]
      exact .inr (.inl rfl)
    · rw [if_neg hU]
      by_cases hH : c = ctrlH ∨ c = del
      · rw [if_pos hH]
        exact .inr (.inr (.inl rfl))
      · rw [if_neg hH]
        by_cases hPut : c ≠ 0 ∧ c ≠ lf ∧ x.unread.length + x.line.length < inputBuf
        · rw [if_pos hPut]
          refine .inr (.inr (.inr ⟨hPut.2.2, ?_⟩))
          generalize (if c = cr then lf else c) = c'
          dsimp only
          split_ifs with hEnd
          · exact .inl ⟨c', rfl⟩
          · rw [not_or, not_or] at hEnd
            exact .inr ⟨c', hEnd.1, hEnd.2.1, rfl⟩
        · rw [if_neg hPut]
          exact .inl rfl

theorem intr_unread (x : Lines) (c : UInt8) : x.unread <+: (x.intr c).1.unread := by
  obtain h | h | h | ⟨-, ⟨c', h⟩ | ⟨c', -, -, h⟩⟩ := intr_cases x c
  all_goals rw [h]
  · exact List.prefix_append ..

structure Fits (x : Lines) : Prop where
  room : x.unread.length + x.line.length ≤ inputBuf
  unfinished : ∀ c ∈ x.line, c ≠ lf ∧ c ≠ ctrlD

theorem Fits.intr (h : Fits x) (c : UInt8) : Fits (x.intr c).1 := by
  have hRoom := h.room
  obtain hEq | hEq | hEq | ⟨hLt, ⟨c', hEq⟩ | ⟨c', hLf, hD, hEq⟩⟩ := intr_cases x c
  all_goals rw [hEq]
  · exact h
  · exact ⟨by simp only [List.length_nil]; omega, fun c hc => absurd hc List.not_mem_nil⟩
  · refine ⟨?_, fun c hc => h.unfinished c (List.mem_of_mem_dropLast hc)⟩
    dsimp only
    rw [List.length_dropLast]
    omega
  · refine ⟨?_, fun c hc => absurd hc List.not_mem_nil⟩
    dsimp only
    rw [List.length_append, List.length_append, List.length_singleton, List.length_nil]
    omega
  · constructor
    · dsimp only
      rw [List.length_append, List.length_singleton]
      omega
    · intro c' hc'
      obtain hOld | hNew := List.mem_append.mp hc'
      · exact h.unfinished c' hOld
      · rw [List.mem_singleton.mp hNew]
        exact ⟨hLf, hD⟩

theorem intrs_lines (cs : List UInt8) (h : Fits x) :
    Fits (discipline.intrs x cs).1 ∧ x.unread <+: (discipline.intrs x cs).1.unread := by
  induction cs generalizing x with
  | nil => exact ⟨h, List.prefix_rfl⟩
  | cons c cs ih =>
    obtain ⟨hFits, hPrefix⟩ := ih (h.intr c)
    exact ⟨hFits, (intr_unread x c).trans hPrefix⟩

structure Took (target n : Nat) (x : Lines) (bytes : List UInt8) (stop : End) (x' : Lines) : Prop where
  line : x'.line = x.line
  length : bytes.length ≤ n
  plain : ∀ c ∈ bytes, c ≠ ctrlD
  single : ∀ c ∈ bytes.dropLast, c ≠ lf
  unread : x.unread = bytes ++ (if stop = .eof then [ctrlD] else []) ++ x'.unread
  sleeps : stop = .sleeps → bytes.length < n ∧ ∀ c ∈ bytes, c ≠ lf
  returns : stop = .returns → bytes.length = n ∨ bytes.getLast? = some lf ∨
    x'.unread[0]? = some ctrlD ∧ n - bytes.length < target
  eof : stop = .eof → target ≤ n - bytes.length ∧ ∀ c ∈ bytes, c ≠ lf

theorem read_took (target n : Nat) (x : Lines) :
    Took target n x (x.read target n).1 (x.read target n).2.1 (x.read target n).2.2 := by
  have hNone : ∀ c ∈ ([] : List UInt8), c ≠ ctrlD ∧ c ≠ lf := fun c hc => absurd hc List.not_mem_nil
  induction n generalizing x with
  | zero =>
    exact ⟨rfl, le_rfl, fun c hc => (hNone c hc).1, fun c hc => (hNone c hc).2, rfl, fun h => (by cases h),
      fun _ => .inl rfl, fun h => (by cases h)⟩
  | succ n ih =>
    rw [Lines.read]
    cases hUnread : x.unread with
    | nil =>
      exact ⟨rfl, Nat.zero_le _, fun c hc => (hNone c hc).1, fun c hc => (hNone c hc).2, rfl,
        fun _ => ⟨Nat.succ_pos n, fun c hc => (hNone c hc).2⟩, fun h => (by cases h), fun h => (by cases h)⟩
    | cons c rest =>
      dsimp only
      split_ifs with hD hLess hLf
      · refine ⟨rfl, Nat.zero_le _, fun c hc => (hNone c hc).1, fun c hc => (hNone c hc).2, rfl, fun h => (by cases h),
          fun _ => .inr (.inr ⟨?_, hLess⟩), fun h => (by cases h)⟩
        rw [hUnread, hD]
        rfl
      · refine ⟨rfl, Nat.zero_le _, fun c hc => (hNone c hc).1, fun c hc => (hNone c hc).2, ?_, fun h => (by cases h),
          fun h => (by cases h), fun _ => ⟨Nat.le_of_not_lt hLess, fun c hc => (hNone c hc).2⟩⟩
        rw [hUnread, hD]
        rfl
      · refine ⟨rfl, Nat.succ_le_succ (Nat.zero_le n), fun c' hc' => ?_, fun c hc => (hNone c hc).2, hUnread,
          fun h => (by cases h), fun _ => .inr (.inl ?_), fun h => (by cases h)⟩
        · rw [List.mem_singleton.mp hc']
          exact hD
        · rw [hLf]
          rfl
      · have hTook := ih { x with unread := rest }
        generalize Lines.read target n { x with unread := rest } = q at hTook
        obtain ⟨bytes, stop, x'⟩ := q
        dsimp only at hTook ⊢
        have hLength := hTook.length
        constructor
        · exact hTook.line
        · exact Nat.succ_le_succ hLength
        · exact List.forall_mem_cons.mpr ⟨hD, hTook.plain⟩
        · intro c' hc'
          cases bytes with
          | nil => exact absurd hc' List.not_mem_nil
          | cons b bytes =>
            rw [List.dropLast_cons_cons] at hc'
            obtain rfl | hc' := List.mem_cons.mp hc'
            · exact hLf
            · exact hTook.single c' hc'
        · rw [hUnread, List.cons_append, List.cons_append, ← hTook.unread]
        · intro h
          obtain ⟨hLt, hPlain⟩ := hTook.sleeps h
          exact ⟨Nat.succ_lt_succ hLt, List.forall_mem_cons.mpr ⟨hLf, hPlain⟩⟩
        · intro h
          rw [List.length_cons, Nat.succ_sub_succ]
          obtain hFull | hLast | hEof := hTook.returns h
          · exact .inl (congrArg Nat.succ hFull)
          · refine .inr (.inl ?_)
            rw [List.getLast?_cons, hLast]
            rfl
          · exact .inr (.inr hEof)
        · intro h
          rw [List.length_cons, Nat.succ_sub_succ]
          obtain ⟨hLe, hPlain⟩ := hTook.eof h
          exact ⟨hLe, List.forall_mem_cons.mpr ⟨hLf, hPlain⟩⟩

theorem wake_got (pc : Pc) : pc.wake.got = pc.got := by cases pc <;> rfl

theorem orderly_init : Orderly (⟨⟨[], []⟩, .init⟩ : Machine Lines P) where
  room := Nat.zero_le _
  unfinished c hc := absurd hc List.not_mem_nil
  delivered := rfl
  eofs := rfl
  stops f hf := absurd hf List.not_mem_nil
  bytes p := rfl
  waiting p target got h := by
    obtain h | h := h
    · cases h
    · cases h

theorem Orderly.typed (h : Orderly m) (cs : List UInt8) {y : Readers P} (hPast : y.past = m.readers.past)
    (hDelivered : y.delivered = m.readers.delivered) (hFinished : y.finished = m.readers.finished)
    (hPc : ∀ p, y.pc p = m.readers.pc p ∨ y.pc p = (m.readers.pc p).wake) :
    Orderly ⟨(discipline.intrs m.buffer cs).1, y⟩ ∧ committed m <+: committed ⟨(discipline.intrs m.buffer cs).1, y⟩ := by
  obtain ⟨hFits, hUnread⟩ := intrs_lines cs ⟨h.room, h.unfinished⟩
  have hPrefix : committed m <+: committed ⟨(discipline.intrs m.buffer cs).1, y⟩ := by
    rw [committed, committed, hPast]
    exact (List.prefix_append_right_inj _).mpr hUnread
  refine ⟨⟨hFits.room, hFits.unfinished, ?_, ?_, ?_, ?_, ?_⟩, hPrefix⟩
  · rw [hDelivered, hPast, h.delivered]
  · rw [hFinished, hPast, h.eofs]
  · intro f hf
    rw [hFinished] at hf
    exact (h.stops f hf).mono hPrefix
  · intro p
    have hGot : (y.pc p).got = (m.readers.pc p).got := by
      obtain hEq | hEq := hPc p
      · rw [hEq]
      · rw [hEq, wake_got]
    rw [hDelivered, hFinished, hGot, h.bytes]
  · intro p target got hWait
    refine h.waiting p target got ?_
    obtain hEq | hEq := hPc p
    · rwa [hEq] at hWait
    · rw [hEq] at hWait
      cases hOld : m.readers.pc p with
      | client =>
        rw [hOld] at hWait
        obtain hWait | hWait := hWait <;> cases hWait
      | reading t g =>
        rw [hOld] at hWait
        exact hWait
      | asleep t g =>
        rw [hOld] at hWait
        obtain hWait | hWait := hWait
        · injection hWait with hT hG
          rw [hT, hG]
          exact .inr rfl
        · cases hWait

/-- The reads of other processes do not notice that `p` has been given some bytes. -/
theorem filter_delivered {l : List (P × UInt8)} {p q : P} {bytes : List UInt8} :
    ((l ++ bytes.map (p, ·)).filter (·.1 = q)).map Prod.snd =
      (l.filter (·.1 = q)).map Prod.snd ++ if p = q then bytes else [] := by
  rw [List.filter_append, List.map_append, List.filter_map, List.map_map]
  congr 1
  by_cases hEq : p = q
  · rw [if_pos hEq]
    simp [Function.comp_def, hEq]
  · rw [if_neg hEq]
    simp [Function.comp_def, hEq]

section Ended

variable {y : Readers P} {p q : P} {got bytes : List UInt8} {stop : End}

theorem ended_past : (y.ended p target got bytes stop).past = y.past ++ (bytes ++ if stop = .eof then [ctrlD] else []) := by
  cases stop with
  | eof => exact List.append_assoc ..
  | returns => exact congrArg (y.past ++ ·) (List.append_nil bytes).symm
  | sleeps => exact congrArg (y.past ++ ·) (List.append_nil bytes).symm

theorem ended_delivered : (y.ended p target got bytes stop).delivered = y.delivered ++ bytes.map (p, ·) := by
  cases stop <;> rfl

theorem ended_finished : (y.ended p target got bytes stop).finished = y.finished ++
    if stop = .sleeps then [] else [⟨p, target, got ++ bytes, (y.ended p target got bytes stop).past.length⟩] := by
  rw [ended_past]
  cases stop with
  | sleeps => exact (List.append_nil _).symm
  | returns => simp [Readers.ended]
  | eof => simp [Readers.ended, Nat.add_assoc]

theorem ended_pc : (y.ended p target got bytes stop).pc =
    Function.update y.pc p (if stop = .sleeps then .asleep target (got ++ bytes) else .client) := by
  cases stop <;> rfl

theorem stops_ended (hTook : Took target (target - got.length) m.buffer bytes stop x) (hLt : got.length < target)
    (hGot : ∀ c ∈ got, c ≠ ctrlD ∧ c ≠ lf) (hEnd : stop ≠ .sleeps) :
    Stops (committed m) ⟨p, target, got ++ bytes, (m.readers.ended p target got bytes stop).past.length⟩ ∧
      (got ++ bytes = [] ↔ stop = .eof) := by
  have hLength := hTook.length
  have hPlain : ∀ c ∈ got ++ bytes, c ≠ ctrlD := fun c hc =>
    (List.mem_append.mp hc).elim (fun h => (hGot c h).1) (hTook.plain c)
  have hSingle : ∀ c ∈ (got ++ bytes).dropLast, c ≠ lf := by
    intro c hc
    cases bytes with
    | nil =>
      rw [List.append_nil] at hc
      exact (hGot c (List.mem_of_mem_dropLast hc)).2
    | cons b bytes =>
      rw [List.dropLast_append_of_ne_nil (List.cons_ne_nil b bytes)] at hc
      exact (List.mem_append.mp hc).elim (fun h => (hGot c h).2) (hTook.single c)
  have hSum : (got ++ bytes).length = got.length + bytes.length := List.length_append
  have hAt : (m.readers.ended p target got bytes stop).past.length =
      m.readers.past.length + (bytes ++ if stop = .eof then [ctrlD] else []).length := by
    rw [ended_past, List.length_append]
  have hCommitted : committed m = m.readers.past ++ (bytes ++ if stop = .eof then [ctrlD] else []) ++ x.unread := by
    rw [committed, hTook.unread, List.append_assoc, List.append_assoc, List.append_assoc]
  rw [hAt]
  by_cases hEof : stop = .eof
  · rw [if_pos hEof] at hCommitted ⊢
    obtain ⟨hLe, -⟩ := hTook.eof hEof
    have hNil : got = [] ∧ bytes = [] := by
      constructor
      · exact List.eq_nil_of_length_eq_zero (by omega)
      · exact List.eq_nil_of_length_eq_zero (by omega)
    obtain ⟨rfl, rfl⟩ := hNil
    refine ⟨⟨Nat.zero_le _, hPlain, hSingle, .inr (.inr (.inr ⟨rfl, Nat.succ_pos _, ?_⟩))⟩, iff_of_true rfl hEof⟩
    rw [hCommitted]
    dsimp only [List.nil_append, List.length_singleton]
    rw [Nat.add_sub_cancel, List.append_assoc, List.getElem?_append_right le_rfl, Nat.sub_self]
    rfl
  · rw [if_neg hEof, List.append_nil] at hCommitted ⊢
    have hReturns : stop = .returns := by
      cases stop with
      | returns => rfl
      | eof => exact absurd rfl hEof
      | sleeps => exact absurd rfl hEnd
    have hNe : got ++ bytes ≠ [] := by
      intro hNil
      rw [hNil, List.length_nil] at hSum
      obtain hFull | hLast | ⟨-, hLess⟩ := hTook.returns hReturns
      · omega
      · rw [(List.append_eq_nil_iff.mp hNil).2] at hLast
        cases hLast
      · omega
    refine ⟨⟨?_, hPlain, hSingle, ?_⟩, iff_of_false hNe hEof⟩
    · dsimp only
      rw [hSum]
      omega
    obtain hFull | hLast | ⟨hNext, -⟩ := hTook.returns hReturns
    · refine .inl ?_
      dsimp only
      rw [hSum, hFull]
      omega
    · refine .inr (.inl ?_)
      dsimp only
      rw [List.getLast?_append, hLast]
      rfl
    · refine .inr (.inr (.inl ⟨hNe, ?_⟩))
      rw [hCommitted, ← List.length_append, List.getElem?_append_right le_rfl, Nat.sub_self, hNext]

theorem Orderly.run (h : Orderly m) (hPc : m.readers.pc p = .reading target got)
    (hTook : Took target (target - got.length) m.buffer bytes stop x) :
    Orderly ⟨x, m.readers.ended p target got bytes stop⟩ ∧
      committed ⟨x, m.readers.ended p target got bytes stop⟩ = committed m := by
  obtain ⟨hLt, hGot⟩ := h.waiting p target got (.inl hPc)
  have hCommitted : committed ⟨x, m.readers.ended p target got bytes stop⟩ = committed m := by
    rw [committed, committed, hTook.unread, ended_past, List.append_assoc]
  have hUnread : x.unread.length ≤ m.buffer.unread.length := by
    rw [hTook.unread, List.length_append]
    exact Nat.le_add_left ..
  have hPlain : bytes.filter (fun c => decide (c ≠ ctrlD)) = bytes :=
    List.filter_eq_self.mpr fun c hc => decide_eq_true (hTook.plain c hc)
  refine ⟨⟨?_, ?_, ?_, ?_, ?_, ?_, ?_⟩, hCommitted⟩
  · have hRoom := h.room
    dsimp only
    rw [hTook.line]
    omega
  · dsimp only
    rw [hTook.line]
    exact h.unfinished
  · dsimp only
    rw [ended_delivered, ended_past, List.map_append, List.map_map, h.delivered, List.filter_append, List.filter_append,
      hPlain]
    congr 1
    by_cases hEof : stop = .eof
    · rw [if_pos hEof]
      simp [Function.comp_def]
    · rw [if_neg hEof]
      simp [Function.comp_def]
  · dsimp only
    rw [ended_finished]
    by_cases hSleeps : stop = .sleeps
    · rw [if_pos hSleeps, List.append_nil, h.eofs, ended_past, if_neg (by rw [hSleeps]; decide), List.append_nil,
        eofPlaces_plain hTook.plain]
    · rw [if_neg hSleeps, List.filter_append, List.map_append, h.eofs]
      obtain ⟨-, hNil⟩ := stops_ended (p := p) hTook hLt hGot hSleeps
      by_cases hEof : stop = .eof
      · rw [ended_past, if_pos hEof, ← List.append_assoc, eofPlaces_concat, if_pos rfl, eofPlaces_plain hTook.plain,
          List.map_append]
        congr 1
        simp [hNil.mpr hEof, Nat.add_assoc]
      · have hNe : got ++ bytes ≠ [] := fun hEq => hEof (hNil.mp hEq)
        rw [ended_past, if_neg hEof, List.append_nil, eofPlaces_plain hTook.plain]
        simp [hNe]
  · intro f hf
    rw [hCommitted]
    dsimp only at hf
    rw [ended_finished] at hf
    obtain hOld | hNew := List.mem_append.mp hf
    · exact h.stops f hOld
    · split_ifs at hNew with hSleeps
      · exact absurd hNew List.not_mem_nil
      · rw [List.mem_singleton.mp hNew]
        exact (stops_ended hTook hLt hGot hSleeps).1
  · intro q
    dsimp only
    rw [ended_delivered, filter_delivered, ended_finished, ended_pc, List.filter_append, List.flatMap_append, h.bytes q]
    by_cases hq : p = q
    · subst hq
      rw [if_pos rfl, Function.update_self, hPc]
      by_cases hSleeps : stop = .sleeps
      · simp [hSleeps, Pc.got]
      · simp [hSleeps, Pc.got]
    · rw [if_neg hq, Function.update_of_ne (Ne.symm hq), List.append_nil]
      by_cases hSleeps : stop = .sleeps
      · simp [hSleeps]
      · simp [hSleeps, hq]
  · intro q t g hWait
    dsimp only at hWait
    rw [ended_pc] at hWait
    by_cases hq : q = p
    · subst hq
      rw [Function.update_self] at hWait
      split_ifs at hWait with hSleeps
      · obtain ⟨hShort, hNoLf⟩ := hTook.sleeps hSleeps
        obtain hWait | hWait := hWait
        · cases hWait
        · injection hWait with hT hG
          rw [← hT, ← hG, List.length_append]
          refine ⟨by omega, fun c hc => ?_⟩
          obtain hc | hc := List.mem_append.mp hc
          · exact hGot c hc
          · exact ⟨hTook.plain c hc, hNoLf c hc⟩
      · obtain hWait | hWait := hWait <;> cases hWait
    · rw [Function.update_of_ne hq] at hWait
      exact h.waiting q t g hWait

end Ended

/-- Every step keeps what holds of the line discipline, and only an interrupt adds to the finished
lines. -/
theorem Orderly.step (h : Orderly m) {op : Op P} (hStep : step discipline m op = some m') :
    Orderly m' ∧ committed m <+: committed m' ∧ ((∀ cs, op ≠ .typed cs) → committed m' = committed m) := by
  cases op with
  | typed cs =>
    obtain rfl := Option.some.inj hStep
    have hPc : ∀ p, (if (discipline.intrs m.buffer cs).2 then m.readers.wake else m.readers).pc p = m.readers.pc p ∨
        (if (discipline.intrs m.buffer cs).2 then m.readers.wake else m.readers).pc p = (m.readers.pc p).wake := by
      intro p
      split_ifs
      · exact .inr rfl
      · exact .inl rfl
    have hTyped := h.typed cs (by split_ifs <;> rfl) (by split_ifs <;> rfl) (by split_ifs <;> rfl) hPc
    exact ⟨hTyped.1, hTyped.2, fun hNot => absurd rfl (hNot cs)⟩
  | call p target =>
    simp only [Console.step] at hStep
    cases hPc : m.readers.pc p with
    | reading _ _ => simp only [hPc, reduceCtorEq] at hStep
    | asleep _ _ => simp only [hPc, reduceCtorEq] at hStep
    | client =>
      rw [hPc] at hStep
      dsimp only at hStep
      split_ifs at hStep with hPos
      obtain rfl := Option.some.inj hStep
      refine ⟨⟨h.room, h.unfinished, h.delivered, h.eofs, h.stops, fun q => ?_, fun q t g hWait => ?_⟩, List.prefix_rfl,
        fun _ => rfl⟩
      · dsimp only
        rw [h.bytes q]
        by_cases hq : q = p
        · rw [hq, Function.update_self, hPc]
          rfl
        · rw [Function.update_of_ne hq]
      · dsimp only at hWait
        by_cases hq : q = p
        · rw [hq, Function.update_self] at hWait
          obtain hWait | hWait := hWait
          · injection hWait with hT hG
            rw [← hT, ← hG]
            exact ⟨hPos, fun c hc => absurd hc List.not_mem_nil⟩
          · cases hWait
        · rw [Function.update_of_ne hq] at hWait
          exact h.waiting q t g hWait
  | run p =>
    simp only [Console.step] at hStep
    cases hPc : m.readers.pc p with
    | client => simp only [hPc, reduceCtorEq] at hStep
    | asleep _ _ => simp only [hPc, reduceCtorEq] at hStep
    | reading target got =>
      rw [hPc] at hStep
      obtain rfl := Option.some.inj hStep
      obtain ⟨hOrderly, hSame⟩ := h.run hPc (read_took target (target - got.length) m.buffer)
      exact ⟨hOrderly, hSame ▸ List.prefix_rfl, fun _ => hSame⟩

end Steps

end Xv6Rpi.Console
