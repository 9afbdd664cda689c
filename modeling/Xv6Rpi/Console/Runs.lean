import Xv6Rpi.Console.Discipline

/-! # The console keeps to the line discipline

The buffer with its three indices stands for the bytes of finished lines and the line that is
edited, also when the indices have wrapped.
-/

namespace Xv6Rpi.Console

/-- The buffer from `r` to `w` holds the unread bytes, and from `w` to `e` the line. -/
structure Shows (x : Input) (b : Lines) : Prop extends Fits b where
  all : Queue.contents inputBuf x.buf x.r x.e = b.unread ++ b.line
  count : Queue.count x.r x.w = b.unread.length

section Buffer

variable {x : Input} {b : Lines} {c : UInt8}

theorem dvd_two_pow : inputBuf ∣ 2 ^ 32 := by decide

theorem Shows.counts (h : Shows x b) : Queue.count x.r x.e = b.unread.length + b.line.length := by
  have hLength := congrArg List.length h.all
  rwa [Queue.length_contents, List.length_append] at hLength

theorem Shows.le (h : Shows x b) : Queue.count x.r x.w ≤ Queue.count x.r x.e := by
  rw [h.counts, h.count]
  exact Nat.le_add_right ..

theorem Shows.unread (h : Shows x b) : Queue.contents inputBuf x.buf x.r x.w = b.unread := by
  rw [Queue.contents_take_count h.le, h.all, h.count, List.take_left']
  rfl

theorem Shows.lineContents (h : Shows x b) : Queue.contents inputBuf x.buf x.w x.e = b.line := by
  rw [Queue.contents_drop_count dvd_two_pow h.le, h.all, h.count, List.drop_left']
  rfl

theorem Shows.line_nil (h : Shows x b) : x.e = x.w ↔ b.line = [] := by
  rw [← Queue.count_inj (r := x.r), h.counts, h.count]
  constructor
  · exact fun hEq => List.eq_nil_of_length_eq_zero (by omega)
  · rintro hNil
    rw [hNil, List.length_nil, Nat.add_zero]

theorem Shows.unread_nil (h : Shows x b) : x.r = x.w ↔ b.unread = [] := by
  rw [← Queue.count_eq_zero, h.count, List.length_eq_zero_iff]

theorem Shows.unput (h : Shows x b) (hLine : b.line ≠ []) :
    Shows { x with e := x.e - 1#32 } { b with line := b.line.dropLast } ∧
      x.buf ((x.e - 1#32).toNat % inputBuf) ∈ b.line := by
  have hNe : x.r ≠ x.e := by
    intro hEq
    have hZero := h.counts
    rw [Queue.count_eq_zero.mpr hEq] at hZero
    exact hLine (List.eq_nil_of_length_eq_zero (by omega))
  have hAll := h.all
  rw [Queue.contents_unput dvd_two_pow hNe, ← List.dropLast_concat_getLast hLine, ← List.append_assoc] at hAll
  obtain ⟨hRest, hLast⟩ := List.append_inj' hAll rfl
  have hRoom := h.room
  refine ⟨⟨⟨?_, fun c hc => h.unfinished c (List.mem_of_mem_dropLast hc)⟩, hRest, h.count⟩, ?_⟩
  · dsimp only
    rw [List.length_dropLast]
    omega
  · rw [List.head_eq_of_cons_eq hLast]
    exact List.getLast_mem hLine

theorem Shows.killLine (h : Shows x b) (n : Nat) (hn : b.line.length ≤ n) :
    Shows (x.killLine n) { b with line := [] } := by
  induction n generalizing x b with
  | zero =>
    have hNil : b.line = [] := List.eq_nil_of_length_eq_zero (Nat.le_zero.mp hn)
    rw [← hNil]
    exact h
  | succ n ih =>
    rw [Input.killLine]
    by_cases hNil : b.line = []
    · rw [if_neg fun hNot => hNot.1 (h.line_nil.mpr hNil), ← hNil]
      exact h
    · obtain ⟨hLess, hLast⟩ := h.unput hNil
      rw [if_pos ⟨fun hEq => hNil (h.line_nil.mp hEq), (h.unfinished _ hLast).1⟩]
      refine ih (b := { b with line := b.line.dropLast }) hLess ?_
      dsimp only
      rw [List.length_dropLast]
      omega

theorem Shows.put (h : Shows x b) (hRoom : b.unread.length + b.line.length < inputBuf) (c : UInt8) :
    let x' : Input := { x with buf := Function.update x.buf (x.e.toNat % inputBuf) c, e := x.e + 1#32 }
    Queue.contents inputBuf x'.buf x'.r x'.e = b.unread ++ (b.line ++ [c]) ∧
      (x'.e = x'.r + BitVec.ofNat 32 inputBuf ↔ b.unread.length + (b.line ++ [c]).length = inputBuf) := by
  have hCount : Queue.count x.r x.e < inputBuf := h.counts.trans_lt hRoom
  have hAll := @Queue.contents_put _ _ _ x.buf _ _ dvd_two_pow hCount (by decide) c
  rw [h.all, List.append_assoc] at hAll
  refine ⟨hAll, ?_⟩
  have hLength := congrArg List.length hAll
  rw [Queue.length_contents, List.length_append] at hLength
  rw [← Queue.count_eq_iff (by decide), hLength]

theorem Shows.intr (h : Shows x b) (c : UInt8) : Shows (x.intr c).1 (b.intr c).1 ∧ (x.intr c).2 = (b.intr c).2 := by
  have hFits := h.toFits.intr c
  rw [Lines.intr] at hFits ⊢
  rw [Input.intr]
  by_cases hP : c = ctrlP
  · rw [if_pos hP, if_pos hP]
    exact ⟨h, rfl⟩
  rw [if_neg hP] at hFits ⊢
  rw [if_neg hP]
  by_cases hU : c = ctrlU
  · rw [if_pos hU, if_pos hU]
    refine ⟨h.killLine _ ?_, rfl⟩
    exact (congrArg List.length h.lineContents).ge.trans_eq Queue.length_contents
  rw [if_neg hU] at hFits ⊢
  rw [if_neg hU]
  by_cases hH : c = ctrlH ∨ c = del
  · rw [if_pos hH, if_pos hH]
    refine ⟨?_, rfl⟩
    by_cases hNil : b.line = []
    · have hSame : b.line.dropLast = b.line := by rw [hNil, List.dropLast_nil]
      rw [if_neg (not_not.mpr (h.line_nil.mpr hNil)), hSame]
      exact h
    · rw [if_pos fun hEq => hNil (h.line_nil.mp hEq)]
      exact (h.unput hNil).1
  rw [if_neg hH] at hFits ⊢
  rw [if_neg hH]
  have hCount : (x.e - x.r).toNat = b.unread.length + b.line.length := h.counts
  by_cases hPut : c ≠ 0 ∧ c ≠ lf ∧ b.unread.length + b.line.length < inputBuf
  · rw [if_pos hPut] at hFits ⊢
    rw [if_pos ⟨hPut.1, hCount.trans_lt hPut.2.2⟩, if_neg hPut.2.1]
    generalize (if c = cr then lf else c) = c' at hFits ⊢
    obtain ⟨hAll, hFull⟩ := h.put hPut.2.2 c'
    dsimp only at hAll hFull hFits ⊢
    have hSame := or_congr_right (a := c' = lf) (or_congr_right (a := c' = ctrlD) hFull)
    by_cases hEnd : c' = lf ∨ c' = ctrlD ∨ b.unread.length + (b.line ++ [c']).length = inputBuf
    · rw [if_pos hEnd] at hFits ⊢
      rw [if_pos (hSame.mpr hEnd)]
      refine ⟨⟨hFits, ?_, ?_⟩, rfl⟩
      · rw [List.append_nil]
        exact hAll
      · rw [← hAll, Queue.length_contents]
    · rw [if_neg hEnd] at hFits ⊢
      rw [if_neg fun hNot => hEnd (hSame.mp hNot)]
      exact ⟨⟨hFits, hAll, h.count⟩, rfl⟩
  · rw [if_neg hPut]
    by_cases hRoom : c ≠ 0 ∧ (x.e - x.r).toNat < inputBuf
    · have hLf : c = lf := not_not.mp fun hLf => hPut ⟨hRoom.1, hLf, hCount.symm.trans_lt hRoom.2⟩
      rw [if_pos hRoom, if_pos hLf]
      exact ⟨h, rfl⟩
    · rw [if_neg hRoom]
      exact ⟨h, rfl⟩

theorem Shows.take {rest : List UInt8} (h : Shows x b) (hUnread : b.unread = c :: rest) : x.r ≠ x.w ∧
    x.buf (x.r.toNat % inputBuf) = c ∧ Shows { x with r := x.r + 1#32 } { b with unread := rest } := by
  have hNe : x.r ≠ x.w := by
    intro hEq
    rw [h.unread_nil.mp hEq] at hUnread
    cases hUnread
  have hNe' : x.r ≠ x.e := by
    intro hEq
    have hZero := h.counts
    rw [Queue.count_eq_zero.mpr hEq, hUnread, List.length_cons] at hZero
    omega
  have hAll := h.all
  rw [Queue.contents_take dvd_two_pow hNe', hUnread, List.cons_append] at hAll
  have hCount := Queue.count_take hNe
  rw [h.count, hUnread, List.length_cons] at hCount
  have hRoom := h.room
  rw [hUnread, List.length_cons] at hRoom
  obtain ⟨hFirst, hRest⟩ := List.cons.inj hAll
  refine ⟨hNe, hFirst, ⟨⟨?_, h.unfinished⟩, hRest, Nat.succ.inj hCount⟩⟩
  dsimp only
  omega

theorem Shows.read (target n : Nat) (h : Shows x b) : (x.read target n).1 = (b.read target n).1 ∧
    (x.read target n).2.1 = (b.read target n).2.1 ∧ Shows (x.read target n).2.2 (b.read target n).2.2 := by
  induction n generalizing x b with
  | zero => exact ⟨rfl, rfl, h⟩
  | succ n ih =>
    rw [Input.read, Lines.read]
    cases hUnread : b.unread with
    | nil =>
      rw [if_pos (h.unread_nil.mpr hUnread)]
      exact ⟨rfl, rfl, h⟩
    | cons c rest =>
      obtain ⟨hNe, hFirst, hNext⟩ := h.take hUnread
      rw [if_neg hNe, hFirst]
      dsimp only
      rw [add_sub_cancel_right]
      split_ifs with hD hLess hLf
      · exact ⟨rfl, rfl, h⟩
      · exact ⟨rfl, rfl, hNext⟩
      · exact ⟨rfl, rfl, hNext⟩
      · obtain ⟨hBytes, hStop, hEnd⟩ := ih hNext
        exact ⟨congrArg (c :: ·) hBytes, hStop, hEnd⟩

theorem console_simulates : Simulates console discipline Shows where
  intr _ _ _ h := h.intr _
  read _ _ _ _ h := h.read _ _

theorem shows_init : Shows .init ⟨[], []⟩ := ⟨⟨Nat.zero_le _, fun _ hc => absurd hc List.not_mem_nil⟩, rfl, rfl⟩

end Buffer

section Runs

variable {P : Type} [DecidableEq P]

/-- The console before any input, and nobody reads. -/
def boot : Machine Input P := ⟨.init, .init⟩

/-- The bytes of all lines that have been finished: those taken from the buffer and those still there. -/
def Machine.committed (m : Machine Input P) : List UInt8 :=
  m.readers.past ++ Queue.contents inputBuf m.buffer.buf m.buffer.r m.buffer.w

/-- What holds in every state of the console: the indices are in order, modulo `2 ^ 32`; the
buffer holds what the line discipline says after the same operations; and of the bytes of
finished lines none is lost or repeated by a read, and none is changed by editing. -/
structure Disciplined (ops : List (Op P)) (m : Machine Input P) : Prop where
  ordered : Queue.count m.buffer.r m.buffer.w ≤ Queue.count m.buffer.r m.buffer.e ∧
    Queue.count m.buffer.r m.buffer.e ≤ inputBuf
  lines : ∃ b, execute (step discipline) ⟨⟨[], []⟩, .init⟩ ops = some ⟨b, m.readers⟩ ∧ Orderly ⟨b, m.readers⟩ ∧
    Queue.contents inputBuf m.buffer.buf m.buffer.r m.buffer.w = b.unread ∧
    Queue.contents inputBuf m.buffer.buf m.buffer.w m.buffer.e = b.line
  kept : ∀ op m', step console m op = some m' → m.committed <+: m'.committed ∧
    ((∀ cs, op ≠ .typed cs) → m'.committed = m.committed)

theorem committed_of_shows {P : Type} {m : Machine Input P} {b : Lines} (h : Shows m.buffer b) :
    m.committed = Console.committed ⟨b, m.readers⟩ := by
  rw [Machine.committed, Console.committed, h.unread]

/-- In every run the console keeps to the line discipline. -/
theorem console_disciplined {ops : List (Op P)} {m : Machine Input P} (hRun : execute (step console) boot ops = some m) :
    Disciplined ops m := by
  obtain ⟨b, hRun', hShows⟩ := console_simulates.execute hRun shows_init
  have hOrderly : Orderly (⟨b, m.readers⟩ : Machine Lines P) :=
    execute_keeps (fun _ _ _ hStep h => (h.step hStep).1) hRun' orderly_init
  constructor
  · refine ⟨hShows.le, ?_⟩
    rw [hShows.counts]
    exact hShows.room
  · exact ⟨b, hRun', hOrderly, hShows.unread, hShows.lineContents⟩
  · intro op m' hStep
    obtain ⟨b', hStep', hShows'⟩ := console_simulates.step hStep hShows
    rw [committed_of_shows hShows, committed_of_shows hShows']
    exact (hOrderly.step hStep').2

/-- Typed are `ax`, a backspace, `b`, return and `^D`; two reads follow. -/
def session : List (Op Unit) :=
  [.call () 10, .run (), .typed [97, 120, ctrlH, 98, cr, ctrlD], .run (), .call () 10, .run ()]

theorem console_disciplined_session : ∃ m, execute (step console) boot session = some m ∧
    m.readers.finished.map (fun f => f.bytes) = [[97, 98, lf], []] ∧ Disciplined session m := by
  have hResult : (execute (step console) boot session).map (fun m => m.readers.finished.map (fun f => f.bytes)) =
      some [[97, 98, lf], []] := by decide +kernel
  obtain ⟨m, hRun, hReads⟩ := Option.map_eq_some_iff.mp hResult
  exact ⟨m, hRun, hReads, console_disciplined hRun⟩

end Runs

end Xv6Rpi.Console
