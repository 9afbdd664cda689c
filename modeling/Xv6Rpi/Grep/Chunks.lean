import Xv6Rpi.Grep.Matcher
import Xv6Rpi.Lib.Run

/-! # The loop of grep.c

`buf` is the front of the memory that the process has from there on; what lies behind the bytes that
were read is whatever earlier turns or others left. The search for the ends of lines stops at a NUL and
knows nothing of the fill count, and a turn that finds no newline drops what it has. So a turn is right
if its chunk has a newline and a NUL comes before any newline behind it.
-/

namespace Xv6Rpi.Grep

def newline : UInt8 := 10

def bufSz : Nat := 1024

/-- The memory from `buf` on, the fill count, and what was written so far, one entry for each `write`. -/
structure State where
  mem : List UInt8
  m : Int
  out : List (List UInt8)

/-- `strchr` of ulib.c on the memory from `s` on; it fails if it runs off the memory. -/
def strchr (c : UInt8) : List UInt8 → Option (Option Nat)
  | [] => none
  | b :: s => if b = 0 then some none else if b = c then some (some 0) else (strchr c s).map (Option.map (· + 1))

def cstr (s : List UInt8) : List UInt8 := s.takeWhile (· ≠ 0)

/-- The loop over the lines. A turn of it takes `p` further, so that the length of the memory is fuel enough. -/
def eachLine (pattern : List UInt8) : Nat → List UInt8 → Nat → List (List UInt8) →
    Option (List UInt8 × Nat × List (List UInt8))
  | 0, _, _, _ => none
  | fuel + 1, mem, p, out =>
    match strchr newline (mem.drop p) with
    | none => none
    | some none => some (mem, p, out)
    | some (some k) =>
      let q := p + k
      let cut := mem.set q 0
      if match_ pattern (cstr (cut.drop p)) then
        let mem := cut.set q newline
        eachLine pattern fuel mem (q + 1) (out ++ [(mem.drop p).take (q + 1 - p)])
      else eachLine pattern fuel cut (q + 1) out

/-- `memmove` of ulib.c, from offset `src` to offset `dst`. -/
def memmove (mem : List UInt8) (dst src : Nat) : Nat → List UInt8
  | 0 => mem
  | n + 1 => memmove (mem.set dst (mem.getD src 0)) (dst + 1) (src + 1) n

/-- One turn of the loop in `grep`, when `read` gives `chunk`. It fails if `buf+m` lies in front of `buf`,
or a search runs off the memory. -/
def turn (pattern : List UInt8) (s : State) (chunk : List UInt8) : Option State :=
  if s.m < 0 then none
  else
    let mem := s.mem.take s.m.toNat ++ chunk ++ s.mem.drop (s.m.toNat + chunk.length)
    let m := s.m + chunk.length
    match eachLine pattern (mem.length + 1) mem 0 s.out with
    | none => none
    | some (mem, p, out) =>
      let m := if p = 0 then 0 else m
      if m > 0 then some ⟨memmove mem 0 p (m - p).toNat, m - p, out⟩ else some ⟨mem, m, out⟩

/-- `grep` when `read` gives these chunks and then the end of the file. -/
def grep (pattern : List UInt8) (s : State) (chunks : List (List UInt8)) : Option State :=
  execute (turn pattern) s chunks

/-! ## Lines -/

def text (lines : List (List UInt8)) : List UInt8 := lines.flatMap (· ++ [newline])

def printed (pattern : List UInt8) (lines : List (List UInt8)) : List (List UInt8) :=
  (lines.filter (match_ pattern)).map (· ++ [newline])

def Plain (l : List UInt8) : Prop := newline ∉ l ∧ 0 ∉ l

section Lines

variable {l pattern : List UInt8} {lines lines' : List (List UInt8)}

theorem text_cons : text (l :: lines) = l ++ newline :: text lines := by
  rw [text, List.flatMap_cons, List.append_assoc]
  rfl

theorem text_append : text (lines ++ lines') = text lines ++ text lines' := List.flatMap_append

theorem printed_append : printed pattern (lines ++ lines') = printed pattern lines ++ printed pattern lines' := by
  rw [printed, List.filter_append, List.map_append]
  rfl

theorem Plain.cons {c : UInt8} (h : Plain l) (hNl : c ≠ newline) (hNz : c ≠ 0) : Plain (c :: l) :=
  ⟨List.not_mem_cons_of_ne_of_not_mem hNl.symm h.1, List.not_mem_cons_of_ne_of_not_mem hNz.symm h.2⟩

theorem Plain.nil : Plain [] := ⟨List.not_mem_nil, List.not_mem_nil⟩

theorem Plain.head {c : UInt8} (h : Plain (c :: l)) : c ≠ newline ∧ c ≠ 0 ∧ Plain l :=
  ⟨fun hc => h.1 (hc ▸ List.mem_cons_self), fun hc => h.2 (hc ▸ List.mem_cons_self),
    fun hl => h.1 (List.mem_cons_of_mem _ hl), fun hl => h.2 (List.mem_cons_of_mem _ hl)⟩

theorem exists_lines (h : 0 ∉ l) : ∃ lines tail, l = text lines ++ tail ∧ (∀ a ∈ lines, Plain a) ∧ Plain tail := by
  induction l with
  | nil => exact ⟨[], [], rfl, fun _ ha => absurd ha List.not_mem_nil, Plain.nil⟩
  | cons c l ih =>
    obtain ⟨lines, tail, rfl, hLines, hTail⟩ := ih fun hl => h (List.mem_cons_of_mem _ hl)
    have hNz : c ≠ 0 := fun hc => h (hc ▸ List.mem_cons_self)
    by_cases hNl : c = newline
    · refine ⟨[] :: lines, tail, ?_, ?_, hTail⟩
      · rw [text_cons, hNl]
        rfl
      · exact List.forall_mem_cons.mpr ⟨Plain.nil, hLines⟩
    · cases lines with
      | nil => exact ⟨[], c :: tail, rfl, hLines, hTail.cons hNl hNz⟩
      | cons a lines =>
        obtain ⟨ha, hLines⟩ := List.forall_mem_cons.mp hLines
        refine ⟨(c :: a) :: lines, tail, ?_, List.forall_mem_cons.mpr ⟨ha.cons hNl hNz, hLines⟩, hTail⟩
        rw [text_cons, text_cons]
        rfl

theorem length_le_text (lines : List (List UInt8)) : lines.length ≤ (text lines).length := by
  induction lines with
  | nil => exact Nat.le_refl 0
  | cons a lines ih =>
    rw [text_cons, List.length_append, List.length_cons, List.length_cons]
    omega

end Lines

section Search

variable {l tail rest stale : List UInt8} {lines lines' : List (List UInt8)}

theorem strchr_append (hl : Plain l) : strchr newline (l ++ rest) = (strchr newline rest).map (Option.map (· + l.length)) := by
  induction l with
  | nil => cases h : strchr newline rest with
    | none => simp [h]
    | some o => cases o with
      | none => simp [h]
      | some k => simp [h]
  | cons c l ih =>
    obtain ⟨hNl, hNz, hl⟩ := hl.head
    rw [List.cons_append, strchr, if_neg hNz, if_neg hNl, ih hl, Option.map_map]
    congr 1
    funext o
    cases o with
    | none => rfl
    | some k => simp [Nat.add_assoc]

theorem strchr_line (hl : Plain l) : strchr newline (l ++ newline :: rest) = some (some l.length) := by
  rw [strchr_append hl, strchr, if_neg (by decide), if_pos rfl]
  simp

theorem text_prefix (h : text lines ++ tail <+: text lines') (hLines : ∀ a ∈ lines, Plain a)
    (hLines' : ∀ a ∈ lines', Plain a) : ∃ more, lines' = lines ++ more ∧ tail <+: text more := by
  induction lines generalizing lines' with
  | nil => exact ⟨lines', rfl, h⟩
  | cons a lines ih =>
    obtain ⟨ha, hLines⟩ := List.forall_mem_cons.mp hLines
    obtain ⟨rest, hRest⟩ := h
    cases lines' with
    | nil =>
      rw [text_cons] at hRest
      simp [text] at hRest
    | cons b lines' =>
      obtain ⟨hb, hLater⟩ := List.forall_mem_cons.mp hLines'
      rw [text_cons, text_cons, List.append_assoc, List.append_assoc, List.cons_append] at hRest
      have hLen : a.length = b.length := by
        have hFound := congrArg (strchr newline) hRest
        rw [strchr_line ha, strchr_line hb] at hFound
        exact Option.some.inj (Option.some.inj hFound)
      obtain ⟨rfl, hAfter⟩ := List.append_inj hRest hLen
      obtain ⟨more, rfl, hMore⟩ := ih ⟨rest, by rw [List.append_assoc, (List.cons.inj hAfter).2]⟩ hLines hLater
      exact ⟨more, rfl, hMore⟩

/-- What is left over of a text with no newline lies in its first line. -/
theorem plain_prefix_length (h : tail <+: text (l :: lines)) (hTail : Plain tail) : tail.length ≤ l.length := by
  obtain ⟨rest, hRest⟩ := h
  rw [text_cons] at hRest
  by_contra hLong
  have hAt : (tail ++ rest)[l.length]? = some newline := by
    rw [hRest]
    simp
  rw [List.getElem?_append_left (by omega)] at hAt
  exact hTail.1 (List.mem_of_getElem? hAt)

theorem cstr_line (hl : Plain l) : cstr (l ++ 0 :: rest) = l := by
  rw [cstr, List.takeWhile_append_of_pos, List.takeWhile_cons_of_neg (by simp), List.append_nil]
  intro c hc
  exact decide_eq_true fun hZero => hl.2 (hZero ▸ hc)

theorem set_after (l : List UInt8) (x y : UInt8) (r : List UInt8) : (l ++ x :: r).set l.length y = l ++ y :: r := by
  rw [List.set_append_right _ _ (Nat.le_refl _), Nat.sub_self, List.set_cons_zero]

/-- The loop takes the lines in their order and stops behind the last, if the memory behind the data
shows no newline. -/
theorem eachLine_eq {pattern done : List UInt8} {fuel : Nat} {out : List (List UInt8)} (hLines : ∀ a ∈ lines, Plain a)
    (hTail : Plain tail) (hStale : strchr newline stale = some none)
    (hFuel : lines.length < fuel) :
    ∃ done', done'.length = done.length + (text lines).length ∧
      eachLine pattern fuel (done ++ (text lines ++ (tail ++ stale))) done.length out =
        some (done' ++ (tail ++ stale), done'.length, out ++ printed pattern lines) := by
  induction lines generalizing fuel done out with
  | nil =>
    obtain ⟨fuel, rfl⟩ := Nat.exists_eq_add_of_lt hFuel
    refine ⟨done, rfl, ?_⟩
    rw [eachLine, List.drop_left, show text [] = [] from rfl, List.nil_append, strchr_append hTail, hStale]
    simp [printed]
  | cons a lines ih =>
    obtain ⟨ha, hLines⟩ := List.forall_mem_cons.mp hLines
    obtain ⟨fuel, rfl⟩ := Nat.exists_eq_add_of_lt hFuel
    have hSplit (x : UInt8) (r : List UInt8) : done ++ (a ++ x :: r) = done ++ a ++ x :: r := (List.append_assoc ..).symm
    have hSet (x y : UInt8) (r : List UInt8) :
        (done ++ (a ++ x :: r)).set (done.length + a.length) y = done ++ (a ++ y :: r) := by
      rw [hSplit, ← List.length_append, set_after, hSplit]
    have hNext (x : UInt8) : done ++ (a ++ x :: (text lines ++ (tail ++ stale))) =
        done ++ a ++ [x] ++ (text lines ++ (tail ++ stale)) := by simp
    have hPos (x : UInt8) : done.length + a.length + 1 = (done ++ a ++ [x]).length := by
      rw [List.length_append, List.length_append, List.length_singleton]
    rw [eachLine, text_cons, List.append_assoc, List.cons_append, List.drop_left, strchr_line ha]
    dsimp only
    rw [hSet, List.drop_left, cstr_line ha, hSet, List.drop_left]
    split
    · rename_i hMatch
      obtain ⟨done', hLen, hEq⟩ := @ih (done ++ a ++ [newline]) ((a :: lines).length + fuel)
        (out ++ [a ++ [newline]]) hLines (by rw [List.length_cons]; omega)
      refine ⟨done', ?_, ?_⟩
      · rw [hLen]
        simp only [List.length_append, List.length_cons, List.length_nil]
        omega
      · have hLine : (a ++ newline :: (text lines ++ (tail ++ stale))).take (done.length + a.length + 1 - done.length) =
            a ++ [newline] := by
          rw [show done.length + a.length + 1 - done.length = a.length + 1 by omega, List.take_length_add_append]
          rfl
        rw [hLine, hNext, hPos newline, hEq, printed, printed, List.filter_cons_of_pos hMatch, List.map_cons]
        simp
    · rename_i hMatch
      obtain ⟨done', hLen, hEq⟩ := @ih (done ++ a ++ [0]) ((a :: lines).length + fuel) out hLines
        (by rw [List.length_cons]; omega)
      refine ⟨done', ?_, ?_⟩
      · rw [hLen]
        simp only [List.length_append, List.length_cons, List.length_nil]
        omega
      · rw [hNext, hPos 0, hEq, printed, printed, List.filter_cons_of_neg hMatch]

theorem length_memmove (mem : List UInt8) (dst src n : Nat) : (memmove mem dst src n).length = mem.length := by
  induction n generalizing mem dst src with
  | zero => rfl
  | succ n ih => rw [memmove, ih, List.length_set]

theorem getElem?_memmove {mem : List UInt8} {dst src n : Nat} (hLe : dst ≤ src) (hEnd : src + n ≤ mem.length) (i : Nat) :
    (memmove mem dst src n)[i]? = if dst ≤ i ∧ i < dst + n then mem[i + (src - dst)]? else mem[i]? := by
  induction n generalizing mem dst src with
  | zero => rw [memmove, if_neg (by omega)]
  | succ n ih =>
    rw [memmove, ih (by omega) (by rw [List.length_set]; omega)]
    split
    · rename_i hIn
      rw [if_pos (by omega), List.getElem?_set_ne (by omega), show src + 1 - (dst + 1) = src - dst by omega]
    · rename_i hOut
      by_cases hEq : i = dst
      · rw [if_pos (by omega), hEq, List.getElem?_set_self (by omega), show dst + (src - dst) = src by omega,
          List.getD_eq_getElem _ _ (by omega), List.getElem?_eq_getElem (by omega)]
      · rw [if_neg (by omega), List.getElem?_set_ne (Ne.symm hEq)]

theorem prefix_memmove {done : List UInt8} : tail <+: memmove (done ++ (tail ++ stale)) 0 done.length tail.length := by
  rw [List.prefix_iff_getElem?]
  intro i hi
  rw [getElem?_memmove (Nat.zero_le _) (by simp only [List.length_append]; omega), if_pos (by omega), Nat.sub_zero,
    Nat.add_comm, List.getElem?_append_right (by omega), Nat.add_sub_cancel_left, List.getElem?_append_left hi,
    List.getElem?_eq_getElem hi]

end Search

section Turns

variable {pattern chunk carried tail : List UInt8} {lines : List (List UInt8)} {s s' : State}

structure Carries (s : State) (carried : List UInt8) : Prop where
  m : s.m = carried.length
  mem : carried <+: s.mem
  size : bufSz ≤ s.mem.length

/-- What `read` can give: at least a byte, and not more than was asked for. -/
def Reads (s : State) (chunk : List UInt8) : Prop := chunk ≠ [] ∧ s.m + chunk.length ≤ bufSz

/-- The chunk ends a line, and behind it the memory shows no newline in front of a NUL. -/
def Ready (s : State) (chunk : List UInt8) : Prop :=
  newline ∈ chunk ∧ strchr newline (s.mem.drop (s.m.toNat + chunk.length)) = some none

/-- A turn that is ready prints the lines that its chunk ends and keeps the one that it begins. -/
theorem turn_eq (h : Carries s carried) (hReads : Reads s chunk) (hReady : Ready s chunk)
    (hText : carried ++ chunk = text lines ++ tail) (hLines : ∀ a ∈ lines, Plain a) (hTail : Plain tail) :
    ∃ s', turn pattern s chunk = some s' ∧ Carries s' tail ∧ s'.out = s.out ++ printed pattern lines := by
  obtain ⟨hNl, hStale⟩ := hReady
  obtain ⟨hM, ⟨rest, hMem⟩, hSize⟩ := h
  have hNat : s.m.toNat = carried.length := by rw [hM, Int.toNat_natCast]
  have hFill : s.mem.take s.m.toNat ++ chunk ++ s.mem.drop (s.m.toNat + chunk.length) =
      text lines ++ (tail ++ s.mem.drop (s.m.toNat + chunk.length)) := by
    have hTake : s.mem.take s.m.toNat = carried := by rw [hNat, ← hMem, List.take_left]
    rw [hTake, hText, List.append_assoc]
  have hFits : carried.length + chunk.length ≤ s.mem.length := by
    have := hReads.2
    rw [hM] at this
    omega
  have hLen := congrArg List.length hText
  simp only [List.length_append] at hLen
  -- the newline of the chunk is the end of a line
  have hPos : 0 < (text lines).length := by
    by_contra hZero
    have hNil := List.length_eq_zero_iff.mp (by omega : (text lines).length = 0)
    rw [hNil, List.nil_append] at hText
    exact hTail.1 (hText ▸ List.mem_append_right _ hNl)
  have hFuel : lines.length < (text lines ++ (tail ++ s.mem.drop (s.m.toNat + chunk.length))).length + 1 := by
    have := length_le_text lines
    rw [List.length_append]
    omega
  obtain ⟨done, hDone, hLoop⟩ := @eachLine_eq _ _ _ pattern [] _ s.out hLines hTail hStale hFuel
  rw [List.length_nil, Nat.zero_add] at hDone
  rw [List.length_nil, List.nil_append] at hLoop
  have hLeft : s.m + chunk.length - done.length = tail.length := by omega
  refine ⟨⟨memmove (done ++ (tail ++ s.mem.drop (s.m.toNat + chunk.length))) 0 done.length tail.length, tail.length,
    s.out ++ printed pattern lines⟩, ?_, ⟨rfl, prefix_memmove, ?_⟩, rfl⟩
  · rw [turn, if_neg (by omega)]
    dsimp only
    rw [hFill, hLoop]
    dsimp only
    have hTook : done.length ≠ 0 := by omega
    have hSome : s.m + chunk.length > 0 := by omega
    rw [if_neg hTook, if_pos hSome, hLeft, Int.toNat_natCast]
  · rw [length_memmove]
    simp only [List.length_append, List.length_drop]
    omega

structure Taken (pattern : List UInt8) (s : State) (input : List UInt8) : Prop where
  split : ∃ lines carried, input = text lines ++ carried ∧ (∀ a ∈ lines, Plain a) ∧ Plain carried ∧
    Carries s carried ∧ s.out = printed pattern lines

theorem Taken.turn {input : List UInt8} (h : Taken pattern s input) (hNz : 0 ∉ chunk) (hReads : Reads s chunk)
    (hReady : Ready s chunk) : ∃ s', Grep.turn pattern s chunk = some s' ∧ Taken pattern s' (input ++ chunk) := by
  obtain ⟨lines, carried, rfl, hLines, hCarried, hCarries, hOut⟩ := h.split
  have hNzAll : 0 ∉ carried ++ chunk := by
    rw [List.mem_append]
    exact not_or.mpr ⟨hCarried.2, hNz⟩
  obtain ⟨ended, tail, hText, hEnded, hTail⟩ := exists_lines hNzAll
  obtain ⟨s', hs', hCarries', hOut'⟩ := turn_eq hCarries hReads hReady hText hEnded hTail
  refine ⟨s', hs', lines ++ ended, tail, ?_, List.forall_mem_append.mpr ⟨hLines, hEnded⟩, hTail, hCarries', ?_⟩
  · rw [List.append_assoc, hText, text_append, List.append_assoc]
  · rw [hOut', hOut, printed_append]

/-- A run of turns whose chunks `read` can give, each of them ready. -/
def AllReady (pattern : List UInt8) : State → List (List UInt8) → Prop
  | _, [] => True
  | s, chunk :: chunks =>
    Reads s chunk ∧ Ready s chunk ∧ ∀ s', turn pattern s chunk = some s' → AllReady pattern s' chunks

theorem Taken.run {chunks : List (List UInt8)} {input : List UInt8} (h : Taken pattern s input) (hNz : ∀ c ∈ chunks, 0 ∉ c)
    (hReady : AllReady pattern s chunks) : ∃ s', grep pattern s chunks = some s' ∧ Taken pattern s' (input ++ chunks.flatten) := by
  induction chunks generalizing s input with
  | nil => exact ⟨s, rfl, by rwa [List.flatten_nil, List.append_nil]⟩
  | cons chunk chunks ih =>
    obtain ⟨hReads, hNow, hLater⟩ := hReady
    obtain ⟨hHead, hNz⟩ := List.forall_mem_cons.mp hNz
    obtain ⟨s₁, hs₁, hTaken⟩ := h.turn hHead hReads hNow
    obtain ⟨s', hs', hTaken'⟩ := ih hTaken hNz (hLater s₁ hs₁)
    refine ⟨s', ?_, ?_⟩
    · rw [grep, execute, hs₁]
      exact hs'
    · rwa [List.flatten_cons, ← List.append_assoc]

theorem AllReady.take {chunks : List (List UInt8)} (h : AllReady pattern s chunks) (k : Nat) :
    AllReady pattern s (chunks.take k) := by
  induction chunks generalizing s k with
  | nil => rwa [List.take_nil]
  | cons chunk chunks ih =>
    cases k with
    | zero => trivial
    | succ k => exact ⟨h.1, h.2.1, fun s' hs' => ih (h.2.2 s' hs') k⟩

end Turns

/-- Where every chunk that is read ends a line, and the memory behind it shows no newline in front of a
NUL, `grep` prints the lines that match, once each and in order, and the fill count stays below the size
of the buffer. -/
theorem grep_prints (pattern : List UInt8) {lines chunks : List (List UInt8)} {s : State}
    (hLines : ∀ l ∈ lines, newline ∉ l ∧ 0 ∉ l ∧ l.length < bufSz) (hInput : chunks.flatten = text lines)
    (hMem : bufSz ≤ s.mem.length) (hStart : s.m = 0 ∧ s.out = []) (hReady : AllReady pattern s chunks) :
    (∃ s', grep pattern s chunks = some s' ∧ s'.out = printed pattern lines) ∧
      ∀ k ≤ chunks.length, ∃ s', grep pattern s (chunks.take k) = some s' ∧ 0 ≤ s'.m ∧ s'.m < bufSz := by
  have hPlain : ∀ l ∈ lines, Plain l := fun l hl => ⟨(hLines l hl).1, (hLines l hl).2.1⟩
  have hNzText : 0 ∉ text lines := by
    intro hZero
    obtain ⟨l, hl, hZero⟩ := List.mem_flatMap.mp hZero
    cases List.mem_append.mp hZero with
    | inl hIn => exact (hPlain l hl).2 hIn
    | inr hIn => exact absurd (List.mem_singleton.mp hIn) (by decide)
  have hNz : ∀ c ∈ chunks, 0 ∉ c := by
    intro c hc hZero
    exact hNzText (hInput ▸ List.mem_flatten.mpr ⟨c, hc, hZero⟩)
  have hTaken : Taken pattern s [] :=
    ⟨[], [], rfl, fun _ ha => absurd ha List.not_mem_nil, Plain.nil, ⟨hStart.1, List.nil_prefix, hMem⟩, hStart.2⟩
  constructor
  · obtain ⟨s', hs', hTaken'⟩ := hTaken.run hNz hReady
    obtain ⟨done, carried, hSplit, hDone, hCarried, -, hOut⟩ := hTaken'.split
    rw [List.nil_append, hInput] at hSplit
    have hWhole : text done ++ carried <+: text lines := hSplit ▸ List.prefix_refl _
    obtain ⟨more, rfl, hMore⟩ := text_prefix hWhole hDone hPlain
    -- the last line has its newline, so that nothing is left over
    have hNil : more = [] := by
      cases more with
      | nil => rfl
      | cons l more =>
        rw [text_append, List.append_cancel_left_eq] at hSplit
        refine absurd ?_ hCarried.1
        rw [← hSplit, text_cons]
        exact List.mem_append_right _ List.mem_cons_self
    refine ⟨s', hs', ?_⟩
    rw [hOut, hNil, List.append_nil]
  · intro k hk
    obtain ⟨s', hs', hTaken'⟩ := hTaken.run (fun c hc => hNz c (List.mem_of_mem_take hc)) (hReady.take k)
    obtain ⟨done, carried, hSplit, hDone, hCarried, hCarries, -⟩ := hTaken'.split
    have hPrefix : text done ++ carried <+: text lines := by
      rw [← hSplit, List.nil_append, ← hInput]
      exact (List.take_prefix k chunks).flatten
    obtain ⟨more, rfl, hMore⟩ := text_prefix hPrefix hDone hPlain
    have hShort : carried.length < bufSz := by
      cases more with
      | nil => rw [List.prefix_nil.mp hMore]; decide
      | cons l more =>
        have hl := (hLines l (List.mem_append_right _ List.mem_cons_self)).2.2
        have := plain_prefix_length hMore hCarried
        omega
    refine ⟨s', hs', ?_, ?_⟩
    · rw [hCarries.m]
      omega
    · rw [hCarries.m]
      omega

def zeroState : State := ⟨List.replicate bufSz 0, 0, []⟩

theorem grep_prints_one : ∃ s', grep [97] zeroState [[97, 10, 98, 10]] = some s' ∧ s'.out = printed [97] [[97], [98]] :=
  (@grep_prints [97] [[97], [98]] [[97, 10, 98, 10]] zeroState (by decide) (by decide)
    (by simp [zeroState]) ⟨rfl, rfl⟩ ⟨⟨by decide, by decide⟩, ⟨by decide, rfl⟩, fun _ _ => trivial⟩).1

/-- The line `ab` read in two pieces is not printed for the pattern `ab`. With pattern `a` the stale end of
a line that was carried is printed as a line, and the fill count is negative after it. -/
theorem grep_depends_on_chunks :
    (grep [97, 98] zeroState [[97], [98, 10]]).map (·.out) ≠ some (printed [97, 98] [[97, 98]]) ∧
    (grep [97] zeroState [[97, 97, 97, 97, 10, 98], [99, 10]]).map (fun s => (s.out, s.m)) =
      some (printed [97] [[97, 97, 97, 97], [98, 99]] ++ [[97, 10]], -2) := by
  constructor
  · decide +kernel
  · decide +kernel

end Xv6Rpi.Grep
