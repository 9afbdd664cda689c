import Xv6Rpi.Process.Outcome

/-! # How a program starts

What a process finds through its own addresses when `exec` has succeeded: the number of its
arguments, and on the stack the array of their addresses and the strings.
-/

namespace Xv6Rpi.Process

open Prog Sched Uvm

def userWord (m : Mem) (d va : Nat) : Option Nat := (userBytes m d va 4).map fun b => Fs.word b 0

/-- The memory that holds the argument array at `sp` and the strings at `l`, each piece by its
address and its length. -/
def argAreas (sp : Nat) (argv : List (List UInt8)) (l : List Nat) : List (Nat × Nat) :=
  (sp, 4 * (argv.length + 1)) :: List.zipWith (fun a str => (a, str.length + 1)) l argv

/-- The process starts with `argv`, whose strings are at the addresses `l`. -/
structure Starts (s : Kernel) (p : Slot) (argv : List (List UInt8)) (l : List Nat) : Prop where
  argc : (s.user p).tf.r 0 = argv.length
  argvPtr : (s.user p).tf.r 1 = (s.user p).tf.spUsr
  aligned : (s.user p).tf.spUsr % 4 = 0
  count : l.length = argv.length
  words : ∀ i (hi : i < l.length), userWord s.mem (s.pgdir p) ((s.user p).tf.spUsr + 4 * i) = some l[i]
  last : userWord s.mem (s.pgdir p) ((s.user p).tf.spUsr + 4 * argv.length) = some 0
  strings : ∀ i (hi : i < l.length) (hi' : i < argv.length),
    userBytes s.mem (s.pgdir p) l[i] (argv[i].length + 1) = some (argv[i] ++ [0])
  inside : ∀ a ∈ argAreas (s.user p).tf.spUsr argv l, s.sz p - pteSz ≤ a.1 ∧ a.1 + a.2 ≤ s.sz p
  apart : (argAreas (s.user p).tf.spUsr argv l).Pairwise fun a b => a.1 + a.2 ≤ b.1 ∨ b.1 + b.2 ≤ a.1
  top : ∀ va, s.sz p - pteSz ≤ va → va < s.sz p → ∃ v, translate s.mem (s.pgdir p) va = some (v, apKu)
  guard : ∀ va, s.sz p - 2 * pteSz ≤ va → va < s.sz p - pteSz → ∃ g, translate s.mem (s.pgdir p) va = some (g, apKo)

section Laid

variable {byte : Nat → UInt8} {base hi lo off : Nat} {argv : List (List UInt8)} {l : List Nat}

theorem Laid.inside (h : Laid byte base hi argv l lo) :
    ∀ a ∈ List.zipWith (fun a str => (a, str.length + 1)) l argv, base + lo ≤ a.1 ∧ a.1 + a.2 ≤ base + hi := by
  induction h with
  | nil hi => exact fun a ha => absurd ha List.not_mem_nil
  | cons hAligned hHigh hBytes hRest ih =>
    intro a ha
    rw [List.zipWith_cons_cons] at ha
    obtain rfl | ha := List.mem_cons.mp ha
    · have hLe := hRest.le
      dsimp only
      omega
    · obtain ⟨h₁, h₂⟩ := ih a ha
      omega

theorem Laid.apart (h : Laid byte base hi argv l lo) :
    (List.zipWith (fun a str => (a, str.length + 1)) l argv).Pairwise fun a b => a.1 + a.2 ≤ b.1 ∨ b.1 + b.2 ≤ a.1 := by
  induction h with
  | nil hi => exact .nil
  | cons hAligned hHigh hBytes hRest ih =>
    rw [List.zipWith_cons_cons, List.pairwise_cons]
    exact ⟨fun b hb => .inr (hRest.inside b hb).2, ih⟩

theorem Laid.bytes (h : Laid byte base hi argv l lo) {i : Nat} (hIdx : i < l.length) (hIdx' : i < argv.length) :
    ∃ off, l[i] = base + off ∧ off + (argv[i] ++ [0]).length ≤ hi ∧ Has byte off (argv[i] ++ [0]) := by
  induction h generalizing i with
  | nil hi => exact absurd hIdx (Nat.not_lt_zero i)
  | cons hAligned hHigh hBytes hRest ih =>
    cases i with
    | zero => exact ⟨_, rfl, by rw [List.getElem_cons_zero, List.length_append]; exact hHigh, hBytes⟩
    | succ i =>
      obtain ⟨off, hEq, hEnd, hHas⟩ := ih (Nat.lt_of_succ_lt_succ hIdx) (Nat.lt_of_succ_lt_succ hIdx')
      exact ⟨off, hEq, by simp only [List.getElem_cons_succ]; omega, hHas⟩

theorem Laid.addr (h : Laid byte base hi argv l lo) : ∀ a ∈ l, a ≤ base + hi := by
  induction h with
  | nil hi => exact fun a ha => absurd ha List.not_mem_nil
  | cons hAligned hHigh hBytes hRest ih =>
    intro a ha
    obtain rfl | ha := List.mem_cons.mp ha
    · omega
    · have hLe := ih a ha
      omega

end Laid

section Words

variable {byte : Nat → UInt8} {off : Nat}

theorem Has.left {a b : List UInt8} (h : Has byte off (a ++ b)) : Has byte off a := by
  intro j hj
  rw [h j (by rw [List.length_append]; omega), List.getElem_append_left hj]

theorem Has.right {a b : List UInt8} (h : Has byte off (a ++ b)) : Has byte (off + a.length) b := by
  intro j hj
  have hAll := h (a.length + j) (by rw [List.length_append]; omega)
  rw [Nat.add_assoc, hAll, List.getElem_append_right (Nat.le_add_right _ _)]
  simp only [Nat.add_sub_cancel_left]

theorem wordBytes_cons (w : Nat) (l : List Nat) : wordBytes (w :: l) = wordBytes [w] ++ wordBytes l := by
  rw [wordBytes, List.flatMap_cons, wordBytes, List.flatMap_cons, List.flatMap_nil, List.append_nil, wordBytes]

theorem Has.word {l : List Nat} (h : Has byte off (wordBytes l)) {i : Nat} (hi : i < l.length) :
    Has byte (off + 4 * i) (wordBytes [l[i]]) := by
  induction l generalizing off i with
  | nil => exact absurd hi (Nat.not_lt_zero i)
  | cons w l ih =>
    rw [wordBytes_cons] at h
    cases i with
    | zero => exact h.left
    | succ i =>
      have hRest := ih h.right (Nat.lt_of_succ_lt_succ hi)
      have hOff : off + (wordBytes [w]).length + 4 * i = off + 4 * (i + 1) := by
        rw [wordBytes_length, List.length_singleton]
        omega
      rwa [hOff] at hRest

theorem word_wordBytes {w : Nat} (hw : w < 2 ^ 32) : Fs.word (wordBytes [w]) 0 = w := by
  have hDigits : ∀ j < 4, (fun j => (wordBytes [w]).getD j 0) (0 + j) = UInt8.ofNat (w / 256 ^ j) := by
    intro j hj
    interval_cases j <;> simp [wordBytes]
  rw [Fs.word, Fs.getWord, Fs.getInt_of_digits hDigits]
  exact Nat.mod_eq_of_lt hw

end Words

section Start

variable {s s' : Kernel} {p : Slot} {path header : List UInt8} {argv : List (List UInt8)} {K v off : Nat} {l : List Nat}

theorem userBytes_top {m : Mem} {d : Nat} (hTop : ∀ va, va / pteSz = K + 1 → translate m d va = some (v, apKu))
    {bytes : List UInt8} (hHas : Has (m.byte v) off bytes) (hEnd : off + bytes.length ≤ pteSz) :
    userBytes m d ((K + 1) * pteSz + off) bytes.length = some bytes := by
  induction bytes generalizing off with
  | nil => rfl
  | cons c bytes ih =>
    rw [List.length_cons] at hEnd
    have hOff : off < pteSz := by omega
    have hByte : userByte m d ((K + 1) * pteSz + off) = some c := by
      have hPage : ((K + 1) * pteSz + off) / pteSz = K + 1 := by
        rw [Nat.mul_comm, Nat.mul_add_div (by decide), Nat.div_eq_of_lt hOff, Nat.add_zero]
      have hIn : ((K + 1) * pteSz + off) % pteSz = off := by
        rw [Nat.mul_comm, Nat.mul_add_mod, Nat.mod_eq_of_lt hOff]
      rw [userByte, hTop _ hPage, Option.map_some, hIn]
      exact congrArg some (hHas 0 (Nat.succ_pos _))
    have hRest : userBytes m d ((K + 1) * pteSz + (off + 1)) bytes.length = some bytes :=
      ih (Has.right (a := [c]) hHas) (by omega)
    rw [List.length_cons, userBytes, hByte, Nat.add_assoc, hRest]
    rfl

theorem userWord_top {m : Mem} {d w : Nat} (hTop : ∀ va, va / pteSz = K + 1 → translate m d va = some (v, apKu))
    (hHas : Has (m.byte v) off (wordBytes [w])) (hEnd : off + 4 ≤ pteSz) (hw : w < 2 ^ 32) :
    userWord m d ((K + 1) * pteSz + off) = some w := by
  have hLength : (wordBytes [w]).length = 4 := wordBytes_length [w]
  have hBytes := userBytes_top hTop hHas (by rw [hLength]; exact hEnd)
  rw [hLength] at hBytes
  rw [userWord, hBytes, Option.map_some, word_wordBytes hw]

theorem Started.starts (h : Started s s' p argv K v off l) : Starts s' p argv l := by
  have hK := h.low
  have hLength := h.laid.length
  have hLe := h.laid.le
  have hBase : s'.sz p - pteSz = (K + 1) * pteSz := by
    rw [h.size, Nat.succ_mul, Nat.add_sub_cancel]
  have hSize : s'.sz p = (K + 1) * pteSz + pteSz := h.size.trans (Nat.succ_mul ..)
  have hGuard : s'.sz p - 2 * pteSz = K * pteSz := by
    rw [h.size, ← Nat.sub_mul, Nat.add_sub_cancel]
  have hPage : ∀ va k, k * pteSz ≤ va → va < k * pteSz + pteSz → va / pteSz = k := by
    intro va k hLow hHigh
    rw [Nat.div_eq_iff (by decide)]
    omega
  have hWord : ∀ i (hi : i < (l ++ [0]).length),
      userWord s'.mem (s'.pgdir p) ((s'.user p).tf.spUsr + 4 * i) = some (l ++ [0])[i] := by
    intro i hi
    have hIdx : i < l.length + 1 := by
      rwa [List.length_append, List.length_singleton] at hi
    rw [h.sp, Nat.add_assoc]
    refine userWord_top h.top (h.array.word hi) (by omega) ?_
    have hMem : (l ++ [0])[i] ∈ l ++ [0] := List.getElem_mem hi
    obtain hMem | hMem := List.mem_append.mp hMem
    · have hAddr := h.laid.addr _ hMem
      simp only [npages, numUpde, numPte, pteSz] at hK hAddr
      omega
    · rw [List.mem_singleton.mp hMem]
      decide
  constructor
  · exact h.argc
  · rw [h.argvPtr, h.sp]
  · rw [h.sp, Nat.add_mod, Nat.mul_mod, h.aligned]
    rfl
  · exact hLength
  · intro i hi
    have hSome := hWord i (by rw [List.length_append]; exact hi.trans (Nat.lt_succ_self _))
    rwa [List.getElem_append_left hi] at hSome
  · have hSome := hWord l.length (by rw [List.length_append]; exact Nat.lt_succ_self _)
    rwa [List.getElem_concat_length rfl, hLength] at hSome
  · intro i hi hi'
    obtain ⟨o, hEq, hEnd, hHas⟩ := h.laid.bytes hi hi'
    have hBytes := userBytes_top h.top hHas hEnd
    rwa [List.length_append, List.length_singleton, ← hEq] at hBytes
  · intro a ha
    obtain rfl | ha := List.mem_cons.mp ha
    · dsimp only
      rw [hBase, hSize, h.sp]
      omega
    · obtain ⟨hLow, hHigh⟩ := h.laid.inside a ha
      omega
  · rw [argAreas, List.pairwise_cons]
    refine ⟨fun b hb => .inl ?_, h.laid.apart⟩
    have hLow := (h.laid.inside b hb).1
    dsimp only
    rw [h.sp]
    omega
  · intro va hLow hHigh
    exact ⟨v, h.top va (hPage va (K + 1) (by omega) (by omega))⟩
  · intro va hLow hHigh
    exact h.guard va (hPage va K (by omega) (by omega))

/-- Where `exec` returns 0 the process starts with its argument strings, whatever the file. -/
theorem exec_starts (hDir : IsDir s.mem (s.pgdir p)) (hMaps : Maps s.mem (s.pgdir p) (s.sz p))
    (hLen : ∀ str ∈ argv, str.length < uaddrSz) (hRun : (exec p path argv header).run s = .ok (0, s')) :
    ∃ l, Starts s' p argv l := by
  obtain ⟨T, P, hOld⟩ := hDir
  have hPages := hOld.maps_iff.mp hMaps
  have hJudge : judge (Watch.judge ⟨False, False, False, True⟩) (exec p path argv header)
      (fun r s' => r = 0 → ∃ l, Starts s' p argv l) (fun _ _ => False) s := by
    refine judge_exec hOld (solid_of_pages hPages npages) hLen (fun s' K v off l hStarted _ => ⟨l, hStarted.starts⟩) ?_ ?_
    · exact fun s' _ _ hFalse => absurd hFalse (by decide)
    · exact False.elim
  have hMay : (exec p path argv header).along (Watch.judge ⟨False, False, False, True⟩).may s :=
    along_of_forall fun l s => by cases l <;> trivial
  exact (judge_run hJudge hMay hRun).resolve_right id rfl

/-- A program without segments is called with the string `hi`. -/
theorem exec_starts_hi : ∃ s' l, (exec 0 [97] [[104, 105]] []).run
    (withFile (elfHeader 0) [0x8001A000, 0x80202000, 0x8001B000, 0x80203000]) = .ok (0, s') ∧
      Starts s' 0 [[104, 105]] l := by
  have hResult : ((exec 0 [97] [[104, 105]] []).run
      (withFile (elfHeader 0) [0x8001A000, 0x80202000, 0x8001B000, 0x80203000])).toOption.map (·.1) = some 0 := by
    decide +kernel
  obtain ⟨⟨r, s'⟩, hRun, hEq⟩ := Option.map_eq_some_iff.mp hResult
  obtain rfl : r = 0 := hEq
  have hRun := toOption_eq_some.mp hRun
  obtain ⟨l, hStarts⟩ := exec_starts (withFile_dir _ _) (withFile_maps _ _) (by decide) hRun
  exact ⟨s', l, hRun, hStarts⟩

end Start

end Xv6Rpi.Process
