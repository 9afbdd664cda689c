import Xv6Rpi.Process.Load

/-! # The argument stack

Below the top of the stack page lie the argument strings, each below the one before, and below
them the array of their addresses. `copyout` refuses the guard page, so nothing goes below the
stack page. `K` is the number of the guard page, and the stack page is the one after it.
-/

namespace Xv6Rpi.Process

open Prog Sched Uvm

def Has (byte : Nat → UInt8) (off : Nat) (l : List UInt8) : Prop := ∀ j (h : j < l.length), byte (off + j) = l[j]

/-- Between the offsets `lo` and `hi` of a page that begins at `base` the strings lie at the
addresses `l`, each aligned and below the one before. -/
inductive Laid (byte : Nat → UInt8) (base : Nat) : Nat → List (List UInt8) → List Nat → Nat → Prop
  | nil (hi : Nat) : Laid byte base hi [] [] hi
  | cons {hi off lo : Nat} {str : List UInt8} {argv : List (List UInt8)} {l : List Nat} (hAligned : off % 4 = 0)
      (hHigh : off + (str.length + 1) ≤ hi) (hBytes : Has byte off (str ++ [0])) (hRest : Laid byte base off argv l lo) :
      Laid byte base hi (str :: argv) ((base + off) :: l) lo

/-- The new directory `d` has a guard page `K`, and `v` is the stack page after it. -/
structure Stacked (m m' : Mem) (d K v : Nat) (T : Nat → Option Nat) (P : Nat → Option (Nat × Nat)) : Prop extends
    Built m m' d T P where
  top : P (K + 1) = some (v, apKu)
  guard : ∃ g, P K = some (g, apKo)
  table : ∀ j ≤ K, T (j / 256) ≠ none
  low : K + 1 < npages

section Laid

variable {byte byte' : Nat → UInt8} {base hi lo off : Nat} {argv : List (List UInt8)} {l : List Nat} {bytes : List UInt8}

theorem Has.congr (h : Has byte off bytes) (hByte : ∀ j, off ≤ j → byte' j = byte j) : Has byte' off bytes :=
  fun j hj => (hByte _ (Nat.le_add_right off j)).trans (h j hj)

theorem Laid.le (h : Laid byte base hi argv l lo) : lo ≤ hi := by
  induction h with
  | nil hi => exact le_rfl
  | cons _ hHigh _ _ ih => omega

theorem Laid.length (h : Laid byte base hi argv l lo) : l.length = argv.length := by
  induction h with
  | nil hi => rfl
  | cons _ _ _ _ ih => rw [List.length_cons, List.length_cons, ih]

theorem Laid.congr (h : Laid byte base hi argv l lo) (hByte : ∀ j, lo ≤ j → byte' j = byte j) :
    Laid byte' base hi argv l lo := by
  induction h with
  | nil hi => exact .nil hi
  | cons hAligned hHigh hBytes hRest ih =>
    exact .cons hAligned hHigh (hBytes.congr fun j hj => hByte j (hRest.le.trans hj)) (ih hByte)

end Laid

section Push

variable {R : Rely Kernel Stop Label} {s₀ s s' : Kernel} {m m₁ m' : Mem} {d sz va K v : Nat} {T T' : Nat → Option Nat}
  {P P' : Nat → Option (Nat × Nat)}

theorem has_store (m : Mem) (v off : Nat) (bytes : List UInt8) : Has ((m.store v off bytes).byte v) off bytes := by
  intro j hj
  have hIn : off ≤ off + j ∧ off + j < off + bytes.length := ⟨Nat.le_add_right off j, Nat.add_lt_add_left hj off⟩
  simp only [Mem.store, Function.update_self, if_pos hIn, Nat.add_sub_cancel_left]
  rw [List.getD_eq_getElem?_getD, List.getElem?_eq_getElem hj, Option.getD_some]

theorem store_above (m : Mem) (v off : Nat) (bytes : List UInt8) {j : Nat} (hj : off + bytes.length ≤ j) :
    (m.store v off bytes).byte v j = m.byte v j := by
  have hOut : ¬(off ≤ j ∧ j < off + bytes.length) := by omega
  simp only [Mem.store, Function.update_self, if_neg hOut]

theorem Stacked.touch (h : Stacked m m₁ d K v T P) (hTouch : Touch m₁ m' d T T P P) (hDir : Dir m' d T P) : Stacked m m' d K v T P where
  toBuilt := h.toBuilt.touch hTouch hDir h.solid
  top := h.top
  guard := h.guard
  table := h.table
  low := h.low

theorem Stacked.store (h : Stacked m m₁ d K v T P) (off : Nat) (bytes : List UInt8) :
    Stacked m (m₁.store v off bytes) d K v T P := by
  obtain ⟨hDir, hTouch⟩ := h.dir.store ⟨_, _, h.top⟩ off bytes
  exact h.touch hTouch hDir

theorem Stacked.guarded (h : Stacked m m₁ d K v T P) {k : Nat} (hk : k ≤ K) : Guarded T P k := by
  obtain ⟨g, hg⟩ := h.guard
  refine ⟨K, hk, ?_, fun j _ hj => h.table j hj⟩
  rw [userPage, hg]
  exact if_neg (by decide)

/-- `copyout` to addresses that end in the stack page or right below: either all of it is in the
stack page, or it fails. -/
theorem wp_push {R : Rely Mem Panic Uvm.Label} (hR : R.Calm) (h : Stacked m m₁ d K v T P) {buf : List UInt8}
    (hPos : 0 < buf.length) (hLow : (K + 1) * pteSz < va + buf.length + 4) (hHigh : va + buf.length ≤ (K + 2) * pteSz)
    {Q : Int → Mem → Prop} (hDone : ∀ off, va = (K + 1) * pteSz + off → Q 0 (m₁.store v off buf))
    (hFail : ∀ m', va < (K + 1) * pteSz → Stacked m m' d K v T P → Q (-1) m') : wp R (copyout d va buf) Q m₁ := by
  have hK := h.low
  simp only [npages, numUpde, numPte] at hK
  by_cases hIn : (K + 1) * pteSz ≤ va
  · obtain ⟨off, rfl⟩ : ∃ off, va = (K + 1) * pteSz + off := ⟨va - (K + 1) * pteSz, by omega⟩
    refine wp_copyout_page hR h.dir h.top ?_ hPos (hDone off rfl)
    simp only [pteSz] at *
    omega
  · have hReach : K * pteSz < va + buf.length := by
      have hFour : 4 ≤ pteSz := by decide
      rw [Nat.succ_mul] at hLow
      linarith
    have hVa : va < 2 ^ 32 := by
      simp only [pteSz] at *
      omega
    have hPage : va / pteSz ≤ K := by
      simp only [pteSz] at *
      omega
    apply wp_copyout hR h.dir hVa (.inr (h.guarded hPage))
    intro r m' hDir hTouch hResult hAll
    obtain rfl | rfl := hResult
    · have hGuard := hAll rfl K hPage hReach hPos
      obtain ⟨g, hg⟩ := h.guard
      rw [userPage, hg] at hGuard
      exact absurd (if_neg (by decide)) hGuard
    · exact hFail m' (Nat.lt_of_not_le hIn) (h.touch hTouch hDir)

theorem push_addr {len sp : Nat} (hSp : sp < 2 ^ 32) (hLen : len + 1 ≤ sp) :
    alignDn ((sp + 2 ^ 32 - (len + 1)) % 2 ^ 32) 4 = (sp - (len + 1)) / 4 * 4 := by
  have hWrap : (sp + 2 ^ 32 - (len + 1)) % 2 ^ 32 = sp - (len + 1) := by omega
  rw [hWrap]
  exact alignDn_eq _ 2 (by omega) (by decide)

/-- A string that is longer than the stack pointer goes beyond the user addresses. -/
theorem push_wraps {len sp : Nat} (hLen : len + 1 ≤ uaddrSz) (hShort : sp < len + 1) :
    uaddrSz ≤ alignDn ((sp + 2 ^ 32 - (len + 1)) % 2 ^ 32) 4 ∧
      alignDn ((sp + 2 ^ 32 - (len + 1)) % 2 ^ 32) 4 < 2 ^ 32 := by
  have hLt : (sp + 2 ^ 32 - (len + 1)) % 2 ^ 32 < 2 ^ 32 := Nat.mod_lt _ (by decide)
  have hAddr := alignDn_eq ((sp + 2 ^ 32 - (len + 1)) % 2 ^ 32) 2 hLt (by decide)
  rw [show 2 ^ 2 = 4 from rfl] at hAddr
  rw [hAddr]
  simp only [uaddrSz] at *
  omega

/-- The strings are laid on the stack page, or one of them does not fit there; there is a panic exactly if one
is longer than the stack pointer. -/
theorem wp_pushArgs (argv : List (List UInt8)) {off left : Nat} {ustack : List Nat}
    (hR : Loads R (ArgsFit ((K + 1) * pteSz) left ((K + 1) * pteSz + off) (argv.map List.length))) (hSame : SameProc s₀ s)
    (h : Stacked s₀.mem s.mem d K v T P) (hOff : off ≤ pteSz) (hAligned : off % 4 = 0)
    (hLen : ∀ str ∈ argv, str.length + 1 ≤ uaddrSz) (hLeft : ustack.length + left = maxarg)
    {Q : Option (Nat × List Nat) → Kernel → Prop}
    (hDone : ∀ s' lo l, ArgsFit ((K + 1) * pteSz) left ((K + 1) * pteSz + off) (argv.map List.length) → SameProc s₀ s' →
      Stacked s₀.mem s'.mem d K v T P → lo % 4 = 0 → Laid (s'.mem.byte v) ((K + 1) * pteSz) off argv l lo →
      (∀ j, off ≤ j → s'.mem.byte v j = s.mem.byte v j) → argv.length ≤ left →
      Q (some ((K + 1) * pteSz + lo, ustack ++ l)) s')
    (hFail : ∀ s', ArgsFit ((K + 1) * pteSz) left ((K + 1) * pteSz + off) (argv.map List.length) → SameProc s₀ s' →
      Built s₀.mem s'.mem d T P → Q none s') :
    wp R (pushArgs d ((K + 1) * pteSz + off) ustack argv) Q s := by
  have hK := h.low
  simp only [npages, numUpde, numPte] at hK
  induction argv generalizing off left ustack s with
  | nil =>
    have hEnd := hDone s off [] (by cases left <;> trivial) hSame h hAligned (.nil off) (fun _ _ => rfl) (Nat.zero_le left)
    rw [List.append_nil] at hEnd
    exact hEnd
  | cons str argv ih =>
    have hStr := hLen str List.mem_cons_self
    rw [pushArgs]
    cases left with
    | zero =>
      rw [Nat.add_zero] at hLeft
      rw [if_pos hLeft.ge, wp_pure]
      exact hFail s trivial hSame h.toBuilt
    | succ left =>
      have hMore : ¬maxarg ≤ ustack.length := by omega
      have hBuf : (str ++ [0]).length = str.length + 1 := by rw [List.length_append, List.length_singleton]
      have hPos : 0 < (str ++ [0]).length := by omega
      have hSp : (K + 1) * pteSz + off < 2 ^ 32 := by
        simp only [pteSz] at *
        omega
      have hBase : (K + 1) * pteSz % 4 = 0 := by
        rw [show pteSz = 4 * 1024 from rfl, ← Nat.mul_assoc, Nat.mul_right_comm, Nat.mul_mod_left]
      rw [if_neg hMore, wp_bind]
      apply wp_onMem
      by_cases hRoom : str.length + 1 ≤ (K + 1) * pteSz + off
      · rw [push_addr hSp hRoom]
        refine wp_push (hR.mem s) h hPos ?_ ?_ ?_ ?_
        · rw [hBuf]
          omega
        · rw [hBuf, show (K + 2) * pteSz = (K + 1) * pteSz + pteSz from Nat.succ_mul ..]
          omega
        · intro off' hAddr
          have hOff' : off' % 4 = 0 := by omega
          have hTop : off' + (str.length + 1) ≤ off := by omega
          have hIn : (K + 1) * pteSz + (str.length + 1) ≤ (K + 1) * pteSz + off := by omega
          have hRest : ArgsFit ((K + 1) * pteSz) left ((K + 1) * pteSz + off') (argv.map List.length) →
              ArgsFit ((K + 1) * pteSz) (left + 1) ((K + 1) * pteSz + off) ((str :: argv).map List.length) := fun hFits =>
            ⟨hRoom, fun _ => by rwa [hAddr]⟩
          rw [if_neg (by decide), hAddr]
          refine @ih _ off' left _ (hR.mono fun hFits => ?_) (hSame.setMem _) (h.store off' (str ++ [0])) (by omega) hOff'
            (fun x hx => hLen x (List.mem_cons_of_mem str hx)) ?_ ?_ ?_
          · rw [← hAddr]
            exact hFits.2 hIn
          · rw [List.length_append, List.length_singleton]
            omega
          · intro s' lo l hFits hSame' h' hLo hLaid hAbove hNum
            have hNew : Has (s'.mem.byte v) off' (str ++ [0]) := (has_store s.mem v off' (str ++ [0])).congr hAbove
            have hEnd := hDone s' lo (((K + 1) * pteSz + off') :: l) (hRest hFits) hSame' h' hLo
              (.cons hOff' hTop hNew hLaid) ?_ (Nat.succ_le_succ hNum)
            · rwa [List.append_cons] at hEnd
            · intro j hj
              rw [hAbove j (by omega)]
              exact store_above s.mem v off' (str ++ [0]) (by rw [hBuf]; omega)
          · exact fun s' hFits => hFail s' (hRest hFits)
        · intro m' hLow h'
          rw [if_pos (by decide), wp_pure]
          exact hFail _ ⟨hRoom, fun hIn => by omega⟩ (hSame.setMem m') h'.toBuilt
      · obtain ⟨hHigh, hLt⟩ := push_wraps hStr (Nat.lt_of_not_le hRoom)
        apply wp_copyout_outside (hR.mem s) h.dir hLt hHigh hPos
        exact hR.panic (fun hFits => hRoom hFits.1) _ (by decide)

theorem Guards.checked_pushArgs {J : Judge Kernel Stop Label} (hJ : Guards J) (sp : Nat) (ustack : List Nat)
    (argv : List (List UInt8)) : (pushArgs d sp ustack argv).Checked J := by
  induction argv generalizing sp ustack with
  | nil => exact checked_pure _
  | cons str argv ih =>
    rw [pushArgs]
    split
    · exact checked_pure _
    · refine checked_bind (hJ.checked_onMem fun h => h.copyout _ _ _) fun r => ?_
      split
      · exact checked_pure _
      · exact ih _ _

end Push

end Xv6Rpi.Process
