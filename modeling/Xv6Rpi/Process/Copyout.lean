import Xv6Rpi.Process.Exec
import Xv6Rpi.Uvm.Gaps

/-! # Copying to user addresses

`copyout` is cut at the ends of pages, and what it has put down is exactly the bytes copied so far.
`uva2ka` reads the entry of a page before it knows that there is one, so `copyout` goes through a
null pointer where it comes to a missing page table.
-/

namespace Xv6Rpi.Process

open Prog Uvm

def Overlaps (va len k : Nat) : Prop := 0 < len ∧ va < (k + 1) * pteSz ∧ k * pteSz < va + len

def Accessible (m : Mem) (d k : Nat) : Prop := ∃ v, translate m d (k * pteSz) = some (v, apKu)

/-- A page of the range has no page table, and all those before it can be written. -/
def Blind (m : Mem) (d va len : Nat) : Prop :=
  ∃ k, Overlaps va len k ∧ m.tab d (pdeIdx (k * pteSz)) &&& peTypes = 0 ∧
    ∀ j, Overlaps va len j → j < k → Accessible m d j

structure CopiedOut (m m' : Mem) (d va : Nat) (buf : List UInt8) (r : Int) : Prop where
  result : r = 0 ∨ r = -1
  iff : r = 0 ↔ ∀ k, Overlaps va buf.length k → Accessible m d k
  bytes : r = 0 → ∀ (i : Nat) (hi : i < buf.length), userByte m' d (va + i) = some buf[i]
  /-- Nothing but bytes of pages changes, and no byte outside the range. -/
  memory : m' = { m with byte := m'.byte }
  other : ∀ v off, (∀ i < buf.length, ∀ ap, translate m d (va + i) = some (v, ap) → (va + i) % pteSz ≠ off) →
    m'.byte v off = m.byte v off
  user : ∀ x, x < va ∨ va + buf.length ≤ x → userByte m' d x = userByte m d x

section Put

variable {R : Rely Mem Panic Uvm.Label} {m m' m₁ : Mem} {d k v ap va : Nat} {T : Nat → Option Nat}
  {P : Nat → Option (Nat × Nat)} {b b' : List UInt8}

structure Put (m m' : Mem) (P : Nat → Option (Nat × Nat)) (va : Nat) (b : List UInt8) : Prop where
  memory : m' = { m with byte := m'.byte }
  inside : ∀ (i : Nat) (hi : i < b.length), ∃ v ap,
    P ((va + i) / pteSz) = some (v, ap) ∧ m'.byte v ((va + i) % pteSz) = b[i]
  outside : ∀ v off, (∀ i < b.length, ∀ ap, P ((va + i) / pteSz) = some (v, ap) → (va + i) % pteSz ≠ off) →
    m'.byte v off = m.byte v off

theorem Put.refl (m : Mem) (P : Nat → Option (Nat × Nat)) (va : Nat) : Put m m P va [] where
  memory := rfl
  inside _ hi := absurd hi (Nat.not_lt_zero _)
  outside _ _ _ := rfl

theorem Put.append (hDir : Dir m d T P) (h : Put m m₁ P va b) (h' : Put m₁ m' P (va + b.length) b') :
    Put m m' P va (b ++ b') := by
  constructor
  · rw [h'.memory, h.memory]
  · intro i hi
    obtain hLt | hGe := Nat.lt_or_ge i b.length
    · -- the later bytes are at other places
      obtain ⟨v, ap, hP, hByte⟩ := h.inside i hLt
      refine ⟨v, ap, hP, ?_⟩
      rw [List.getElem_append_left hLt, ← hByte]
      apply h'.outside
      intro j hj ap' hP' hOff
      have hPage := hDir.once _ _ _ _ _ hP hP'
      have hEq : va + i = va + b.length + j := by
        rw [← Nat.div_add_mod (va + i) pteSz, ← Nat.div_add_mod (va + b.length + j) pteSz, hPage, hOff]
      omega
    · have hj : i - b.length < b'.length := by
        rw [List.length_append] at hi
        omega
      have hEq : va + b.length + (i - b.length) = va + i := by omega
      obtain ⟨v, ap, hP, hByte⟩ := h'.inside (i - b.length) hj
      rw [hEq] at hP hByte
      refine ⟨v, ap, hP, ?_⟩
      rw [List.getElem_append_right hGe, hByte]
  · intro v off hOut
    rw [h'.outside v off, h.outside v off]
    · intro i hi
      exact hOut i (by rw [List.length_append]; omega)
    · intro j hj ap hP
      have hOther := hOut (b.length + j) (by rw [List.length_append]; omega) ap
      rw [← Nat.add_assoc] at hOther
      exact hOther hP

theorem put_store (hP : P k = some (v, ap)) {off : Nat} (hFit : off + b.length ≤ pteSz) :
    Put m (m.store v off b) P (k * pteSz + off) b := by
  have hAddr : ∀ i < b.length, (k * pteSz + off + i) / pteSz = k ∧ (k * pteSz + off + i) % pteSz = off + i := by
    intro i hi
    simp only [pteSz] at *
    omega
  constructor
  · rfl
  · intro i hi
    obtain ⟨hDiv, hMod⟩ := hAddr i hi
    refine ⟨v, ap, by rw [hDiv, hP], ?_⟩
    rw [hMod, Mem.store]
    simp only [Function.update_self]
    rw [if_pos ⟨Nat.le_add_right off i, by omega⟩, Nat.add_sub_cancel_left, List.getD_eq_getElem?_getD,
      List.getElem?_eq_getElem hi, Option.getD_some]
  · intro w j hOut
    rw [Mem.store]
    by_cases hw : w = v
    · subst hw
      simp only [Function.update_self]
      rw [if_neg]
      rintro ⟨hLo, hHi⟩
      have hi : j - off < b.length := by omega
      obtain ⟨hDiv, hMod⟩ := hAddr _ hi
      exact hOut _ hi ap (by rw [hDiv, hP]) (by rw [hMod]; omega)
    · simp only [Function.update_of_ne hw]

/-- A page of the range has no page table, and the loop comes to it. -/
def Stuck (T : Nat → Option Nat) (P : Nat → Option (Nat × Nat)) (va len : Nat) : Prop :=
  ∃ k, Overlaps va len k ∧ T (k / 256) = none ∧ ∀ j, Overlaps va len j → j < k → userPage P j ≠ 0

theorem overlaps_first {len : Nat} (hPos : 0 < len) : Overlaps va len (va / pteSz) := by
  simp only [Overlaps, pteSz]
  omega

theorem Overlaps.le {len : Nat} (h : Overlaps va len k) : va / pteSz ≤ k := by
  simp only [Overlaps, pteSz] at *
  omega

theorem overlaps_next {len : Nat} (hMore : pteSz - va % pteSz < len) :
    Overlaps va len k ↔ k = va / pteSz ∨
      Overlaps ((va / pteSz + 1) * pteSz) (len - (pteSz - va % pteSz)) k := by
  simp only [Overlaps, pteSz] at *
  omega

theorem overlaps_last {len : Nat} (hPos : 0 < len) (hLast : len ≤ pteSz - va % pteSz) :
    Overlaps va len k ↔ k = va / pteSz := by
  simp only [Overlaps, pteSz] at *
  omega

theorem not_overlaps_zero : ¬Overlaps va 0 k := fun h => lt_irrefl 0 h.1

theorem not_stuck_zero : ¬Stuck T P va 0 := by
  rintro ⟨k, hk, -⟩
  exact not_overlaps_zero hk

theorem stuck_next {len : Nat} (hMore : pteSz - va % pteSz < len) (hT : T (va / pteSz / 256) ≠ none)
    (hPage : userPage P (va / pteSz) ≠ 0) :
    Stuck T P va len ↔ Stuck T P ((va / pteSz + 1) * pteSz) (len - (pteSz - va % pteSz)) := by
  have hBehind : ∀ {j}, Overlaps ((va / pteSz + 1) * pteSz) (len - (pteSz - va % pteSz)) j → va / pteSz < j := by
    intro j hj
    have hLe := hj.le
    rw [Nat.mul_div_cancel _ (by decide)] at hLe
    exact hLe
  constructor
  · rintro ⟨k, hk, hNone, hAll⟩
    obtain rfl | hk := (overlaps_next hMore).mp hk
    · exact absurd hNone hT
    · exact ⟨k, hk, hNone, fun j hj hLt => hAll j ((overlaps_next hMore).mpr (.inr hj)) hLt⟩
  · rintro ⟨k, hk, hNone, hAll⟩
    refine ⟨k, (overlaps_next hMore).mpr (.inr hk), hNone, ?_⟩
    intro j hj hLt
    obtain rfl | hj := (overlaps_next hMore).mp hj
    · exact hPage
    · exact hAll j hj hLt

theorem wp_uva2ka_missing (hR : R.Calm) (h : Dir m d T P) (hT : T (k / 256) = none) (hk : k < npages)
    (hStop : R.stop .outside) {Q : Nat → Mem → Prop} : wp R (uva2ka d (k * pteSz)) Q m := by
  rw [uva2ka, wp_bind]
  apply wp_find hR h (by simp only [npages, numUpde, numPte, pteSz, uaddrSz] at *; omega)
  rw [pdeIdx_page, hT, Option.map_none]
  exact Uvm.wp_act hR hStop

theorem copyoutLoop_nil (n : Nat) : copyoutLoop d n va [] = Pure.pure 0 := by
  cases n with
  | zero => rfl
  | succ n => rw [copyoutLoop, if_pos List.length_nil]

/-- The loop of `copyout`: it is stuck, or it has put down all bytes, or those before a page that
user programs may not write. -/
theorem wp_copyoutLoop_put (hR : R.Calm) (n : Nat) {va : Nat} {buf : List UInt8} (h : Dir m d T P)
    (hRange : va + buf.length ≤ uaddrSz) (hn : buf.length ≤ n) {Q : Int → Mem → Prop}
    (hStop : Stuck T P va buf.length → R.stop .outside)
    (hDone : ∀ m', ¬Stuck T P va buf.length → Put m m' P va buf →
      (∀ k, Overlaps va buf.length k → userPage P k ≠ 0) → Q 0 m')
    (hFail : ∀ m' c, ¬Stuck T P va buf.length → Put m m' P va (buf.take c) →
      (∃ k, Overlaps va buf.length k ∧ userPage P k = 0) → Q (-1) m') :
    wp R (copyoutLoop d n va buf) Q m := by
  have hEmpty : buf = [] → wp R (copyoutLoop d n va buf) Q m := by
    rintro rfl
    rw [copyoutLoop_nil, wp_pure]
    exact hDone m not_stuck_zero (.refl m P va) fun k hk => absurd hk not_overlaps_zero
  induction n generalizing m va buf with
  | zero => exact hEmpty (List.eq_nil_of_length_eq_zero (Nat.le_zero.mp hn))
  | succ n ih =>
    by_cases hNil : buf = []
    · exact hEmpty hNil
    have hPos : 0 < buf.length := List.length_pos_of_ne_nil hNil
    have hFirst := @overlaps_first va _ hPos
    have hOff : va - va / pteSz * pteSz = va % pteSz := by
      simp only [pteSz]
      omega
    have hVa : va / pteSz * pteSz + va % pteSz = va := Nat.div_add_mod' va pteSz
    have hk : va / pteSz < npages := by
      simp only [npages, numUpde, numPte, pteSz, uaddrSz] at *
      omega
    rw [copyoutLoop, if_neg hPos.ne', wp_bind, alignDn_page (by simp only [uaddrSz] at hRange; omega), hOff]
    cases hT : T (va / pteSz / 256) with
    | none =>
      refine wp_uva2ka_missing hR h hT hk (hStop ⟨_, hFirst, hT, ?_⟩)
      intro j hj hLt
      exact absurd hj.le (Nat.not_le.mpr hLt)
    | some t =>
      have hThere : T (va / pteSz / 256) ≠ none := by
        rw [hT]
        exact Option.some_ne_none t
      apply wp_uva2ka hR h (.inl hThere)
      by_cases hZero : userPage P (va / pteSz) = 0
      · rw [if_pos hZero, wp_pure]
        refine hFail m 0 ?_ (.refl m P va) ⟨_, hFirst, hZero⟩
        rintro ⟨k, hOver, hNone, hAll⟩
        obtain hEq | hLt := Nat.eq_or_lt_of_le hOver.le
        · rw [← hEq] at hNone
          exact hThere hNone
        · exact hAll _ hFirst hLt hZero
      · have hPage := userPage_ne_zero hZero
        rw [if_neg hZero, wp_bind]
        apply wp_modifyM hR
        obtain hMore | hLast := Nat.lt_or_ge (pteSz - va % pteSz) buf.length
        swap
        · -- the range ends in this page
          have hFit : va % pteSz + buf.length ≤ pteSz := by
            have hMod := Nat.mod_lt va (show 0 < pteSz by decide)
            omega
          have hPut : Put m (m.store _ (va % pteSz) buf) P _ buf := put_store hPage hFit
          rw [hVa] at hPut
          rw [Nat.min_eq_right hLast, List.take_length, List.drop_length, copyoutLoop_nil, wp_pure]
          refine hDone _ ?_ hPut ?_
          · rintro ⟨k, hOver, hNone, -⟩
            rw [(overlaps_last hPos hLast).mp hOver] at hNone
            exact hThere hNone
          · intro k hOver
            rw [(overlaps_last hPos hLast).mp hOver]
            exact hZero
        · have hStuck := stuck_next hMore hThere hZero
          have hMod := Nat.mod_lt va (show 0 < pteSz by decide)
          have hTake : (buf.take (pteSz - va % pteSz)).length = pteSz - va % pteSz := by
            rw [List.length_take]
            omega
          have hPut : Put m (m.store _ (va % pteSz) (buf.take (pteSz - va % pteSz))) P _ _ := put_store hPage (by omega)
          rw [hVa] at hPut
          have hNext : va + (buf.take (pteSz - va % pteSz)).length = (va / pteSz + 1) * pteSz := by
            rw [hTake]
            simp only [pteSz] at *
            omega
          have hWrap : (va / pteSz * pteSz + pteSz) % 2 ^ 32 = (va / pteSz + 1) * pteSz :=
            next_page (by omega)
          obtain ⟨hDir, -⟩ := h.store ⟨_, _, hPage⟩ (va % pteSz) (buf.take (pteSz - va % pteSz))
          have hDrop : (buf.drop (pteSz - va % pteSz)).length = buf.length - (pteSz - va % pteSz) := List.length_drop
          rw [Nat.min_eq_left hMore.le, hWrap]
          have hRest : (∀ k, Overlaps ((va / pteSz + 1) * pteSz) (buf.length - (pteSz - va % pteSz)) k →
              userPage P k ≠ 0) → ∀ k, Overlaps va buf.length k → userPage P k ≠ 0 := by
            intro hAll k hOver
            obtain rfl | hOver := (overlaps_next hMore).mp hOver
            · exact hZero
            · exact hAll k hOver
          refine ih hDir ?_ ?_ ?_ ?_ ?_ ?_
          · rw [hDrop]
            simp only [pteSz] at *
            omega
          · rw [hDrop]
            simp only [pteSz] at *
            omega
          · rw [hDrop, ← hStuck]
            exact hStop
          · rw [hDrop, ← hStuck]
            intro m' hFree hPut' hAll
            rw [← hNext] at hPut'
            have hWhole := hPut.append h hPut'
            rw [List.take_append_drop] at hWhole
            exact hDone m' hFree hWhole (hRest hAll)
          · rw [hDrop, ← hStuck]
            rintro m' c hFree hPut' ⟨k, hOver, hNone⟩
            rw [← hNext] at hPut'
            have hWhole := hPut.append h hPut'
            rw [← List.take_add] at hWhole
            exact hFail m' _ hFree hWhole ⟨k, (overlaps_next hMore).mpr (.inr hOver), hNone⟩
          · intro hNone
            rw [hNone, List.length_nil] at hDrop
            omega

end Put

section Calls

variable {m m' : Mem} {d va : Nat} {buf : List UInt8} {T : Nat → Option Nat} {P : Nat → Option (Nat × Nat)}

theorem Put.dir (hDir : Dir m d T P) {b : List UInt8} (h : Put m m' P va b) : Dir m' d T P := by
  rw [h.memory]
  exact hDir.congr rfl rfl (fun t ht => ⟨rfl, ht.elim (fun hEq => hEq ▸ hDir.used) hDir.inUsed⟩)
    fun v hv => (hDir.pageUsed hv).used

theorem accessible_iff (hDir : Dir m d T P) {k : Nat} : Accessible m d k ↔ userPage P k ≠ 0 := by
  rw [Accessible, hDir.translate, Nat.mul_div_cancel _ (by decide)]
  constructor
  · rintro ⟨v, hv⟩
    obtain ⟨hEq, hNe⟩ := hDir.userPage hv
    rwa [hEq]
  · exact fun hNe => ⟨_, userPage_ne_zero hNe⟩

theorem blind_iff (hDir : Dir m d T P) (hRange : va + buf.length ≤ uaddrSz) :
    Blind m d va buf.length ↔ Stuck T P va buf.length := by
  have hTable : ∀ k, Overlaps va buf.length k → (m.tab d (pdeIdx (k * pteSz)) &&& peTypes = 0 ↔ T (k / 256) = none) := by
    intro k hk
    rw [pdeIdx_page]
    apply hDir.missing_iff
    simp only [Overlaps, numUpde, pteSz, uaddrSz] at *
    omega
  constructor
  · rintro ⟨k, hk, hNone, hAll⟩
    exact ⟨k, hk, (hTable k hk).mp hNone, fun j hj hLt => (accessible_iff hDir).mp (hAll j hj hLt)⟩
  · rintro ⟨k, hk, hNone, hAll⟩
    exact ⟨k, hk, (hTable k hk).mpr hNone, fun j hj hLt => (accessible_iff hDir).mpr (hAll j hj hLt)⟩

theorem Put.user (hDir : Dir m d T P) {b : List UInt8} (h : Put m m' P va b) {x : Nat}
    (hx : x < va ∨ va + b.length ≤ x) : userByte m' d x = userByte m d x := by
  have hDir' := h.dir hDir
  rw [userByte, userByte, hDir.translate, hDir'.translate]
  cases hP : P (x / pteSz) with
  | none => rfl
  | some q =>
    rw [Option.map_some, Option.map_some, h.outside]
    intro i hi ap hPi hOff
    have hPage := hDir.once _ _ _ _ _ hP hPi
    have hEq : x = va + i := by
      rw [← Nat.div_add_mod x pteSz, ← Nat.div_add_mod (va + i) pteSz, hPage, hOff]
    omega

theorem Put.bytes (hDir : Dir m d T P) {b : List UInt8} (h : Put m m' P va b) {i : Nat} (hi : i < b.length) :
    userByte m' d (va + i) = some b[i] := by
  obtain ⟨v, ap, hP, hByte⟩ := h.inside i hi
  rw [userByte, (h.dir hDir).translate, hP, Option.map_some, hByte]

theorem Put.copiedOut (hDir : Dir m d T P) {c : Nat} {r : Int} (h : Put m m' P va (buf.take c))
    (hResult : r = 0 ∨ r = -1) (hIff : r = 0 ↔ ∀ k, Overlaps va buf.length k → Accessible m d k)
    (hWhole : r = 0 → buf.take c = buf) : CopiedOut m m' d va buf r := by
  have hLe : (buf.take c).length ≤ buf.length := List.length_take_le' c buf
  constructor
  · exact hResult
  · exact hIff
  · intro hr i hi
    rw [hWhole hr] at h
    exact h.bytes hDir hi
  · exact h.memory
  · intro v off hOut
    apply h.outside
    intro i hi ap hP
    exact hOut i (by omega) ap (by rw [hDir.translate, hP])
  · intro x hx
    exact h.user hDir (by omega)

theorem copyout_cases (hDir : Dir m d T P) (hRange : va + buf.length ≤ uaddrSz) :
    (∃ r m', (copyout d va buf).run m = .ok (r, m') ∧ CopiedOut m m' d va buf r ∧ ¬Blind m d va buf.length) ∨
      (copyout d va buf).run m = .error .outside ∧ Blind m d va buf.length := by
  rw [blind_iff hDir hRange]
  have hWp := wp_copyoutLoop_put (R := ⟨fun e => e = .outside ∧ Stuck T P va buf.length, fun _ _ => True,
    fun _ _ => True⟩) ⟨fun _ _ => trivial⟩ buf.length hDir hRange le_rfl
    (Q := fun r m' => CopiedOut m m' d va buf r ∧ ¬Stuck T P va buf.length)
    (fun hStuck => ⟨rfl, hStuck⟩) ?_ ?_
  · have hAlong : (copyout d va buf).along (fun _ _ => True) m := along_of_forall fun _ _ => trivial
    cases hRun : (copyout d va buf).run m with
    | error e =>
      obtain ⟨rfl, hStuck⟩ := wp_error hWp hAlong hRun
      exact .inr ⟨rfl, hStuck⟩
    | ok q => exact .inl ⟨q.1, q.2, rfl, wp_run hWp hAlong hRun⟩
  · intro m' hFree hPut hAll
    have hTake : buf.take buf.length = buf := List.take_length
    rw [← hTake] at hPut
    refine ⟨hPut.copiedOut hDir (.inl rfl) ?_ fun _ => hTake, hFree⟩
    exact ⟨fun _ k hk => (accessible_iff hDir).mpr (hAll k hk), fun _ => rfl⟩
  · rintro m' c hFree hPut ⟨k, hk, hZero⟩
    refine ⟨hPut.copiedOut hDir (.inr rfl) ?_ (fun hr => absurd hr (by decide)), hFree⟩
    constructor
    · exact fun hr => absurd hr (by decide)
    · exact fun hAll => absurd hZero ((accessible_iff hDir).mp (hAll k hk))

/-- `copyout` does what it should if and only if it comes to no missing page table. -/
theorem copyout_exact_iff (hDir : IsDir m d) (hRange : va + buf.length ≤ uaddrSz) :
    (∃ r m', (copyout d va buf).run m = .ok (r, m') ∧ CopiedOut m m' d va buf r) ↔ ¬Blind m d va buf.length := by
  obtain ⟨T, P, hDir⟩ := hDir
  obtain ⟨r, m', hRun, hCopied, hFree⟩ | ⟨hRun, hBlind⟩ := copyout_cases hDir hRange
  · exact ⟨fun _ => hFree, fun _ => ⟨r, m', hRun, hCopied⟩⟩
  · constructor
    · rintro ⟨r, m', hRun', -⟩
      rw [hRun] at hRun'
      cases hRun'
    · exact fun hFree => absurd hBlind hFree

/-- One byte where the only page table ends. -/
theorem copyout_null_pointer : IsDir (onePage []) 0x80018000 ∧
    ¬∃ r m', (copyout 0x80018000 0x100000 [1]).run (onePage []) = .ok (r, m') ∧
      CopiedOut (onePage []) m' 0x80018000 0x100000 [1] r := by
  refine ⟨⟨_, _, onePage_dir []⟩, ?_⟩
  rintro ⟨r, m', hRun, -⟩
  have hStop : (copyout 0x80018000 0x100000 [1]).run (onePage []) = .error .outside := rfl
  rw [hStop] at hRun
  cases hRun

/-- Two bytes fit into the first page, and of two at its end the second one has no page. -/
theorem copyout_exact_first_page :
    (∃ m', (copyout 0x80018000 4000 [1, 2]).run (onePage []) = .ok (0, m') ∧
      CopiedOut (onePage []) m' 0x80018000 4000 [1, 2] 0) ∧
    ∃ m', (copyout 0x80018000 4095 [1, 2]).run (onePage []) = .ok (-1, m') ∧
      CopiedOut (onePage []) m' 0x80018000 4095 [1, 2] (-1) := by
  have hEnd : ∀ va r, va + 2 ≤ 256 * pteSz →
      ((copyout 0x80018000 va [1, 2]).run (onePage [])).toOption.map Prod.fst = some r →
      ∃ m', (copyout 0x80018000 va [1, 2]).run (onePage []) = .ok (r, m') ∧
        CopiedOut (onePage []) m' 0x80018000 va [1, 2] r := by
    intro va r hVa hResult
    have hSees : ¬Blind (onePage []) 0x80018000 va 2 := by
      rintro ⟨k, ⟨-, -, hk⟩, hZero, -⟩
      have hTable : pdeIdx (k * pteSz) = 0 := by
        rw [pdeIdx_page]
        simp only [pteSz] at hk hVa
        omega
      rw [hTable] at hZero
      exact absurd hZero (by decide)
    have hRange : va + [(1 : UInt8), 2].length ≤ uaddrSz := hVa.trans (by decide)
    obtain ⟨r', m', hRun, hCopied⟩ := (copyout_exact_iff ⟨_, _, onePage_dir []⟩ hRange).mpr hSees
    rw [hRun] at hResult
    obtain rfl : r' = r := Option.some.inj hResult
    exact ⟨m', hRun, hCopied⟩
  exact ⟨hEnd 4000 0 (by decide) (by decide +kernel), hEnd 4095 (-1) (by decide) (by decide +kernel)⟩

end Calls

end Xv6Rpi.Process
