import Xv6Rpi.Uvm.Resize

/-! # Writing to an address space

`clearpteu` makes a page inaccessible to user programs, and `copyout` refuses such a page. It
walks through the pages from its address upwards, so it does not pass one.
-/

namespace Xv6Rpi.Uvm

open Prog

/-- The page that `uva2ka` finds: only pages for user programs count. -/
def userPage (P : Nat → Option (Nat × Nat)) (k : Nat) : Nat :=
  match P k with
  | some (v, ap) => if ap = apKu then v else 0
  | none => 0

/-- From page `k` upwards there are page tables up to a page that user programs cannot write. -/
def Guarded (T : Nat → Option Nat) (P : Nat → Option (Nat × Nat)) (k : Nat) : Prop :=
  ∃ g, k ≤ g ∧ userPage P g = 0 ∧ ∀ j, k ≤ j → j ≤ g → T (j / 256) ≠ none

section Stack

variable {R : Rely Mem Panic Label} {m m' : Mem} {d k v ap : Nat} {T T' : Nat → Option Nat}
  {P P' : Nat → Option (Nat × Nat)}

theorem Touch.congr (h : Touch m m' d T T' P P) (hIn : ∀ v, InPages P' v ↔ InPages P v) :
    Touch m m' d T T' P P' where
  heap := h.heap
  kernel := h.kernel
  wild := h.wild
  tab := h.tab
  byte := h.byte
  table := h.table
  page v := by rw [hIn, h.page v]
  newTable := h.newTable
  newPage v hv := h.newPage v ((hIn v).mp hv)

theorem wp_clearpteu (hR : R.Calm) (h : Dir m d T P) (hP : P k = some (v, ap)) {Q : Unit → Mem → Prop}
    (hQ : ∀ m', Dir m' d T (Function.update P k (some (v, apKo))) →
      Touch m m' d T T P (Function.update P k (some (v, apKo))) → m'.byte = m.byte → Q () m') :
    wp R (clearpteu d (k * pteSz)) Q m := by
  obtain ⟨hUser, -, t, hT⟩ := h.page k v ap hP
  have hk : k < npages := by
    refine Nat.lt_of_not_le fun hGe => ?_
    rw [h.lt_npages hGe] at hP
    cases hP
  have hVa : k * pteSz < uaddrSz := by
    simp only [npages, numUpde, numPte, pteSz, uaddrSz] at *
    omega
  rw [clearpteu, wp_bind]
  apply wp_find hR h hVa
  rw [pdeIdx_page, pteIdx_page, hT]
  dsimp only [Option.map_some]
  apply wp_modifyM hR
  have hWord : m.tab t (k % 256) = pteWord (v2p v) ap := by
    have hLt : k % 256 < numPte := Nat.mod_lt k (by decide)
    rw [h.pte _ t hT _ hLt, Nat.div_add_mod, hP, Option.elim_some]
  have hNew : (m.setEntry t (k % 256) ((m.tab t (k % 256) &&& (2 ^ 32 - 1 - 3 <<< 4)) ||| apKo <<< 4)).tab =
      (m.setEntry t (k % 256) ((some (v, apKo)).elim 0 fun q => pteWord (v2p q.1) q.2)).tab := by
    rw [hWord, hUser.addr.clearpteu, Option.elim_some]
  have hIn : ∀ v', InPages (Function.update P k (some (v, apKo))) v' ↔ InPages P v' := by
    intro v'
    constructor
    · rintro ⟨j, ap', hj⟩
      by_cases hEq : j = k
      · rw [hEq, Function.update_self] at hj
        obtain ⟨rfl, -⟩ := Prod.mk.inj (Option.some.inj hj)
        exact ⟨k, ap, hP⟩
      · rw [Function.update_of_ne hEq] at hj
        exact ⟨j, ap', hj⟩
    · rintro ⟨j, ap', hj⟩
      by_cases hEq : j = k
      · rw [hEq, hP] at hj
        obtain ⟨rfl, -⟩ := Prod.mk.inj (Option.some.inj hj)
        exact ⟨k, apKo, Function.update_self ..⟩
      · exact ⟨j, ap', by rw [Function.update_of_ne hEq, hj]⟩
  refine hQ _ (h.setPte hT rfl rfl rfl hNew ?_ ?_) ((Touch.setPte h hT _).congr hIn) rfl
  · intro v' ap' hEq
    obtain ⟨rfl, rfl⟩ := Prod.mk.inj (Option.some.inj hEq)
    exact ⟨⟨hUser.aligned, hUser.low, hUser.high, hUser.used⟩, by decide, fun k' ap' hk' => h.once _ _ _ _ _ hk' hP⟩
  · exact fun k' v' ap' _ hk' => (h.page k' v' ap' hk').1.used

/-- `walkpgdir` without `alloc` at any address: it may be outside of the directory. -/
theorem wp_walk (hR : R.Calm) (h : Dir m d T P) {va : Nat} {Q : Option (Nat × Nat) → Mem → Prop}
    (hSome : ∀ t, T (pdeIdx va) = some t → Q (some (t, pteIdx va)) m) (hNone : T (pdeIdx va) = none → Q none m)
    (hOut : uaddrSz ≤ va → R.stop .outside) : wp R (walkpgdir d va false) Q m := by
  by_cases hVa : va < uaddrSz
  · apply wp_find hR h hVa
    cases hT : T (pdeIdx va) with
    | none => exact hNone hT
    | some t => exact hSome t hT
  · have hIdx : m.dirSize d ≤ pdeIdx va := by
      rw [h.size, pdeIdx_eq]
      simp only [numUpde, pteSz, uaddrSz] at *
      omega
    rw [walkpgdir, wp_bind]
    apply wp_getM hR
    rw [if_pos hIdx]
    exact wp_act hR (hOut (Nat.le_of_not_lt hVa))

theorem wp_uva2ka (hR : R.Calm) (h : Dir m d T P) (hOut : T (k / 256) ≠ none ∨ R.stop .outside) {Q : Nat → Mem → Prop}
    (hQ : Q (userPage P k) m) : wp R (uva2ka d (k * pteSz)) Q m := by
  rw [uva2ka, wp_bind]
  apply wp_walk hR h
  · intro t hT
    rw [pdeIdx_page] at hT
    rw [pteIdx_page]
    dsimp only
    rw [wp_bind]
    apply wp_getM hR
    rw [userPage] at hQ
    cases hP : P k with
    | none =>
      rw [hP] at hQ
      rw [h.entry_none hT hP, if_pos (Nat.zero_and _), wp_pure]
      exact hQ
    | some q =>
      obtain ⟨v, ap⟩ := q
      obtain ⟨hPresent, hAddr, hV, hAp⟩ := h.entry_some hT hP
      rw [hP] at hQ
      dsimp only at hQ
      rw [if_neg hPresent, hAp]
      by_cases hKu : ap = apKu
      · rw [if_pos hKu] at hQ
        rw [if_neg (not_not.mpr hKu), hAddr, hV, wp_pure]
        exact hQ
      · rw [if_neg hKu] at hQ
        rw [if_pos hKu, wp_pure]
        exact hQ
  · intro hT
    rw [pdeIdx_page] at hT
    exact wp_act hR (hOut.resolve_left fun hNe => hNe hT)
  · intro hVa
    refine hOut.resolve_left fun hNe => ?_
    obtain ⟨t, hT⟩ := Option.ne_none_iff_exists'.mp hNe
    have hi := (h.table _ t hT).1
    simp only [numUpde, pteSz, uaddrSz] at *
    omega

theorem userPage_ne_zero (h : userPage P k ≠ 0) : P k = some (userPage P k, apKu) := by
  rw [userPage] at *
  cases hP : P k with
  | none =>
    rw [hP] at h
    exact absurd rfl h
  | some q =>
    obtain ⟨v, ap⟩ := q
    rw [hP] at h
    dsimp only at *
    by_cases hKu : ap = apKu
    · rw [if_pos hKu, hKu]
    · rw [if_neg hKu] at h
      exact absurd rfl h

theorem Dir.userPage (h : Dir m d T P) (hP : P k = some (v, apKu)) : userPage P k = v ∧ v ≠ 0 := by
  refine ⟨?_, ((h.page k v apKu hP).1.ne h.heap).1⟩
  rw [Uvm.userPage, hP]
  exact if_pos rfl

theorem Dir.store (h : Dir m d T P) (hIn : InPages P v) (off : Nat) (bytes : List UInt8) :
    Dir (m.store v off bytes) d T P ∧ Touch m (m.store v off bytes) d T T P P := by
  have hSame := Touch.refl h
  constructor
  · exact h.congr rfl rfl (fun t ht => ⟨rfl, ht.elim (fun hEq => hEq ▸ h.used) h.inUsed⟩) fun v' hv' =>
      (h.pageUsed hv').used
  · constructor
    · rfl
    · rfl
    · rfl
    · exact fun _ _ _ _ => rfl
    · intro v' _ hOut
      have hne : v' ≠ v := by
        rintro rfl
        exact hOut hIn
      exact Function.update_of_ne hne _ _
    · exact hSame.table
    · exact hSame.page
    · exact fun _ => .inl
    · exact fun _ => .inl

theorem alignDn_page {va : Nat} (h : va < 2 ^ 32) : alignDn va pteSz = va / pteSz * pteSz := alignDn_eq va 12 h (by decide)

/-- `copyout` in general: when it succeeds, all pages it has come to are for user programs. -/
theorem wp_copyoutLoop (hR : R.Calm) (n : Nat) {va : Nat} {buf : List UInt8} (h : Dir m d T P) (hVa : va < 2 ^ 32)
    (hn : buf.length ≤ n) (hOut : R.stop .outside ∨ Guarded T P (va / pteSz)) {Q : Int → Mem → Prop}
    (hQ : ∀ r m', Dir m' d T P → Touch m m' d T T P P → r = 0 ∨ r = -1 →
      (r = 0 → ∀ k, va / pteSz ≤ k → k * pteSz < va + buf.length → 0 < buf.length → userPage P k ≠ 0) → Q r m') :
    wp R (copyoutLoop d n va buf) Q m := by
  induction n generalizing m va buf with
  | zero =>
    refine hQ 0 m h (.refl h) (.inl rfl) fun _ _ _ _ hPos => ?_
    omega
  | succ n ih =>
    rw [copyoutLoop]
    by_cases hEmpty : buf.length = 0
    · rw [if_pos hEmpty, wp_pure]
      refine hQ 0 m h (.refl h) (.inl rfl) fun _ _ _ _ hPos => ?_
      omega
    rw [if_neg hEmpty, wp_bind, alignDn_page hVa]
    have hTable : T (va / pteSz / 256) ≠ none ∨ R.stop .outside := by
      obtain hStop | ⟨g, hLe, -, hTables⟩ := hOut
      · exact .inr hStop
      · exact .inl (hTables _ le_rfl hLe)
    apply wp_uva2ka hR h hTable
    by_cases hZero : userPage P (va / pteSz) = 0
    · rw [if_pos hZero, wp_pure]
      exact hQ (-1) m h (.refl h) (.inr rfl) fun hFalse => absurd hFalse (by decide)
    · have hPage := userPage_ne_zero hZero
      have hk : va / pteSz < npages := by
        refine Nat.lt_of_not_le fun hGe => ?_
        rw [h.lt_npages hGe] at hPage
        cases hPage
      rw [if_neg hZero, wp_bind]
      apply wp_modifyM hR
      obtain ⟨hDir, hTouch⟩ := h.store ⟨_, _, hPage⟩ (va - va / pteSz * pteSz)
        (buf.take (min (pteSz - (va - va / pteSz * pteSz)) buf.length))
      have hNext : (va / pteSz * pteSz + pteSz) % 2 ^ 32 = (va / pteSz + 1) * pteSz := next_page (by omega)
      have hIdx : (va / pteSz + 1) * pteSz / pteSz = va / pteSz + 1 := Nat.mul_div_cancel _ (by decide)
      rw [hNext]
      refine ih hDir ?_ ?_ ?_ ?_
      · simp only [npages, numUpde, numPte, pteSz] at *
        omega
      · rw [List.length_drop]
        simp only [pteSz]
        omega
      · rw [hIdx]
        refine hOut.imp_right ?_
        rintro ⟨g, hLe, hGuard, hTables⟩
        have hne : va / pteSz ≠ g := by
          rintro rfl
          exact hZero hGuard
        exact ⟨g, by omega, hGuard, fun j h₁ h₂ => hTables j (by omega) h₂⟩
      · intro r m' hDir' hTouch' hResult hAll
        refine hQ r m' hDir' (hTouch.trans hTouch') hResult fun hr k h₁ h₂ _ => ?_
        obtain rfl | hLt := Nat.eq_or_lt_of_le h₁
        · exact hZero
        · rw [hIdx, List.length_drop] at hAll
          apply hAll hr k hLt
          · simp only [pteSz] at *
            omega
          · simp only [pteSz] at *
            omega

theorem wp_copyout (hR : R.Calm) {va : Nat} {buf : List UInt8} (h : Dir m d T P) (hVa : va < 2 ^ 32)
    (hOut : R.stop .outside ∨ Guarded T P (va / pteSz)) {Q : Int → Mem → Prop}
    (hQ : ∀ r m', Dir m' d T P → Touch m m' d T T P P → r = 0 ∨ r = -1 →
      (r = 0 → ∀ k, va / pteSz ≤ k → k * pteSz < va + buf.length → 0 < buf.length → userPage P k ≠ 0) → Q r m') :
    wp R (copyout d va buf) Q m := wp_copyoutLoop hR _ h hVa le_rfl hOut hQ

theorem wp_copyout_outside (hR : R.Calm) {va : Nat} {buf : List UInt8} (h : Dir m d T P) (hVa : va < 2 ^ 32)
    (hOut : uaddrSz ≤ va) (hPos : 0 < buf.length) (hStop : R.stop .outside) {Q : Int → Mem → Prop} :
    wp R (copyout d va buf) Q m := by
  obtain ⟨n, hn⟩ : ∃ n, buf.length = n + 1 := ⟨buf.length - 1, by omega⟩
  have hT : T (va / pteSz / 256) = none := by
    cases hT : T (va / pteSz / 256) with
    | none => rfl
    | some t =>
      have hi := (h.table _ t hT).1
      simp only [numUpde, pteSz, uaddrSz] at *
      omega
  rw [copyout, hn, copyoutLoop, if_neg (by omega), wp_bind, alignDn_page hVa, uva2ka, wp_bind]
  apply wp_walk hR h
  · intro t ht
    rw [pdeIdx_page, hT] at ht
    cases ht
  · exact fun _ => wp_act hR hStop
  · exact fun _ => hStop

theorem wp_copyout_page (hR : R.Calm) {off : Nat} {buf : List UInt8} (h : Dir m d T P) (hP : P k = some (v, apKu))
    (hLen : off + buf.length ≤ pteSz) (hPos : 0 < buf.length) {Q : Int → Mem → Prop} (hQ : Q 0 (m.store v off buf)) :
    wp R (copyout d (k * pteSz + off) buf) Q m := by
  have hk : k < npages := by
    refine Nat.lt_of_not_le fun hGe => ?_
    rw [h.lt_npages hGe] at hP
    cases hP
  have hVa : k * pteSz + off < 2 ^ 32 := by
    simp only [npages, numUpde, numPte, pteSz] at *
    omega
  have hIdx : (k * pteSz + off) / pteSz = k := by
    simp only [pteSz] at *
    omega
  obtain ⟨hUser, hNe⟩ := h.userPage hP
  obtain ⟨t, hT⟩ := (h.page k v apKu hP).2.2
  obtain ⟨n, hn⟩ : ∃ n, buf.length = n + 1 := ⟨buf.length - 1, by omega⟩
  rw [copyout, hn, copyoutLoop, if_neg (by omega), wp_bind, alignDn_page hVa, hIdx]
  apply wp_uva2ka hR h (.inl (by rw [hT]; exact Option.some_ne_none t))
  rw [hUser, if_neg hNe, wp_bind, Nat.add_sub_cancel_left]
  apply wp_modifyM hR
  have hMin : min (pteSz - off) buf.length = buf.length := by omega
  rw [hMin, List.take_length, List.drop_length]
  cases n with
  | zero => exact hQ
  | succ n =>
    rw [copyoutLoop, if_pos List.length_nil, wp_pure]
    exact hQ

end Stack

end Xv6Rpi.Uvm
