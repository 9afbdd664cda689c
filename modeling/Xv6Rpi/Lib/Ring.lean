import Mathlib.Data.List.Chain
import Mathlib.Data.List.Nodup
import Mathlib.Logic.Function.Basic

/-! # Rings of doubly linked cells

A store gives every cell a successor and a predecessor. The cells of a list form a ring with
a head if the successors lead from the head through the list and back to the head, and the
predecessors lead the other way round. The rules take a cell out of a ring, put one in
behind its head, and say what a loop over the ring finds.
-/

namespace Ring

variable {ι : Type*} {next prev next' prev' : ι → ι} {h x y : ι} {l : List ι}

/-- The two links between neighbours. -/
def Adj (next prev : ι → ι) (x y : ι) : Prop := next x = y ∧ prev y = x

structure IsRing (next prev : ι → ι) (h : ι) (l : List ι) : Prop where
  nodup : (h :: l).Nodup
  chain : (h :: l ++ [h]).IsChain (Adj next prev)

theorem IsRing.head_not_mem (hl : IsRing next prev h l) : h ∉ l := (List.nodup_cons.mp hl.nodup).1

theorem isRing_nil (hNext : next h = h) (hPrev : prev h = h) : IsRing next prev h [] :=
  ⟨by simp, by simp [Adj, hNext, hPrev]⟩

theorem IsRing.reverse (hl : IsRing next prev h l) : IsRing prev next h l.reverse := by
  constructor
  · simpa using hl.nodup
  · have hChain := hl.chain
    rw [← List.reverse_reverse (h :: l ++ [h]), List.isChain_reverse] at hChain
    have hSwap : (fun a b => Adj next prev b a) = Adj prev next := by
      funext a b
      exact propext and_comm
    rw [hSwap] at hChain
    simpa using hChain

/-- Every pair of neighbours in `l ++ [h]` starts in `l`. -/
theorem isChain_concat_imp {R S : ι → ι → Prop} (hl : (l ++ [h]).IsChain R)
    (hImp : ∀ p ∈ l, ∀ q ∈ l ++ [h], R p q → S p q) : (l ++ [h]).IsChain S := by
  induction l with
  | nil => exact .singleton _
  | cons y ys ih =>
    have hTail : (ys ++ [h]).IsChain S := ih hl.tail fun p hp q hq =>
      hImp p (List.mem_cons_of_mem _ hp) q (List.mem_cons_of_mem _ hq)
    cases ys with
    | nil =>
      rw [List.cons_append, List.nil_append, List.isChain_cons_cons] at hl ⊢
      exact ⟨hImp y (by simp) h (by simp) hl.1, .singleton _⟩
    | cons z zs =>
      rw [List.cons_append, List.cons_append, List.isChain_cons_cons] at hl ⊢
      exact ⟨hImp y (by simp) z (by simp) hl.1, hTail⟩

/-! ## Loops over a ring -/

variable [DecidableEq ι]

/-- The loop `for (b = h->next; b != h; b = b->next)` that stops at a cell with `q`, at `b`
and with at most so many turns to go. -/
def find (next : ι → ι) (h : ι) (q : ι → Bool) : Nat → ι → Option ι
  | 0, _ => none
  | n + 1, b => if b = h then none else if q b then some b else find next h q n (next b)

theorem find_of_chain {q : ι → Bool} {n : Nat} (hl : (x :: l ++ [h]).IsChain (Adj next prev)) (hh : h ∉ l)
    (hn : l.length < n) : find next h q n (next x) = l.find? q := by
  induction l generalizing x n with
  | nil =>
    obtain ⟨n, rfl⟩ := Nat.exists_eq_succ_of_ne_zero (Nat.ne_of_gt hn)
    have hx : next x = h := by
      simp only [List.cons_append, List.nil_append, List.isChain_cons_cons] at hl
      exact hl.1.1
    simp [find, hx]
  | cons y ys ih =>
    obtain ⟨n, rfl⟩ := Nat.exists_eq_succ_of_ne_zero (Nat.ne_of_gt (Nat.lt_of_le_of_lt (Nat.zero_le _) hn))
    simp only [List.cons_append, List.isChain_cons_cons] at hl
    obtain ⟨⟨hx, -⟩, hys⟩ := hl
    simp only [List.mem_cons, not_or] at hh
    rw [hx, find, if_neg (Ne.symm hh.1), List.find?_cons]
    split
    · next hq => simp [hq]
    · next hq => simpa [hq] using ih hys hh.2 (by simpa using hn)

theorem IsRing.find_next {q : ι → Bool} {n : Nat} (hl : IsRing next prev h l) (hn : l.length < n) :
    find next h q n (next h) = l.find? q :=
  find_of_chain hl.chain hl.head_not_mem hn

theorem IsRing.find_prev {q : ι → Bool} {n : Nat} (hl : IsRing next prev h l) (hn : l.length < n) :
    find prev h q n (prev h) = l.reverse.find? q :=
  hl.reverse.find_next (by simpa using hn)

/-! ## Changes of a ring -/

/-- Neighbours of which neither is a neighbour of `x` keep their links when `x` is taken out. -/
theorem Adj.unlink {a b : ι} (hab : Adj next prev a b) (ha : a ≠ x) (hb : b ≠ x)
    (hxPrev : next (prev x) = x) (hxNext : prev (next x) = x) :
    Adj (Function.update next (prev x) (next x)) (Function.update prev (next x) (prev x)) a b := by
  constructor
  · rw [Function.update_of_ne, hab.1]
    rintro rfl
    exact hb (hab.1.symm.trans hxPrev)
  · rw [Function.update_of_ne, hab.2]
    rintro rfl
    exact ha (hab.2.symm.trans hxNext)

theorem IsRing.unlink {a b : List ι} (hl : IsRing next prev h (a ++ x :: b)) :
    IsRing (Function.update next (prev x) (next x)) (Function.update prev (next x) (prev x)) h (a ++ b) := by
  have hNodup := hl.nodup
  have hChain := hl.chain
  have hx : x ∉ h :: (a ++ b) := by
    have hPerm : (h :: (a ++ x :: b)).Perm (x :: h :: (a ++ b)) :=
      (List.perm_middle.cons h).trans (.swap x h _)
    exact (List.nodup_cons.mp (hPerm.nodup_iff.mp hNodup)).1
  have hxh : x ∉ h :: a := fun hm => hx (by simp only [List.mem_cons, List.mem_append] at hm ⊢; tauto)
  have hxb : x ∉ b ++ [h] := fun hm => hx (by simp at hm ⊢; tauto)
  rw [show h :: (a ++ x :: b) ++ [h] = (h :: a) ++ (x :: (b ++ [h])) by simp, List.isChain_append] at hChain
  obtain ⟨hLeft, hRight, hAt⟩ := hChain
  obtain ⟨u, hu⟩ : ∃ u, u ∈ (h :: a).getLast? := by
    cases hLast : (h :: a).getLast? with
    | none => simp at hLast
    | some u => exact ⟨u, rfl⟩
  have hux : Adj next prev u x := hAt u hu x rfl
  obtain ⟨v, r, hv⟩ : ∃ v r, b ++ [h] = v :: r := by
    cases b with
    | nil => exact ⟨h, [], rfl⟩
    | cons y ys => exact ⟨y, ys ++ [h], rfl⟩
  rw [hv, List.isChain_cons_cons] at hRight
  obtain ⟨hxv, hRight⟩ := hRight
  have hPrev : next (prev x) = x := by rw [hux.2, hux.1]
  have hNext : prev (next x) = x := by rw [hxv.1, hxv.2]
  constructor
  · refine List.Nodup.sublist ?_ hNodup
    simp
  · rw [show h :: (a ++ b) ++ [h] = (h :: a) ++ (b ++ [h]) by simp, hv, List.isChain_append]
    refine ⟨?_, ?_, ?_⟩
    · exact hLeft.imp_of_mem_imp fun p q hp hq hpq =>
        hpq.unlink (ne_of_mem_of_not_mem hp hxh) (ne_of_mem_of_not_mem hq hxh) hPrev hNext
    · rw [hv] at hxb
      exact hRight.imp_of_mem_imp fun p q hp hq hpq =>
        hpq.unlink (ne_of_mem_of_not_mem hp hxb) (ne_of_mem_of_not_mem hq hxb) hPrev hNext
    · intro p hp q hq
      obtain rfl : u = p := Option.some.inj (hu.symm.trans hp)
      obtain rfl : v = q := Option.some.inj hq
      rw [hux.2, hxv.1]
      exact ⟨Function.update_self .., Function.update_self ..⟩

theorem IsRing.push (hl : IsRing next prev h l) (hx : x ∉ h :: l) :
    IsRing (Function.update (Function.update next x (next h)) h x)
      (Function.update (Function.update prev x h) (next h) x) h (x :: l) := by
  have hxh : x ≠ h := by
    rintro rfl
    simp at hx
  have hChain := hl.chain
  obtain ⟨v, r, hv⟩ : ∃ v r, l ++ [h] = v :: r := by
    cases l with
    | nil => exact ⟨h, [], rfl⟩
    | cons y ys => exact ⟨y, ys ++ [h], rfl⟩
  rw [List.cons_append, hv, List.isChain_cons_cons] at hChain
  obtain ⟨hhv, hChain⟩ := hChain
  have hxv : x ∉ v :: r := by
    rw [← hv]
    simpa [and_comm] using hx
  have hxNe : x ≠ v := fun he => hxv (he ▸ List.mem_cons_self)
  rw [hhv.1]
  constructor
  · rw [List.nodup_cons, List.mem_cons, not_or, List.nodup_cons]
    have := List.nodup_cons.mp hl.nodup
    exact ⟨⟨Ne.symm hxh, this.1⟩, fun hm => hx (List.mem_cons_of_mem _ hm), this.2⟩
  · rw [List.cons_append, List.cons_append, hv, List.isChain_cons_cons, List.isChain_cons_cons]
    refine ⟨⟨Function.update_self .., ?_⟩, ⟨?_, Function.update_self ..⟩, ?_⟩
    · rw [Function.update_of_ne hxNe, Function.update_self]
    · rw [Function.update_of_ne hxh, Function.update_self]
    · -- a pair behind the first cell starts in the list, so it is not at the head
      have hStart : ∀ (p q : ι), Adj next prev p q → p ≠ h → p ≠ x → q ≠ x →
          Adj (Function.update (Function.update next x v) h x)
            (Function.update (Function.update prev x h) v x) p q := by
        intro p q hpq hp hpx hqx
        constructor
        · rw [Function.update_of_ne hp, Function.update_of_ne hpx, hpq.1]
        · rw [Function.update_of_ne, Function.update_of_ne hqx, hpq.2]
          rintro rfl
          exact hp (hpq.2.symm.trans hhv.2)
      rw [← hv] at hChain hxv ⊢
      refine isChain_concat_imp hChain fun p hp q hq hpq => hStart p q hpq ?_ ?_ ?_
      · exact ne_of_mem_of_not_mem hp hl.head_not_mem
      · exact ne_of_mem_of_not_mem (List.mem_append_left _ hp) hxv
      · exact ne_of_mem_of_not_mem hq hxv

end Ring
