import Mathlib.Data.List.Basic
import Mathlib.Data.List.Nodup

/-! # Doubly linked lists over an indexed store

A store gives every cell a predecessor and a successor link. `Linked` says that the
cells reached from a head through the successor links are exactly a given list, and
that every predecessor link on the way is the cell before. The rules say when a changed
store still holds the list with a new head pushed or with one cell taken out.
-/

namespace DLinked

variable {ι : Type*} (nil : ι)

/-- From head `h`, entered from `p`, the store's links run through the given list. -/
def Linked (pre next : ι → ι) : ι → ι → List ι → Prop
  | _, h, [] => h = nil
  | p, h, x :: xs => h = x ∧ x ≠ nil ∧ pre x = p ∧ Linked pre next x (next x) xs

variable {nil} {pre next pre' next' : ι → ι}

theorem Linked.ne_nil {p h : ι} {l : List ι} (hl : Linked nil pre next p h l) :
    ∀ x ∈ l, x ≠ nil := by
  induction l generalizing p h with
  | nil => simp
  | cons y ys ih =>
    obtain ⟨_, hy, _, hys⟩ := hl
    intro x hx
    rcases List.mem_cons.mp hx with rfl | hx
    · exact hy
    · exact ih hys x hx

theorem Linked.head_eq_nil_iff {p h : ι} {l : List ι} (hl : Linked nil pre next p h l) :
    h = nil ↔ l = [] := by
  cases l with
  | nil => exact ⟨fun _ => rfl, fun _ => hl⟩
  | cons x xs =>
    obtain ⟨rfl, hx, _, _⟩ := hl
    simp [hx]

theorem Linked.head_mem {p h : ι} {l : List ι} (hl : Linked nil pre next p h l)
    (hh : h ≠ nil) : h ∈ l := by
  cases l with
  | nil => exact absurd hl hh
  | cons x xs =>
    obtain ⟨rfl, _⟩ := hl
    exact List.mem_cons_self

theorem Linked.pre_mem {p h x : ι} {l : List ι} (hl : Linked nil pre next p h l)
    (hx : x ∈ l) : pre x = p ∨ pre x ∈ l := by
  induction l generalizing p h with
  | nil => simp at hx
  | cons y ys ih =>
    obtain ⟨_, _, hpre, hys⟩ := hl
    rcases List.mem_cons.mp hx with rfl | hx
    · exact Or.inl hpre
    · rcases ih hys hx with h | h
      · exact Or.inr (h ▸ List.mem_cons_self)
      · exact Or.inr (List.mem_cons_of_mem _ h)

theorem Linked.next_mem {p h x : ι} {l : List ι} (hl : Linked nil pre next p h l)
    (hx : x ∈ l) : next x = nil ∨ next x ∈ l := by
  induction l generalizing p h with
  | nil => simp at hx
  | cons y ys ih =>
    obtain ⟨_, _, _, hys⟩ := hl
    rcases List.mem_cons.mp hx with rfl | hx
    · by_cases hn : next x = nil
      · exact Or.inl hn
      · exact Or.inr (List.mem_cons_of_mem _ (hys.head_mem hn))
    · exact (ih hys hx).imp_right (List.mem_cons_of_mem _)

theorem Linked.congr {p h : ι} {l : List ι} (hl : Linked nil pre next p h l)
    (hpre : ∀ x ∈ l, pre' x = pre x) (hnext : ∀ x ∈ l, next' x = next x) :
    Linked nil pre' next' p h l := by
  induction l generalizing p h with
  | nil => exact hl
  | cons y ys ih =>
    obtain ⟨hh, hy, hp, hys⟩ := hl
    refine ⟨hh, hy, by rw [hpre y List.mem_cons_self, hp], ?_⟩
    rw [hnext y List.mem_cons_self]
    exact ih hys (fun x hx => hpre x (List.mem_cons_of_mem _ hx))
      (fun x hx => hnext x (List.mem_cons_of_mem _ hx))

/-- A cell put in front of the list, with the old head's predecessor link fixed. -/
theorem Linked.push {h x : ι} {l : List ι} (hl : Linked nil pre next nil h l)
    (hnodup : l.Nodup) (hx : x ≠ nil) (hxPre : pre' x = nil) (hxNext : next' x = h)
    (hHead : h ≠ nil → pre' h = x)
    (hpre : ∀ y ∈ l, y ≠ h → pre' y = pre y) (hnext : ∀ y ∈ l, next' y = next y) :
    Linked nil pre' next' nil x (x :: l) := by
  refine ⟨rfl, hx, hxPre, ?_⟩
  rw [hxNext]
  cases l with
  | nil => exact hl
  | cons y ys =>
    obtain ⟨rfl, hy, _, hys⟩ := hl
    refine ⟨rfl, hy, hHead hy, ?_⟩
    rw [hnext h List.mem_cons_self]
    apply hys.congr
    · intro z hz
      apply hpre z (List.mem_cons_of_mem _ hz)
      rintro rfl
      exact (List.nodup_cons.mp hnodup).1 hz
    · exact fun z hz => hnext z (List.mem_cons_of_mem _ hz)

theorem Linked.pre_mem_before {p h x : ι} {l r : List ι}
    (hl : Linked nil pre next p h (l ++ x :: r)) : pre x ∈ p :: l := by
  induction l generalizing p h with
  | nil =>
    obtain ⟨_, _, hpre, _⟩ := hl
    simp [hpre]
  | cons y ys ih =>
    obtain ⟨_, _, _, hys⟩ := hl
    exact List.mem_cons_of_mem _ (ih hys)

theorem Linked.next_after {p h x : ι} {l r : List ι}
    (hl : Linked nil pre next p h (l ++ x :: r)) : Linked nil pre next x (next x) r := by
  induction l generalizing p h with
  | nil => exact hl.2.2.2
  | cons y ys ih => exact ih hl.2.2.2

/-- The only listed cell without a predecessor is the head. -/
theorem Linked.head_eq_of_pre_nil {h x : ι} {l : List ι} (hl : Linked nil pre next nil h l)
    (hx : x ∈ l) (hpre : pre x = nil) : h = x := by
  obtain ⟨a, b, rfl⟩ := List.append_of_mem hx
  cases a with
  | nil => exact hl.1
  | cons y ys =>
    have hMem : pre x ∈ y :: ys := Linked.pre_mem_before (l := ys) hl.2.2.2
    have hIn : pre x ∈ (y :: ys) ++ x :: b := List.mem_append_left _ hMem
    exact absurd hpre (hl.ne_nil _ hIn)

variable [DecidableEq ι]

theorem Linked.remove {p h x : ι} {l r : List ι}
    (hl : Linked nil pre next p h (l ++ x :: r)) (hnodup : (l ++ x :: r).Nodup)
    (hp : p ∉ l ++ x :: r)
    (hnext : ∀ y ∈ l ++ r, next' y = if y = pre x then next x else next y)
    (hpre : ∀ y ∈ l ++ r, pre' y = if y = next x then pre x else pre y) :
    Linked nil pre' next' p (if pre x = p then next x else h) (l ++ r) := by
  induction l generalizing p h with
  | nil =>
    obtain ⟨rfl, hx, hxPre, hr⟩ := hl
    rw [if_pos hxPre, List.nil_append]
    cases r with
    | nil => exact hr
    | cons y ys =>
      obtain ⟨hy, hyNil, _, hys⟩ := hr
      simp only [List.nil_append, List.nodup_cons, List.mem_cons, not_or] at hnodup hp
      refine ⟨hy, hyNil, ?_, ?_⟩
      · rw [hpre y (by simp), if_pos hy.symm, hxPre]
      · rw [hnext y (by simp), hxPre, if_neg (Ne.symm hp.2.1)]
        apply hys.congr
        · intro z hz
          rw [hpre z (by simp [hz]), if_neg]
          rw [hy]
          rintro rfl
          exact hnodup.2.1 hz
        · intro z hz
          rw [hnext z (by simp [hz]), hxPre, if_neg]
          rintro rfl
          exact hp.2.2 hz
  | cons a as ih =>
    have hxPre : pre x ∈ a :: as := Linked.pre_mem_before (l := as) hl.2.2.2
    have hxNext := Linked.next_after (l := a :: as) hl
    obtain ⟨rfl, ha, haPre, hRest⟩ := hl
    have hpx : pre x ≠ p := by
      rintro rfl
      apply hp
      simp only [List.cons_append, List.mem_cons, List.mem_append] at hxPre ⊢
      tauto
    rw [if_neg hpx]
    simp only [List.cons_append, List.nodup_cons] at hnodup
    refine ⟨rfl, ha, ?_, ?_⟩
    · rw [hpre h (by simp), if_neg, haPre]
      intro hEq
      by_cases hn : next x = nil
      · exact ha (hEq.trans hn)
      · apply hnodup.1
        have := hxNext.head_mem hn
        simp [hEq, this]
    · have hStep := ih hRest hnodup.2 hnodup.1
        (fun y hy => hnext y (List.mem_cons_of_mem _ hy))
        (fun y hy => hpre y (List.mem_cons_of_mem _ hy))
      rw [hnext h (by simp)]
      simp only [eq_comm (a := pre x)] at hStep
      exact hStep

/-- The form used when the cell to take out is known only to be in the list. -/
theorem Linked.erase {h x : ι} {l : List ι} (hl : Linked nil pre next nil h l)
    (hnodup : l.Nodup) (hx : x ∈ l)
    (hnext : ∀ y ∈ l, y ≠ x → next' y = if y = pre x then next x else next y)
    (hpre : ∀ y ∈ l, y ≠ x → pre' y = if y = next x then pre x else pre y) :
    Linked nil pre' next' nil (if pre x = nil then next x else h) (l.erase x) := by
  obtain ⟨a, b, hxa, hEq, hErase⟩ := List.exists_erase_eq hx
  rw [hErase]
  subst hEq
  have hxb : x ∉ b := by
    have := (List.nodup_append.mp hnodup).2.1
    exact (List.nodup_cons.mp this).1
  have hMem : ∀ y ∈ a ++ b, y ∈ a ++ x :: b ∧ y ≠ x := by
    intro y hy
    rcases List.mem_append.mp hy with hy | hy
    · exact ⟨by simp [hy], fun h => hxa (h ▸ hy)⟩
    · exact ⟨by simp [hy], fun h => hxb (h ▸ hy)⟩
  apply Linked.remove hl hnodup
  · intro hMemNil
    exact hl.ne_nil nil hMemNil rfl
  · exact fun y hy => hnext y (hMem y hy).1 (hMem y hy).2
  · exact fun y hy => hpre y (hMem y hy).1 (hMem y hy).2

end DLinked
