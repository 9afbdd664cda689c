import Mathlib.Data.List.TakeWhile
import Xv6Rpi.Fs.Dir

/-! # Path elements

A path is cut at its slashes. The elements are what stands between them, as far as it is not
empty, and `skipelem` takes the first of them off.
-/

namespace Xv6Rpi.Fs

def elems (path : List UInt8) : List (List UInt8) :=
  ((path.splitOn slash).filter (· ≠ [])).map (·.take dirsiz)

/-- `skipelem` again and again; `fuel` bounds the calls. -/
def skipelems : Nat → List UInt8 → List (List UInt8)
  | 0, _ => []
  | fuel + 1, path =>
    match skipelem path with
    | none => []
    | some (elem, rest) => elem :: skipelems fuel rest

/-- What `skipelem` leaves in the buffer `name`: a shorter element ends with a zero. -/
def nameBuf (name elem : List UInt8) : List UInt8 :=
  if dirsiz ≤ elem.length then elem.take dirsiz else elem ++ 0 :: name.drop (elem.length + 1)

section Elements

variable {path rest elem : List UInt8} {c : UInt8} {fuel : Nat}

theorem elems_nil : elems [] = [] := by
  rw [elems, List.splitOn_nil]
  rfl

theorem elems_slash (path : List UInt8) : elems (slash :: path) = elems path := by
  have hSplit := List.splitOn_append_cons_self (a := slash) [] path
  rw [List.nil_append, List.splitOn_nil] at hSplit
  rw [elems, hSplit, List.filter_append]
  rfl

theorem elems_dropWhile (path : List UInt8) : elems (path.dropWhile (· == slash)) = elems path := by
  induction path with
  | nil => rfl
  | cons c cs ih =>
    by_cases hc : c = slash
    · rw [hc, List.dropWhile_cons_of_pos (by decide), ih, elems_slash]
    · rw [List.dropWhile_cons_of_neg (by rwa [beq_iff_eq])]

theorem slash_notMem_takeWhile (path : List UInt8) : slash ∉ path.takeWhile (· ≠ slash) := fun hIn => by
  have := List.mem_takeWhile_imp hIn
  rw [decide_eq_true_eq] at this
  exact this rfl

theorem elems_cons (hc : c ≠ slash) (cs : List UInt8) : elems (c :: cs) =
    ((c :: cs).takeWhile (· ≠ slash)).take dirsiz :: elems ((c :: cs).dropWhile (· ≠ slash)) := by
  have hSplit : (c :: cs).takeWhile (· ≠ slash) ++ (c :: cs).dropWhile (· ≠ slash) = c :: cs := List.takeWhile_append_dropWhile
  have hWord : (c :: cs).takeWhile (· ≠ slash) ≠ [] := by
    rw [List.takeWhile_cons_of_pos (by rwa [decide_eq_true_eq])]
    exact List.cons_ne_nil _ _
  have hNot := slash_notMem_takeWhile (c :: cs)
  have hHead : ∀ d ds, (c :: cs).dropWhile (· ≠ slash) = d :: ds → d = slash := fun d ds hEq => by
    have := List.head_dropWhile_not (· ≠ slash) (l := c :: cs) (by rw [hEq]; exact List.cons_ne_nil _ _)
    simpa only [hEq, List.head_cons, decide_eq_false_iff_not, not_not] using this
  generalize (c :: cs).takeWhile (· ≠ slash) = w at hSplit hWord hNot ⊢
  generalize (c :: cs).dropWhile (· ≠ slash) = r at hSplit hHead ⊢
  cases r with
  | nil =>
    rw [List.append_nil] at hSplit
    rw [← hSplit, elems, List.splitOn_eq_singleton hNot, List.filter_cons_of_pos (by rwa [decide_eq_true_eq]), elems_nil]
    rfl
  | cons d ds =>
    obtain rfl := hHead d ds rfl
    rw [← hSplit, elems, List.splitOn_append_cons_self_of_not_mem hNot,
      List.filter_cons_of_pos (by rwa [decide_eq_true_eq]), List.map_cons, elems_slash]
    rfl

theorem skipelem_none (h : skipelem path = none) : elems path = [] := by
  rw [← elems_dropWhile]
  rw [skipelem] at h
  split at h
  · rename_i hNil
    rw [hNil, elems_nil]
  · cases h

theorem skipelem_some (h : skipelem path = some (elem, rest)) :
    elems path = elem :: elems rest ∧ (rest = [] ↔ elems rest = []) ∧ rest.length < path.length := by
  rw [skipelem] at h
  split at h
  · cases h
  rename_i c cs hPath
  obtain ⟨rfl, rfl⟩ := Prod.mk.inj (Option.some.inj h)
  have hc : c ≠ slash := by
    have := List.head_dropWhile_not (· == slash) (l := path) (by rw [hPath]; exact List.cons_ne_nil _ _)
    simpa only [hPath, List.head_cons, beq_eq_false_iff_ne] using this
  refine ⟨?_, ?_, ?_⟩
  · rw [← elems_dropWhile path, hPath, elems_cons hc, elems_dropWhile]
  · constructor
    · intro hNil
      rw [hNil, elems_nil]
    · intro hNil
      cases hRest : ((c :: cs).dropWhile (· ≠ slash)).dropWhile (· == slash) with
      | nil => rfl
      | cons d ds =>
        have hd : d ≠ slash := by
          have := List.head_dropWhile_not (· == slash) (l := (c :: cs).dropWhile (· ≠ slash))
            (by rw [hRest]; exact List.cons_ne_nil _ _)
          simpa only [hRest, List.head_cons, beq_eq_false_iff_ne] using this
        rw [hRest, elems_cons hd] at hNil
        exact absurd hNil (List.cons_ne_nil _ _)
  · have h1 := (List.dropWhile_sublist (l := (c :: cs).dropWhile (· ≠ slash)) (· == slash)).length_le
    have h2 := (List.dropWhile_sublist (l := path) (· == slash)).length_le
    have h3 : ((c :: cs).dropWhile (· ≠ slash)).length ≤ cs.length := by
      rw [List.dropWhile_cons_of_pos (by rwa [decide_eq_true_eq])]
      exact (List.dropWhile_sublist _).length_le
    rw [hPath, List.length_cons] at h2
    omega

theorem skipelems_eq (hFuel : path.length < fuel) : skipelems fuel path = elems path := by
  induction fuel generalizing path with
  | zero => exact absurd hFuel (Nat.not_lt_zero _)
  | succ fuel ih =>
    rw [skipelems]
    cases hSkip : skipelem path with
    | none => exact (skipelem_none hSkip).symm
    | some r =>
      obtain ⟨elem, rest⟩ := r
      obtain ⟨hElems, -, hLen⟩ := skipelem_some hSkip
      dsimp only
      rw [hElems, ih (by omega)]

theorem mem_of_mem_splitOn {w : List UInt8} {sep : UInt8} (h : w ∈ path.splitOn sep) (hc : c ∈ w) : c ∈ path := by
  induction path generalizing w with
  | nil =>
    rw [List.splitOn_nil, List.mem_singleton] at h
    rwa [h] at hc
  | cons d ds ih =>
    rw [List.splitOn_cons_eq_if_modifyHead] at h
    split at h
    · rcases List.mem_cons.mp h with rfl | hIn
      · cases hc
      · exact List.mem_cons_of_mem _ (ih hIn hc)
    · obtain ⟨v, vs, hEq⟩ := List.exists_cons_of_ne_nil (List.splitOn_ne_nil sep ds)
      rw [hEq, List.modifyHead_cons] at h
      rw [hEq] at ih
      rcases List.mem_cons.mp h with rfl | hIn
      · rcases List.mem_cons.mp hc with rfl | hIn
        · exact List.mem_cons_self
        · exact List.mem_cons_of_mem _ (ih List.mem_cons_self hIn)
      · exact List.mem_cons_of_mem _ (ih (List.mem_cons_of_mem _ hIn) hc)

theorem mem_elems (h : elem ∈ elems path) : elem ≠ [] ∧ elem.length ≤ dirsiz ∧ ∀ c ∈ elem, c ∈ path := by
  obtain ⟨w, hw, rfl⟩ := List.mem_map.mp h
  rw [List.mem_filter, decide_eq_true_eq] at hw
  refine ⟨fun hNil => ?_, List.length_take_le .., fun c hc => ?_⟩
  · rw [List.take_eq_nil_iff] at hNil
    exact hNil.elim (by decide) hw.2
  · exact mem_of_mem_splitOn hw.1 (List.mem_of_mem_take hc)

theorem cstr_nameBuf (hLen : elem.length ≤ dirsiz) (hZero : 0 ∉ elem) (name : List UInt8) : cstr (nameBuf name elem) = elem := by
  have hNz : ∀ c ∈ elem, decide (c ≠ 0) = true := fun c hc => by
    rw [decide_eq_true_eq]
    rintro rfl
    exact hZero hc
  rw [nameBuf, cstr]
  split
  · rw [List.take_take, min_self, List.take_of_length_le hLen, List.takeWhile_eq_self_iff]
    exact hNz
  · rename_i hShort
    rw [List.take_append, List.take_of_length_le hLen, List.takeWhile_append_of_pos hNz,
      show dirsiz - elem.length = dirsiz - elem.length - 1 + 1 by omega, List.take_succ_cons,
      List.takeWhile_cons_of_neg (by decide), List.append_nil]

theorem length_nameBuf {name : List UInt8} (hName : name.length = dirsiz) : (nameBuf name elem).length = dirsiz := by
  rw [nameBuf]
  split
  · rwa [List.length_take, min_eq_left]
  · rw [List.length_append, List.length_cons, List.length_drop]
    omega

end Elements

end Xv6Rpi.Fs
