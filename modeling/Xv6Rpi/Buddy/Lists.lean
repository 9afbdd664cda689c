import Xv6Rpi.Buddy.Heap
import Xv6Rpi.Lib.DLinked

/-! # The free lists

For every order the links run through exactly the marks with available blocks. A link
has sixteen bits, so this can only last while every index that has to be stored in one
fits: an index in a list of two or more marks must be below `NIL`.
-/

namespace Xv6Rpi.Buddy

open DLinked

/-- The marks of an order that the links visit, from the head on. -/
def Chain (k : Kmem) (o : Nat) (l : List Nat) : Prop :=
  Linked nil (fun i => preLnk (k.getMark o i).lnks) (fun i => nextLnk (k.getMark o i).lnks)
    nil (k.ord o).head l

structure ListInv (k : Kmem) (n o : Nat) (l : List Nat) : Prop where
  nodup : l.Nodup
  chain : Chain k o l
  mem : ∀ i, i ∈ l ↔ i < nmarks n o ∧ (k.getMark o i).bitmap ≠ 0#32
  empty : ∀ i < nmarks n o, (k.getMark o i).bitmap = 0#32 → (k.getMark o i).lnks = mkLnks nil nil
  fits : (∀ i ∈ l, i < nil) ∨ l.length ≤ 1

/-- Storing the index and the head of the order in one another's links loses nothing. -/
def LinkFits (k : Kmem) (o i : Nat) : Prop :=
  i ≠ nil ∧ ((k.ord o).head = nil ∨ (i < nil ∧ (k.ord o).head < nil))

section Frame

variable {k k' : Kmem} {n o i : Nat} {l : List Nat}

theorem ListInv.congr (h : ListInv k n o l) (hHead : (k'.ord o).head = (k.ord o).head)
    (hMark : ∀ i < nmarks n o, k'.getMark o i = k.getMark o i) : ListInv k' n o l where
  nodup := h.nodup
  chain := by
    have hIn : ∀ i ∈ l, k'.getMark o i = k.getMark o i := fun i hi => hMark i ((h.mem i).mp hi).1
    rw [Chain, hHead]
    exact h.chain.congr (fun i hi => by rw [hIn i hi]) (fun i hi => by rw [hIn i hi])
  mem i := by
    rw [h.mem]
    exact and_congr_right fun hi => by rw [hMark i hi]
  empty i hi := by
    rw [hMark i hi]
    exact h.empty i hi
  fits := h.fits

def OnlyOrd (k k' : Kmem) (n o : Nat) : Prop :=
  ∀ o', IsOrd o' → o' ≠ o → (k'.ord o').head = (k.ord o').head ∧
    ∀ i < nmarks n o', k'.getMark o' i = k.getMark o' i

theorem OnlyOrd.listInv (h : OnlyOrd k k' n o) {o' : Nat} (ho' : IsOrd o') (hne : o' ≠ o)
    (hl : ListInv k n o' l) : ListInv k' n o' l :=
  hl.congr (h o' ho' hne).1 (h o' ho' hne).2

theorem OnlyOrd.refl (k : Kmem) (n o : Nat) : OnlyOrd k k n o := fun _ _ _ => ⟨rfl, fun _ _ => rfl⟩

theorem OnlyOrd.trans {k₁ k₂ k₃ : Kmem} (h : OnlyOrd k₁ k₂ n o) (h' : OnlyOrd k₂ k₃ n o) :
    OnlyOrd k₁ k₃ n o := fun o' ho' hne =>
  ⟨(h' o' ho' hne).1.trans (h o' ho' hne).1,
    fun i hi => ((h' o' ho' hne).2 i hi).trans ((h o' ho' hne).2 i hi)⟩

theorem onlyOrd_setMark (hL : Layout k n) (ho : IsOrd o) (hi : i < nmarks n o) (m : Mark) :
    OnlyOrd k (k.setMark o i m) n o := fun _ ho' hne =>
  ⟨rfl, fun _ hi' => getMark_setMark_of_ne k o i m hL ho ho' hi hi' fun h => hne h.1⟩

theorem onlyOrd_setHead (ho : IsOrd o) (x : Nat) : OnlyOrd k (k.setHead o x) n o := fun _ ho' hne =>
  ⟨setHead_head_of_ne k o x ho ho' hne, fun _ _ => setHead_getMark ..⟩

theorem lnks_setLnks (hL : Layout k n) (ho : IsOrd o) (hi : i < nmarks n o) {j : Nat}
    (hj : j < nmarks n o) (v : BitVec 32) :
    ((k.setLnks o i v).getMark o j).lnks = if j = i then v else (k.getMark o j).lnks := by
  by_cases h : j = i
  · subst h
    rw [if_pos rfl, Kmem.setLnks, getMark_setMark_self]
  · rw [if_neg h, Kmem.setLnks, getMark_setMark_of_ne k o i _ hL ho ho hi hj fun hEq => h hEq.2]

end Frame

section Unlink

variable {k : Kmem} {n o i : Nat} {l : List Nat}

theorem onlyOrd_joinPrev (hL : Layout k n) (ho : IsOrd o) {p q : Nat} (hp : p ≠ nil → p < nmarks n o) :
    OnlyOrd k (joinPrev k o i p q) n o := by
  unfold joinPrev
  split
  · rename_i hne
    exact onlyOrd_setMark hL ho (hp hne) _
  · split
    · exact onlyOrd_setHead ho q
    · exact .refl k n o

theorem onlyOrd_joinNext (hL : Layout k n) (ho : IsOrd o) {p q : Nat} (hq : q ≠ nil → q < nmarks n o) :
    OnlyOrd k (joinNext k o p q) n o := by
  unfold joinNext
  split
  · rename_i hne
    exact onlyOrd_setMark hL ho (hq hne) _
  · exact .refl k n o

theorem lnks_joinPrev (hL : Layout k n) (ho : IsOrd o) {p q j : Nat} (hp : p ≠ nil → p < nmarks n o)
    (hj : j < nmarks n o) :
    ((joinPrev k o i p q).getMark o j).lnks =
      if p ≠ nil ∧ j = p then mkLnks (preLnk (k.getMark o p).lnks) q else (k.getMark o j).lnks := by
  unfold joinPrev
  by_cases hne : p ≠ nil
  · rw [if_pos hne, lnks_setLnks hL ho (hp hne) hj]
    simp [hne]
  · have hNot : ¬(p ≠ nil ∧ j = p) := fun h => hne h.1
    rw [if_neg hne, if_neg hNot]
    split
    · rw [setHead_getMark]
    · rfl

theorem lnks_joinNext (hL : Layout k n) (ho : IsOrd o) {p q j : Nat} (hq : q ≠ nil → q < nmarks n o)
    (hj : j < nmarks n o) :
    ((joinNext k o p q).getMark o j).lnks =
      if q ≠ nil ∧ j = q then mkLnks p (nextLnk (k.getMark o q).lnks) else (k.getMark o j).lnks := by
  unfold joinNext
  by_cases hne : q ≠ nil
  · rw [if_pos hne, lnks_setLnks hL ho (hq hne) hj]
    simp [hne]
  · rw [if_neg hne, if_neg (fun h => hne h.1)]

theorem head_joinPrev (k : Kmem) (o i p q : Nat) :
    ((joinPrev k o i p q).ord o).head =
      if p = nil ∧ (k.ord o).head = i then q else (k.ord o).head := by
  unfold joinPrev
  by_cases hp : p = nil
  · rw [if_neg (by simpa using hp)]
    by_cases hh : (k.ord o).head = i
    · rw [if_pos hh, if_pos ⟨hp, hh⟩, setHead_head_self]
    · rw [if_neg hh, if_neg fun h => hh h.2]
  · rw [if_pos hp, if_neg fun h => hp h.1]
    rfl

theorem head_joinNext (k : Kmem) (o p q : Nat) : ((joinNext k o p q).ord o).head = (k.ord o).head := by
  unfold joinNext
  split <;> rfl

theorem lnks_unlinkMark (hL : Layout k n) (hk : LinksOk k n) (ho : IsOrd o) (hi : i < nmarks n o)
    {j : Nat} (hj : j < nmarks n o) (hji : j ≠ i) :
    preLnk ((unlinkMark k o i).getMark o j).lnks =
      (if nextLnk (k.getMark o i).lnks ≠ nil ∧ j = nextLnk (k.getMark o i).lnks
        then preLnk (k.getMark o i).lnks else preLnk (k.getMark o j).lnks) ∧
    nextLnk ((unlinkMark k o i).getMark o j).lnks =
      (if preLnk (k.getMark o i).lnks ≠ nil ∧ j = preLnk (k.getMark o i).lnks
        then nextLnk (k.getMark o i).lnks else nextLnk (k.getMark o j).lnks) := by
  have hPre := hk.pre o i ho hi
  have hNext := hk.next o i ho hi
  have hPreLt := preLnk_lt (k.getMark o i).lnks
  have hNextLt := nextLnk_lt (k.getMark o i).lnks
  generalize hp : preLnk (k.getMark o i).lnks = p at *
  generalize hq : nextLnk (k.getMark o i).lnks = q at *
  have hS1 := sameLayout_joinPrev k o i p q
  have hS2 := sameLayout_joinNext (joinPrev k o i p q) o p q
  have hLnks : ((unlinkMark k o i).getMark o j).lnks =
      ((joinNext (joinPrev k o i p q) o p q).getMark o j).lnks := by
    rw [unlinkMark, hp, hq, lnks_setLnks (hS2.layout (hS1.layout hL)) ho hi hj, if_neg hji]
  rw [hLnks, lnks_joinNext (hS1.layout hL) ho hNext.lt hj]
  have hPrev : ∀ m < nmarks n o, preLnk ((joinPrev k o i p q).getMark o m).lnks =
      preLnk (k.getMark o m).lnks := by
    intro m hm
    rw [lnks_joinPrev hL ho hPre.lt hm]
    split
    · rename_i h
      rw [preLnk_mkLnks, Nat.mod_eq_of_lt (preLnk_lt _), h.2]
    · rfl
  have hNextOf : ∀ m < nmarks n o, nextLnk ((joinPrev k o i p q).getMark o m).lnks =
      if p ≠ nil ∧ m = p then q else nextLnk (k.getMark o m).lnks := by
    intro m hm
    rw [lnks_joinPrev hL ho hPre.lt hm]
    split
    · rw [nextLnk_mkLnks, Nat.mod_eq_of_lt hNextLt]
    · rfl
  by_cases hjq : q ≠ nil ∧ j = q
  · rw [if_pos hjq, if_pos hjq, preLnk_mkLnks, Nat.mod_eq_of_lt hPreLt, nextLnk_mkLnks,
      Nat.mod_eq_of_lt (nextLnk_lt _), hNextOf q (hNext.lt hjq.1), hjq.2]
    exact ⟨rfl, rfl⟩
  · rw [if_neg hjq, if_neg hjq, hPrev j hj, hNextOf j hj]
    exact ⟨rfl, rfl⟩

theorem head_unlinkMark (k : Kmem) (o i : Nat) :
    ((unlinkMark k o i).ord o).head =
      if preLnk (k.getMark o i).lnks = nil ∧ (k.ord o).head = i
        then nextLnk (k.getMark o i).lnks else (k.ord o).head := by
  rw [unlinkMark, setLnks_ord, head_joinNext, head_joinPrev]

theorem onlyOrd_unlinkMark (hL : Layout k n) (hk : LinksOk k n) (ho : IsOrd o) (hi : i < nmarks n o) :
    OnlyOrd k (unlinkMark k o i) n o := by
  have hPre := hk.pre o i ho hi
  have hNext := hk.next o i ho hi
  have hL1 := (sameLayout_joinPrev k o i (preLnk (k.getMark o i).lnks)
    (nextLnk (k.getMark o i).lnks)).layout hL
  exact ((onlyOrd_joinPrev hL ho hPre.lt).trans (onlyOrd_joinNext hL1 ho hNext.lt)).trans
    (onlyOrd_setMark ((sameLayout_joinNext ..).layout hL1) ho hi _)

theorem chain_unlinkMark (hL : Layout k n) (hk : LinksOk k n) (ho : IsOrd o)
    (hl : Chain k o l) (hnodup : l.Nodup) (hIn : ∀ j ∈ l, j < nmarks n o) (hi : i ∈ l) :
    Chain (unlinkMark k o i) o (l.erase i) := by
  have hNe := hl.ne_nil
  have hLinks := fun j hj hji => lnks_unlinkMark hL hk ho (hIn i hi) (j := j) (hIn j hj) hji
  have hHead : ((unlinkMark k o i).ord o).head =
      if preLnk (k.getMark o i).lnks = nil then nextLnk (k.getMark o i).lnks else (k.ord o).head := by
    rw [head_unlinkMark]
    by_cases hp : preLnk (k.getMark o i).lnks = nil
    · rw [if_pos ⟨hp, hl.head_eq_of_pre_nil hi hp⟩, if_pos hp]
    · rw [if_neg fun h => hp h.1, if_neg hp]
  rw [Chain, hHead]
  apply Linked.erase hl hnodup hi
  · intro j hj hji
    rw [(hLinks j hj hji).2]
    by_cases hEq : j = preLnk (k.getMark o i).lnks
    · rw [if_pos ⟨hEq ▸ hNe j hj, hEq⟩, if_pos hEq]
    · rw [if_neg fun h => hEq h.2, if_neg hEq]
  · intro j hj hji
    rw [(hLinks j hj hji).1]
    by_cases hEq : j = nextLnk (k.getMark o i).lnks
    · rw [if_pos ⟨hEq ▸ hNe j hj, hEq⟩, if_pos hEq]
    · rw [if_neg fun h => hEq h.2, if_neg hEq]

/-- The part of a list's invariant that a change of one bitmap keeps. -/
theorem bitmap_setBitmap (hL : Layout k n) (ho : IsOrd o) (hi : i < nmarks n o) {j : Nat}
    (hj : j < nmarks n o) (b : BitVec 32) :
    ((k.setBitmap o i b).getMark o j).bitmap = if j = i then b else (k.getMark o j).bitmap := by
  by_cases h : j = i
  · subst h
    rw [if_pos rfl, Kmem.setBitmap, getMark_setMark_self]
  · rw [if_neg h, Kmem.setBitmap, getMark_setMark_of_ne k o i _ hL ho ho hi hj fun hEq => h hEq.2]

theorem lnks_setBitmap (hL : Layout k n) (ho : IsOrd o) (hi : i < nmarks n o) {j : Nat}
    (hj : j < nmarks n o) (b : BitVec 32) :
    ((k.setBitmap o i b).getMark o j).lnks = (k.getMark o j).lnks := by
  by_cases h : j = i
  · subst h
    rw [Kmem.setBitmap, getMark_setMark_self]
  · rw [Kmem.setBitmap, getMark_setMark_of_ne k o i _ hL ho ho hi hj fun hEq => h hEq.2]

theorem chain_setBitmap (hL : Layout k n) (ho : IsOrd o) (hi : i < nmarks n o) (b : BitVec 32)
    (hl : Chain k o l) (hIn : ∀ j ∈ l, j < nmarks n o) : Chain (k.setBitmap o i b) o l :=
  Linked.congr hl (fun j hj => by rw [lnks_setBitmap hL ho hi (hIn j hj)])
    (fun j hj => by rw [lnks_setBitmap hL ho hi (hIn j hj)])

/-- `unmark_blk` of an available block does not panic and keeps its order's list. -/
theorem ListInv.unmarkBlk {id : Nat} (h : ListInv k n o l) (hL : Layout k n) (hk : LinksOk k n)
    (hb : HasBit n o id) (hA : Avail k o id) :
    ∃ k', unmarkBlk k o id = .ok k' ∧ OnlyOrd k k' n o ∧ ∃ l', ListInv k' n o l' := by
  obtain ⟨ho, hi⟩ := hb
  have hIn : ∀ j ∈ l, j < nmarks n o := fun j hj => ((h.mem j).mp hj).1
  simp only [Buddy.unmarkBlk, shiftRight_five]
  rw [Avail] at hA
  rw [hA]
  simp only [Bool.not_true, Bool.false_eq_true, if_false]
  generalize hbm : (k.getMark o (id / 32)).bitmap &&& ~~~(1#32 <<< (id &&& 0x1F)) = b
  have hOld : (k.getMark o (id / 32)).bitmap ≠ 0#32 := by
    intro hZero
    rw [hZero, available_eq] at hA
    simp at hA
  have hMemI : id / 32 ∈ l := (h.mem _).mpr ⟨hi, hOld⟩
  have hS1 : SameLayout k (k.setBitmap o (id / 32) b) := sameLayout_setMark ..
  have hL1 := hS1.layout hL
  have hK1 := hk.setBitmap hL ho hi b
  have hOnly1 : OnlyOrd k (k.setBitmap o (id / 32) b) n o := onlyOrd_setMark hL ho hi _
  have hChain1 := chain_setBitmap hL ho hi b h.chain hIn
  by_cases hZero : b = 0#32
  · rw [if_pos hZero]
    refine ⟨_, rfl, hOnly1.trans (onlyOrd_unlinkMark hL1 hK1 ho hi), l.erase (id / 32), ?_⟩
    have hBits : ∀ j < nmarks n o, ((unlinkMark (k.setBitmap o (id / 32) b) o (id / 32)).getMark o j).bitmap =
        if j = id / 32 then b else (k.getMark o j).bitmap := by
      intro j hj
      rw [(sameBits_unlinkMark ..).bitmap (sameLayout_unlinkMark ..), bitmap_setBitmap hL ho hi hj]
    refine ⟨h.nodup.erase _, chain_unlinkMark hL1 hK1 ho hChain1 h.nodup hIn hMemI, ?_, ?_, ?_⟩
    · intro j
      rw [h.nodup.mem_erase_iff, h.mem]
      constructor
      · rintro ⟨hne, hj, hbit⟩
        refine ⟨hj, ?_⟩
        rwa [hBits j hj, if_neg hne]
      · rintro ⟨hj, hbit⟩
        rw [hBits j hj] at hbit
        split at hbit
        · exact absurd hZero hbit
        · exact ⟨‹_›, hj, hbit⟩
    · intro j hj hbit
      by_cases hji : j = id / 32
      · rw [hji, unlinkMark, lnks_setLnks _ ho hi hi, if_pos rfl]
        exact (sameLayout_joinNext ..).layout ((sameLayout_joinPrev ..).layout hL1)
      · rw [hBits j hj, if_neg hji] at hbit
        -- a mark outside the list is no neighbour of the one taken out
        have hNot : j ∉ l := fun hMem => ((h.mem j).mp hMem).2 hbit
        rw [unlinkMark, lnks_setLnks ((sameLayout_joinNext ..).layout ((sameLayout_joinPrev ..).layout hL1))
          ho hi hj, if_neg hji, lnks_joinNext ((sameLayout_joinPrev ..).layout hL1) ho
          (hK1.next o _ ho hi).lt hj, if_neg, lnks_joinPrev hL1 ho (hK1.pre o _ ho hi).lt hj, if_neg,
          lnks_setBitmap hL ho hi hj]
        · exact h.empty j hj hbit
        · rintro ⟨hne, rfl⟩
          rcases hChain1.pre_mem hMemI with hp | hp
          · exact hne hp
          · exact hNot hp
        · rintro ⟨hne, rfl⟩
          rcases hChain1.next_mem hMemI with hp | hp
          · exact hne hp
          · exact hNot hp
    · rcases h.fits with hfit | hlen
      · exact Or.inl fun j hj => hfit j (List.mem_of_mem_erase hj)
      · exact Or.inr ((List.length_erase_le).trans hlen)
  · rw [if_neg hZero]
    refine ⟨_, rfl, hOnly1, l, h.nodup, hChain1, ?_, ?_, h.fits⟩
    · intro j
      rw [h.mem]
      refine and_congr_right fun hj => ?_
      rw [bitmap_setBitmap hL ho hi hj]
      split
      · rename_i hji
        exact ⟨fun _ => hZero, fun _ => hji ▸ hOld⟩
      · rfl
    · intro j hj hbit
      rw [lnks_setBitmap hL ho hi hj]
      rw [bitmap_setBitmap hL ho hi hj] at hbit
      split at hbit
      · exact absurd hbit hZero
      · exact h.empty j hj hbit

end Unlink

section Link

variable {k : Kmem} {n o i : Nat} {l : List Nat}

theorem onlyOrd_joinHead (hL : Layout k n) (ho : IsOrd o) {h : Nat} (hh : h ≠ nil → h < nmarks n o) :
    OnlyOrd k (joinHead k o i h) n o := by
  unfold joinHead
  split
  · rename_i hne
    exact onlyOrd_setMark hL ho (hh hne) _
  · exact .refl k n o

theorem onlyOrd_linkMark (hL : Layout k n) (hk : LinksOk k n) (ho : IsOrd o) (hi : i < nmarks n o) :
    OnlyOrd k (linkMark k o i) n o :=
  ((onlyOrd_setMark hL ho hi _).trans
    (onlyOrd_joinHead ((sameLayout_setMark ..).layout hL) ho (hk.head o ho).lt)).trans
    (onlyOrd_setHead ho i)

theorem lnks_linkMark (hL : Layout k n) (hk : LinksOk k n) (ho : IsOrd o) (hi : i < nmarks n o)
    (hHead : (k.ord o).head ≠ i) {j : Nat} (hj : j < nmarks n o) :
    ((linkMark k o i).getMark o j).lnks =
      if j = i then mkLnks nil (k.ord o).head
      else if (k.ord o).head ≠ nil ∧ j = (k.ord o).head then mkLnks i (nextLnk (k.getMark o j).lnks)
      else (k.getMark o j).lnks := by
  have hLt := (hk.head o ho).lt
  have hL1 : Layout (k.setLnks o i (mkLnks nil (k.ord o).head)) n := (sameLayout_setMark ..).layout hL
  rw [linkMark, setHead_getMark]
  unfold joinHead
  by_cases hne : (k.ord o).head ≠ nil
  · rw [if_pos hne, lnks_setLnks hL1 ho (hLt hne) hj]
    by_cases hjh : j = (k.ord o).head
    · rw [if_pos hjh, if_neg (hjh ▸ hHead), if_pos ⟨hne, hjh⟩, ← hjh, lnks_setLnks hL ho hi hj,
        if_neg (hjh ▸ hHead)]
    · rw [if_neg hjh, lnks_setLnks hL ho hi hj, if_neg (fun h : _ ∧ j = (k.ord o).head => hjh h.2)]
  · rw [if_neg hne, lnks_setLnks hL ho hi hj, if_neg (fun h : _ ∧ j = (k.ord o).head => hne h.1)]

theorem chain_linkMark (hL : Layout k n) (hk : LinksOk k n) (ho : IsOrd o) (hi : i < nmarks n o)
    (hl : Chain k o l) (hnodup : l.Nodup) (hIn : ∀ j ∈ l, j < nmarks n o) (hNot : i ∉ l)
    (hFit : LinkFits k o i) : Chain (linkMark k o i) o (i :: l) := by
  obtain ⟨hNil, hCases⟩ := hFit
  have hHead : (k.ord o).head ≠ i := by
    intro hEq
    exact hNot (hEq ▸ hl.head_mem (hEq ▸ hNil))
  have hLinks := fun j hj => lnks_linkMark hL hk ho hi hHead (j := j) hj
  have hMod : (k.ord o).head % 2 ^ 16 = (k.ord o).head := by
    apply Nat.mod_eq_of_lt
    rcases hCases with h | h
    · rw [h]
      decide
    · exact h.2.trans (by decide)
  have hSelf : ((linkMark k o i).ord o).head = i := setHead_head_self ..
  have hNe : ∀ j ∈ l, j ≠ i := fun j hj hEq => hNot (hEq ▸ hj)
  rw [Chain, hSelf]
  apply Linked.push hl hnodup hNil
  · rw [hLinks i hi, if_pos rfl, preLnk_mkLnks]
    rfl
  · rw [hLinks i hi, if_pos rfl, nextLnk_mkLnks, hMod]
  · intro hne
    have hFits := hCases.resolve_left hne
    rw [hLinks _ ((hk.head o ho).lt hne), if_neg hHead, if_pos ⟨hne, rfl⟩, preLnk_mkLnks]
    exact Nat.mod_eq_of_lt (hFits.1.trans (by decide))
  · intro j hj hjh
    rw [hLinks j (hIn j hj), if_neg (hNe j hj), if_neg fun h => hjh h.2]
  · intro j hj
    rw [hLinks j (hIn j hj), if_neg (hNe j hj)]
    split
    · rw [nextLnk_mkLnks, Nat.mod_eq_of_lt (nextLnk_lt _)]
    · rfl

theorem ListInv.fits_push (h : ListInv k n o l) (hFit : LinkFits k o i) :
    (∀ j ∈ i :: l, j < nil) ∨ (i :: l).length ≤ 1 := by
  rcases hFit.2 with hEmpty | ⟨hi, hHead⟩
  · have : l = [] := h.chain.head_eq_nil_iff.mp hEmpty
    exact Or.inr (by simp [this])
  · left
    intro j hj
    rcases List.mem_cons.mp hj with rfl | hj
    · exact hi
    rcases h.fits with hAll | hLen
    · exact hAll j hj
    · -- the only mark of a list of one is its head
      have hMem := h.chain.head_mem (Nat.ne_of_lt hHead)
      obtain ⟨x, rfl⟩ := List.length_eq_one_iff.mp
        (Nat.le_antisymm hLen (List.length_pos_of_mem hj))
      rw [List.mem_singleton] at hj hMem
      rwa [hj, ← hMem]

/-- `mark_blk` of a block that is not available does not panic and keeps its order's
list, if a mark it has to insert fits the links. -/
theorem ListInv.markBlk {id : Nat} (h : ListInv k n o l) (hL : Layout k n) (hk : LinksOk k n)
    (hb : HasBit n o id) (hA : ¬Avail k o id)
    (hFit : (k.getMark o (id / 32)).bitmap = 0#32 → LinkFits k o (id / 32)) :
    ∃ k', markBlk k o id = .ok k' ∧ OnlyOrd k k' n o ∧ ∃ l', ListInv k' n o l' := by
  obtain ⟨ho, hi⟩ := hb
  have hIn : ∀ j ∈ l, j < nmarks n o := fun j hj => ((h.mem j).mp hj).1
  simp only [Buddy.markBlk, shiftRight_five]
  rw [Avail] at hA
  rw [if_neg hA]
  generalize hbm : (k.getMark o (id / 32)).bitmap ||| (1#32 <<< (id &&& 0x1F)) = b
  have hNew : b ≠ 0#32 := by
    intro hZero
    have hSet := available_set (k.getMark o (id / 32)).bitmap id id
    rw [hbm, hZero] at hSet
    simp [available] at hSet
  have hS1 : SameLayout k (k.setBitmap o (id / 32) b) := sameLayout_setMark ..
  have hL1 := hS1.layout hL
  have hK1 := hk.setBitmap hL ho hi b
  have hOnly1 : OnlyOrd k (k.setBitmap o (id / 32) b) n o := onlyOrd_setMark hL ho hi _
  have hChain1 := chain_setBitmap hL ho hi b h.chain hIn
  by_cases hZero : (k.getMark o (id / 32)).bitmap = 0#32
  · rw [if_pos hZero]
    have hNot : id / 32 ∉ l := fun hMem => ((h.mem _).mp hMem).2 hZero
    have hFit1 : LinkFits (k.setBitmap o (id / 32) b) o (id / 32) := hFit hZero
    have hBits : ∀ j < nmarks n o, ((linkMark (k.setBitmap o (id / 32) b) o (id / 32)).getMark o j).bitmap =
        if j = id / 32 then b else (k.getMark o j).bitmap := by
      intro j hj
      rw [(sameBits_linkMark ..).bitmap (sameLayout_linkMark ..), bitmap_setBitmap hL ho hi hj]
    refine ⟨_, rfl, hOnly1.trans (onlyOrd_linkMark hL1 hK1 ho hi), id / 32 :: l,
      List.nodup_cons.mpr ⟨hNot, h.nodup⟩,
      chain_linkMark hL1 hK1 ho hi hChain1 h.nodup hIn hNot hFit1, ?_, ?_, h.fits_push (hFit hZero)⟩
    · intro j
      rw [List.mem_cons, h.mem]
      constructor
      · rintro (rfl | ⟨hj, hbit⟩)
        · refine ⟨hi, ?_⟩
          rwa [hBits _ hi, if_pos rfl]
        · refine ⟨hj, ?_⟩
          rw [hBits j hj]
          split
          · exact hNew
          · exact hbit
      · rintro ⟨hj, hbit⟩
        rw [hBits j hj] at hbit
        split at hbit
        · exact Or.inl ‹_›
        · exact Or.inr ⟨hj, hbit⟩
    · intro j hj hbit
      rw [hBits j hj] at hbit
      split at hbit
      · exact absurd hbit hNew
      · rename_i hji
        have hNotJ : j ∉ l := fun hMem => ((h.mem j).mp hMem).2 hbit
        have hHead : ((k.setBitmap o (id / 32) b).ord o).head ≠ id / 32 := fun hEq =>
          hNot (hEq ▸ h.chain.head_mem (hEq ▸ (hFit hZero).1))
        rw [lnks_linkMark hL1 hK1 ho hi hHead hj, if_neg hji, if_neg, lnks_setBitmap hL ho hi hj]
        · exact h.empty j hj hbit
        · rintro ⟨hne, rfl⟩
          exact hNotJ (h.chain.head_mem hne)
  · rw [if_neg hZero]
    refine ⟨_, rfl, hOnly1, l, h.nodup, hChain1, ?_, ?_, h.fits⟩
    · intro j
      rw [h.mem]
      refine and_congr_right fun hj => ?_
      rw [bitmap_setBitmap hL ho hi hj]
      split
      · rename_i hji
        exact ⟨fun _ => hNew, fun _ => hji ▸ hZero⟩
      · rfl
    · intro j hj hbit
      rw [lnks_setBitmap hL ho hi hj]
      rw [bitmap_setBitmap hL ho hi hj] at hbit
      split at hbit
      · exact absurd hbit hNew
      · exact h.empty j hj hbit

end Link

section Calls

def Lists (k : Kmem) (n : Nat) : Prop := ∀ o, IsOrd o → ∃ l, ListInv k n o l

def KeepsBelow (k k' : Kmem) (n o : Nat) : Prop :=
  ∀ o' < o, IsOrd o' → ∀ l, ListInv k n o' l → ListInv k' n o' l

theorem KeepsBelow.trans {k₁ k₂ k₃ : Kmem} {n o o' : Nat} (h : KeepsBelow k₁ k₂ n o)
    (h' : KeepsBelow k₂ k₃ n o') (ho : o ≤ o') : KeepsBelow k₁ k₃ n o :=
  fun p hp hOrd l hl => h' p (hp.trans_le ho) hOrd l (h p hp hOrd l hl)

theorem OnlyOrd.keepsBelow {k k' : Kmem} {n o : Nat} (h : OnlyOrd k k' n o) : KeepsBelow k k' n o :=
  fun _ hp hOrd _ hl => h.listInv hOrd (Nat.ne_of_lt hp) hl

theorem OnlyOrd.lists {k k' : Kmem} {n o : Nat} {l : List Nat} (h : OnlyOrd k k' n o) (hLs : Lists k n)
    (hl : ListInv k' n o l) : Lists k' n := by
  intro o' ho'
  by_cases hEq : o' = o
  · exact ⟨l, hEq ▸ hl⟩
  · obtain ⟨l', hl'⟩ := hLs o' ho'
    exact ⟨l', h.listInv ho' hEq hl'⟩

theorem ListInv.linkFits {k : Kmem} {n o i : Nat} {l : List Nat} (h : ListInv k n o l)
    (hSmall : nmarks n o ≤ nil) (hi : i < nmarks n o) : LinkFits k o i := by
  refine ⟨Nat.ne_of_lt (hi.trans_le hSmall), ?_⟩
  by_cases hHead : (k.ord o).head = nil
  · exact Or.inl hHead
  · exact Or.inr ⟨hi.trans_le hSmall,
      ((h.mem _).mp (h.chain.head_mem hHead)).1.trans_le hSmall⟩

theorem avail_buddy {k : Kmem} {o id : Nat} :
    available (k.getMark o (id / 32)).bitmap (id ^^^ 1) = true ↔ Avail k o (id ^^^ 1) := by
  rw [Avail, xor_one_div_32]

/-- Without a free buddy, or at the largest order, `_kfree` marks the block itself. -/
theorem kfreeUnlocked_mark {k : Kmem} {n o id : Nat} {H : Set (Nat × Nat)}
    (h : Inv k n (insert (o, id) H)) (hStop : ¬Avail k o (id ^^^ 1) ∨ ¬o < maxOrd) :
    _kfree k (addr k (o, id)) o = Buddy.markBlk k o id := by
  have hNot : ¬Avail k o id := h.held_not_avail
  rw [_kfree]
  simp only [mem2blkid_addr h.layout h.held, shiftRight_five]
  rw [Avail] at hNot
  rw [if_neg hNot]
  rcases hStop with hBuddy | ho
  · rw [if_pos]
    rw [← avail_buddy] at hBuddy
    simpa using hBuddy
  · rw [if_neg ho]
    split <;> rfl

theorem kfreeUnlocked_merge {k k₁ : Kmem} {n o id : Nat} {H : Set (Nat × Nat)}
    (h : Inv k n (insert (o, id) H)) (hb : (o, id) ∉ H) (ho : o < maxOrd) (hBuddy : Avail k o (id ^^^ 1))
    (hk₁ : Buddy.unmarkBlk k o (id ^^^ 1) = .ok k₁) :
    _kfree k (addr k (o, id)) o = _kfree k₁ (addr k₁ (o + 1, id / 2)) (o + 1) := by
  have hNot : ¬Avail k o id := h.held_not_avail
  obtain ⟨_, hInv, _⟩ := h.takeBuddy hb ho hk₁
  rw [← avail_buddy] at hBuddy
  rw [Avail] at hNot
  rw [_kfree]
  simp only [mem2blkid_addr h.layout h.held, shiftRight_five, hBuddy, hk₁, ho, if_true, Bool.not_true,
    Bool.false_eq_true, if_false, blkid2mem_parent hInv.layout hInv.held]
  rw [if_neg hNot]

theorem Lists.kfreeUnlocked {k : Kmem} {n o id : Nat} {H : Set (Nat × Nat)} (hLs : Lists k n)
    (h : Inv k n (insert (o, id) H)) (hb : (o, id) ∉ H)
    (hFit : (k.getMark o (id / 32)).bitmap = 0#32 → LinkFits k o (id / 32))
    (hSmall : ∀ o', IsOrd o' → o < o' → nmarks n o' ≤ nil) :
    ∃ k', _kfree k (addr k (o, id)) o = .ok k' ∧ Lists k' n ∧ KeepsBelow k k' n o := by
  induction hd : maxOrd - o generalizing k o id with
  | zero =>
    have hBit := h.held.hasBit h.layout
    obtain ⟨l, hl⟩ := hLs o hBit.1
    obtain ⟨k', hk', hOnly, l', hl'⟩ :=
      hl.markBlk h.layout h.links hBit h.held_not_avail hFit
    exact ⟨k', (kfreeUnlocked_mark h (Or.inr (by omega))).trans hk', hOnly.lists hLs hl',
      hOnly.keepsBelow⟩
  | succ d ih =>
    have hBit := h.held.hasBit h.layout
    obtain ⟨l, hl⟩ := hLs o hBit.1
    by_cases hBuddy : Avail k o (id ^^^ 1)
    · have ho : o < maxOrd := by omega
      have hBuddyBit : HasBit n o (id ^^^ 1) := ⟨hBit.1, by rw [xor_one_div_32]; exact hBit.2⟩
      obtain ⟨k₁, hk₁, hOnly, l₁, hl₁⟩ := hl.unmarkBlk h.layout h.links hBuddyBit hBuddy
      obtain ⟨hp, hInv, _⟩ := h.takeBuddy hb ho hk₁
      have hLs₁ := hOnly.lists hLs hl₁
      obtain ⟨l₂, hl₂⟩ := hLs₁ (o + 1) hInv.held.1
      have hFit₁ := hl₂.linkFits (hSmall (o + 1) hInv.held.1 (Nat.lt_succ_self o))
        (hInv.held.hasBit hInv.layout).2
      obtain ⟨k', hk', hLs', hKeep⟩ := ih hLs₁ hInv hp (fun _ => hFit₁)
        (fun o' ho' hlt => hSmall o' ho' (Nat.lt_of_succ_lt hlt)) (by omega)
      exact ⟨k', (kfreeUnlocked_merge h hb ho hBuddy hk₁).trans hk', hLs',
        hOnly.keepsBelow.trans hKeep (Nat.le_succ o)⟩
    · obtain ⟨k', hk', hOnly, l', hl'⟩ :=
        hl.markBlk h.layout h.links hBit h.held_not_avail hFit
      exact ⟨k', (kfreeUnlocked_mark h (Or.inl hBuddy)).trans hk', hOnly.lists hLs hl',
        hOnly.keepsBelow⟩

theorem Lists.getBlk {k : Kmem} {n o : Nat} {H : Set (Nat × Nat)} (hLs : Lists k n)
    (h : Inv k n H) (ho : IsOrd o) (hHead : (k.ord o).head ≠ nil) :
    ∃ r, Buddy.getBlk k o = .ok r ∧ Lists r.2 n ∧ KeepsBelow k r.2 n o := by
  obtain ⟨l, hl⟩ := hLs o ho
  have hne := ((hl.mem _).mp (hl.chain.head_mem hHead)).2
  obtain ⟨i, hBit⟩ := firstBit_isSome hne
  obtain ⟨hMod, hMem⟩ := h.headBlock ho hHead hBit
  obtain ⟨k', hk', hOnly, l', hl'⟩ := hl.unmarkBlk h.layout h.links hMem.1 hMem.2
  refine ⟨(blkid2mem k' o ((k.ord o).head * 32 + i), k'), ?_, hOnly.lists hLs hl', hOnly.keepsBelow⟩
  simp only [Buddy.getBlk]
  rw [if_neg hne, hBit]
  simp only [hMod, hk', Except.map]

/-- The block of the order that the lists offer next: the first of the order's head, or
the lower half of what the next order offers. -/
def nextBlk (k : Kmem) (o : Nat) : Option Nat :=
  if (k.ord o).head ≠ nil then
    (firstBit (k.getMark o (k.ord o).head).bitmap).map fun i => (k.ord o).head * 32 + i
  else if o < maxOrd then (nextBlk k (o + 1)).map (2 * ·)
  else none
termination_by maxOrd - o

theorem Inv.nextBlk {k k' : Kmem} {n o mem : Nat} {H : Set (Nat × Nat)} (h : Inv k n H) (ho : IsOrd o)
    (hk : _kmalloc k o = .ok (mem, k')) (hMem : mem ≠ 0) :
    ∃ id, Buddy.nextBlk k o = some id ∧ mem = addr k (o, id) := by
  rw [Buddy.nextBlk]
  rw [_kmalloc] at hk
  split at hk
  · rename_i hHead
    simp only [Buddy.getBlk] at hk
    split at hk
    · cases hk
    rename_i hne
    obtain ⟨i, hBit⟩ := firstBit_isSome hne
    obtain ⟨hMod, hIn⟩ := h.headBlock ho hHead hBit
    rw [hBit] at hk
    simp only [hMod] at hk
    obtain ⟨k₁, hU, hEq⟩ := map_eq_ok.mp hk
    obtain ⟨rfl, rfl⟩ := Prod.mk.inj hEq
    obtain ⟨_, _, hInv, hS⟩ := h.unmarkBlk hIn.1 hU
    refine ⟨(k.ord o).head * 32 + i, by rw [if_pos hHead, hBit, Option.map_some], ?_⟩
    rw [blkid2mem_eq hInv.layout hInv.held, hS.addr]
  · rename_i hHead
    rw [if_neg hHead]
    split at hk
    · rename_i ho'
      split at hk
      · cases hk
      rename_i up k₁ hk₁
      have hUp : up = mem := by
        split at hk
        · obtain ⟨_, _, hEq⟩ := map_eq_ok.mp hk
          exact (Prod.mk.inj hEq).1
        · exact (Prod.mk.inj (Except.ok.inj hk)).1
      obtain ⟨id, hId, hAddr⟩ :=
        h.nextBlk (o := o + 1) ⟨ho.1.trans (Nat.le_succ o), ho'⟩ hk₁ (hUp ▸ hMem)
      exact ⟨2 * id, by rw [if_pos ho', hId, Option.map_some], by rw [← hUp, hAddr, addr_succ]⟩
    · exact absurd (Prod.mk.inj (Except.ok.inj hk)).1.symm hMem
termination_by maxOrd - o

/-- The mark that a split at an order without free blocks puts into its list has an
index other than `nil`. -/
def SplitFits (k : Kmem) (o : Nat) : Prop :=
  (k.ord o).head = nil → ∀ id, nextBlk k (o + 1) = some id → (2 * id + 1) / 32 ≠ nil

theorem Lists.kmallocUnlocked {k : Kmem} {n o : Nat} {H : Set (Nat × Nat)} (hLs : Lists k n)
    (h : Inv k n H) (ho : IsOrd o) (hFit : nmarks n o ≤ nil ∨ SplitFits k o)
    (hSmall : ∀ o', IsOrd o' → o < o' → nmarks n o' ≤ nil) :
    ∃ r, _kmalloc k o = .ok r ∧ Lists r.2 n ∧ KeepsBelow k r.2 n o := by
  rw [_kmalloc]
  by_cases hHead : (k.ord o).head ≠ nil
  · rw [if_pos hHead]
    exact hLs.getBlk h ho hHead
  rw [if_neg hHead]
  push Not at hHead
  by_cases ho' : o < maxOrd
  · rw [if_pos ho']
    have hOrd : IsOrd (o + 1) := ⟨ho.1.trans (Nat.le_succ o), ho'⟩
    obtain ⟨⟨up, k₁⟩, hk₁, hLs₁, hKeep⟩ := hLs.kmallocUnlocked h hOrd
      (Or.inl (hSmall _ hOrd (Nat.lt_succ_self o)))
      (fun o' h1 h2 => hSmall o' h1 (Nat.lt_of_succ_lt h2))
    simp only [hk₁]
    obtain ⟨hS, hCases⟩ := h.kmallocUnlocked hOrd hk₁
    rcases hCases with ⟨rfl, hInv⟩ | ⟨j, rfl, hNot, hInv⟩
    · simp only [ne_eq, not_true_eq_false, if_false]
      exact ⟨_, rfl, hLs₁, fun p hp => hKeep p (Nat.lt_succ_of_lt hp)⟩
    · have hPos : addr k (o + 1, j) ≠ 0 := by
        have := h.layout.heapPos
        rw [addr]
        omega
      obtain ⟨hLow, hHigh, hSplit⟩ := hInv.split hNot ho.1
      have hAddr := upperHalf_addr hS hSplit
      -- the order has no free block, so the upper half starts its list
      obtain ⟨l, hl⟩ := hLs o ho
      have hl₁ := hKeep o (Nat.lt_succ_self o) ho l hl
      obtain rfl : l = [] := hl.chain.head_eq_nil_iff.mp hHead
      have hHead₁ : (k₁.ord o).head = nil := hl₁.chain.head_eq_nil_iff.mpr rfl
      obtain ⟨id, hId, hEq⟩ := h.nextBlk hOrd hk₁ hPos
      obtain rfl : j = id :=
        Nat.eq_of_mul_eq_mul_right (Nat.two_pow_pos (o + 1)) (Nat.add_left_cancel hEq)
      have hNil : (2 * j + 1) / 32 ≠ nil := by
        rcases hFit with hFit | hFit
        · exact Nat.ne_of_lt ((hSplit.held.hasBit hSplit.layout).2.trans_le hFit)
        · exact hFit hHead j hId
      obtain ⟨k₂, hk₂, hLs₂, hKeep₂⟩ := hLs₁.kfreeUnlocked hSplit hHigh
        (fun _ => ⟨hNil, Or.inl hHead₁⟩) hSmall
      refine ⟨(addr k (o + 1, j), k₂), ?_, hLs₂, fun p hp hOrd l hl => ?_⟩
      · rw [if_pos hPos, hAddr, hk₂]
        rfl
      · exact hKeep₂ p hp hOrd l (hKeep p (Nat.lt_succ_of_lt hp) hOrd l hl)
  · rw [if_neg ho']
    exact ⟨_, rfl, hLs, fun _ _ _ _ hl => hl⟩
termination_by maxOrd - o

end Calls

end Xv6Rpi.Buddy
