import Mathlib.Algebra.Order.BigOperators.Group.Finset
import Xv6Rpi.Mkfs.Table

/-! # Appending to a file of the image

A call of `iappend` changes the inode in memory and the blocks of the data area first, and
writes the inode back at the end. Where the files fit it does not exit: both are proved from
one set of rules, with `E` for what an exit has to mean.
-/

namespace Xv6Rpi.Mkfs

open Fs Prog

def rely (E : Prop) : Rely Mk Unit Unit := ⟨fun _ => E, fun _ _ => True, fun _ _ => True⟩

section Actions

variable {E : Prop} {m : Mk}

theorem post_of_run {α : Type} {x : MkM α} {Q : α → Mk → Prop} {a : α} {m' : Mk} (h : wp (rely E) x Q m)
    (hRun : x.run m = .ok (a, m')) : Q a m' :=
  wp_run h (along_of_forall fun _ _ => trivial) hRun

theorem run_of_wp {α : Type} {x : MkM α} {Q : α → Mk → Prop} (h : wp (rely False) x Q m) :
    ∃ a m', x.run m = .ok (a, m') ∧ Q a m' := by
  cases hRun : x.run m with
  | error e => exact (wp_error h (along_of_forall fun _ _ => trivial) hRun).elim
  | ok r => exact ⟨r.1, r.2, rfl, post_of_run h hRun⟩

theorem wp_act {α : Type} {f : Mk → Except Unit (α × Mk)} {Q : α → Mk → Prop}
    (h : match f m with
      | .error _ => E
      | .ok (a, m') => Q a m') : wp (rely E) (act f) Q m := by
  rw [act, wp_single]
  refine fun _ => ⟨trivial, ?_⟩
  revert h
  cases f m with
  | error e => exact id
  | ok r => exact id

theorem wp_assert {c : Prop} {_ : Decidable c} {Q : Unit → Mk → Prop} (hExit : ¬c → E) (h : c → Q () m) :
    wp (rely E) (assert c) Q m := by
  rw [assert]
  apply wp_act
  by_cases hc : c
  · rw [if_pos hc]
    exact h hc
  · rw [if_neg hc]
    exact hExit hc

theorem wp_rsect {sec : Nat} {Q : Block → Mk → Prop} (hExit : ¬sec < m.sectors → E)
    (h : sec < m.sectors → Q (m.disk sec) m) : wp (rely E) (rsect sec) Q m := by
  rw [rsect]
  apply wp_act
  by_cases hc : sec < m.sectors
  · rw [if_pos hc]
    exact h hc
  · rw [if_neg hc]
    exact hExit hc

theorem wp_wsect {sec : Nat} {buf : Block} {Q : Unit → Mk → Prop} (hIn : sec < m.sectors)
    (h : Q () { m with disk := Function.update m.disk sec buf }) : wp (rely E) (wsect sec buf) Q m := by
  rw [wsect]
  apply wp_act
  rw [Nat.max_eq_left hIn]
  exact h

theorem wp_takeBlock {Q : Nat → Mk → Prop}
    (h : Q m.freeblock { m with freeblock := m.freeblock + 1, usedblocks := m.usedblocks + 1 }) :
    wp (rely E) takeBlock Q m := by
  rw [takeBlock]
  exact wp_act h

end Actions

/-! ## The sizes of all files -/

def total (len : Nat → Nat) : Nat := metablocks + ∑ i ∈ Finset.range ninodes, blocksOf (len i)

def lengths (c : Nat → List UInt8) (i : Nat) : Nat := (c i).length

theorem blocksOf_mono {a b : Nat} (h : a ≤ b) : blocksOf a ≤ blocksOf b := by
  simp only [blocksOf]
  split <;> split <;> omega

theorem total_empty : total (lengths fun _ => []) = metablocks := by
  have hNone : blocksOf 0 = 0 := by decide
  have hZero : ∑ i ∈ Finset.range ninodes, blocksOf (lengths (fun _ => []) i) = 0 :=
    Finset.sum_eq_zero fun i _ => hNone
  rw [total, hZero, Nat.add_zero]

theorem total_mono {f g : Nat → Nat} (h : ∀ i, f i ≤ g i) : total f ≤ total g :=
  Nat.add_le_add_left (Finset.sum_le_sum fun i _ => blocksOf_mono (h i)) _

theorem lengths_update (c : Nat → List UInt8) (i : Nat) (l : List UInt8) :
    lengths (Function.update c i l) = Function.update (lengths c) i l.length := by
  funext j
  rcases eq_or_ne j i with rfl | hne
  · rw [lengths, Function.update_self, Function.update_self]
  · rw [lengths, Function.update_of_ne hne, Function.update_of_ne hne, lengths]

theorem total_update (f : Nat → Nat) {i : Nat} (hi : i < ninodes) (n : Nat) :
    total (Function.update f i n) + blocksOf (f i) = total f + blocksOf n := by
  have hMem : i ∈ Finset.range ninodes := Finset.mem_range.mpr hi
  have hNew : ∑ j ∈ Finset.range ninodes, blocksOf (Function.update f i n j) =
      blocksOf n + ∑ j ∈ (Finset.range ninodes).erase i, blocksOf (f j) := by
    rw [← Finset.add_sum_erase _ _ hMem, Function.update_self]
    congr 1
    exact Finset.sum_congr rfl fun j hj => by rw [Function.update_of_ne (Finset.ne_of_mem_erase hj)]
  have hOld := Finset.add_sum_erase (Finset.range ninodes) (fun j => blocksOf (f j)) hMem
  simp only [total]
  omega

/-! ## One turn of the loop -/

/-- The image while `iappend` changes the inode `i`, of which `din` is the copy in memory. -/
structure Work (m₀ : Mk) (i : Nat) (m : Mk) (din : Dinode) (c : Nat → List UInt8) : Prop where
  sectors : m.sectors = size
  used : m.usedblocks = m.freeblock
  inode : m.freeinode = m₀.freeinode
  low : ∀ x < metablocks, m.disk x = m₀.disk x
  table : Table m.disk (Function.update (dinodeOf m₀.disk) i din) c m.freeblock
  fields : din = { dinodeOf m₀.disk i with addrs := din.addrs }
  ok : din.Ok

/-- How many blocks it takes to have the block `fbn`. -/
def grows (d : Disk) (din : Dinode) (fbn : Nat) : Nat :=
  (if ptr d din (posOf fbn) = 0 then 1 else 0) + if ndirect ≤ fbn ∧ din.addrs ndirect = 0 then 1 else 0

structure Sector (m₀ : Mk) (i : Nat) (m : Mk) (din : Dinode) (fbn : Nat) (m' : Mk) (din' : Dinode) (x : Nat) : Prop where
  ptr : ptr m'.disk din' (posOf fbn) = x
  ne : x ≠ 0
  mapped : ∀ q < npos, Fs.ptr m'.disk din' q ≠ 0 ↔
    Fs.ptr m.disk din q ≠ 0 ∨ q = posOf fbn ∨ (ndirect ≤ fbn ∧ q = ndirect)
  others : ∀ j < ninodes, j ≠ i → ∀ q < npos,
    Fs.ptr m'.disk (dinodeOf m₀.disk j) q = Fs.ptr m.disk (dinodeOf m₀.disk j) q
  count : m'.freeblock = m.freeblock + grows m.disk din fbn
  last : m'.freeblock ≤ size ∨ m'.freeblock = x + 1

section Turn

variable {E : Prop} {m₀ m m' : Mk} {i fbn k : Nat} {din din' : Dinode} {c : Nat → List UInt8}

theorem Work.table_self (h : Work m₀ i m din c) (hi : i < ninodes) {q : Nat} (hq : q < npos)
    (hNz : Fs.ptr m.disk din q ≠ 0) : metablocks ≤ Fs.ptr m.disk din q ∧ Fs.ptr m.disk din q < m.freeblock := by
  have := h.table.area i hi q hq
  rw [Function.update_self] at this
  exact this hNz

theorem wp_addrOf (h : Work m₀ i m din c) (hi : i < ninodes) (hk : k ≤ ndirect) (hSmall : m.freeblock ≤ size)
    {Q : Dinode → Mk → Prop}
    (hQ : ∀ m' din', Work m₀ i m' din' c → m'.disk = m.disk → din'.addrs k ≠ 0 →
      (∀ q < npos, Fs.ptr m.disk din' q ≠ 0 ↔ Fs.ptr m.disk din q ≠ 0 ∨ q = k) →
      (∀ q < npos, q ≠ k → Fs.ptr m.disk din' q = Fs.ptr m.disk din q) →
      m'.freeblock = m.freeblock + (if din.addrs k = 0 then 1 else 0) →
      (m'.freeblock ≤ size ∨ m'.freeblock = din'.addrs k + 1) → Q din' m') :
    wp (rely E) (addrOf din k) Q m := by
  rw [addrOf]
  by_cases hz : din.addrs k = 0
  · rw [if_pos hz, wp_bind]
    apply wp_takeBlock
    rw [wp_pure]
    have hLow := h.table.low
    rw [metablocks_eq] at hLow
    have hOld : (Function.update (dinodeOf m₀.disk) i din i).addrs k = 0 := by rw [Function.update_self, hz]
    obtain ⟨hTable, hPtr⟩ := h.table.takeAddr hi hk hOld
    rw [Function.update_idem, Function.update_self] at hTable hPtr
    have hNew (q : Nat) (hq : q < npos) (hne : q ≠ k) :
        Fs.ptr m.disk { din with addrs := Function.update din.addrs k m.freeblock } q = Fs.ptr m.disk din q := by
      have := hPtr i hi q hq fun hEq => hne hEq.2
      rwa [Function.update_self, Function.update_self] at this
    refine hQ _ _ ⟨h.sectors, ?_, h.inode, h.low, hTable, ?_, h.ok.setAddr hk ?_⟩ rfl ?_ ?_ hNew ?_ ?_
    · exact congrArg (· + 1) h.used
    · conv_lhs => rw [h.fields]
    · exact hSmall.trans_lt (by decide)
    · simp only [Function.update_self]
      omega
    · intro q hq
      rcases eq_or_ne q k with rfl | hne
      · refine iff_of_true ?_ (.inr rfl)
        rw [ptr_le hk]
        simp only [Function.update_self]
        omega
      · rw [hNew q hq hne]
        exact ⟨.inl, fun h => h.resolve_right hne⟩
    · rw [if_pos hz]
    · simp only [Function.update_self, or_true]
  · rw [if_neg hz, wp_pure]
    refine hQ m din h rfl hz (fun q _ => ⟨.inl, ?_⟩) (fun _ _ _ => rfl) ?_ (.inl hSmall)
    · rintro (hNz | rfl)
      · exact hNz
      · rwa [ptr_le hk]
    · rw [if_neg hz, Nat.add_zero]

theorem wp_sectorOf (h : Work m₀ i m din c) (hi : i < ninodes) (hBn : fbn < maxfile) (hSmall : m.freeblock ≤ size)
    (hRoom : E ∨ m.freeblock + grows m.disk din fbn ≤ size) {Q : Dinode × Nat → Mk → Prop}
    (hQ : ∀ m' din' x, Work m₀ i m' din' c → Sector m₀ i m din fbn m' din' x → Q (din', x) m') :
    wp (rely E) (sectorOf din fbn) Q m := by
  rw [sectorOf]
  by_cases hDirect : fbn < ndirect
  · have hPos : posOf fbn = fbn := if_pos hDirect
    have hGrows : grows m.disk din fbn = if din.addrs fbn = 0 then 1 else 0 := by
      have hNot : ¬(ndirect ≤ fbn ∧ din.addrs ndirect = 0) := fun hEq => absurd hEq.1 (Nat.not_le.mpr hDirect)
      rw [grows, hPos, ptr_le hDirect.le, if_neg hNot, Nat.add_zero]
    rw [if_pos hDirect, wp_bind]
    apply wp_addrOf h hi hDirect.le hSmall
    intro m' din' hW hDisk hNz hMapped hKeep hCount hLast
    rw [wp_pure]
    refine hQ m' din' _ hW ⟨?_, hNz, fun q hq => ?_, fun j _ _ q _ => ?_, ?_, hLast⟩
    · rw [hPos, ptr_le hDirect.le]
    · rw [hDisk, hMapped q hq, hPos]
      exact or_congr_right ⟨.inl, fun hEq => hEq.resolve_right fun h => absurd h.1 (Nat.not_le.mpr hDirect)⟩
    · rw [hDisk]
    · rw [hGrows]
      exact hCount
  · have hLe : ndirect ≤ fbn := Nat.le_of_not_lt hDirect
    have hPos : posOf fbn = ndirect + 1 + (fbn - ndirect) := by
      rw [posOf, if_neg hDirect]
      omega
    have hk : fbn - ndirect < nindirect := by
      rw [maxfile] at hBn
      omega
    rw [if_neg hDirect, wp_bind]
    apply wp_addrOf h hi le_rfl hSmall
    intro m₁ din₁ hW₁ hDisk₁ hNz₁ hMapped₁ hKeep₁ hCount₁ hLast₁
    have hInd : Fs.ptr m₁.disk din₁ ndirect = din₁.addrs ndirect := ptr_le le_rfl
    have hArea := hW₁.table_self hi indirect_lt (by rwa [hInd])
    rw [hInd] at hArea
    have hEntry : Fs.ptr m₁.disk din₁ (posOf fbn) = getWord (m₁.disk (din₁.addrs ndirect)) (4 * (fbn - ndirect)) := by
      rw [ptr_gt (by omega) hNz₁, hPos, Nat.add_sub_cancel_left]
    have hSameEntry : Fs.ptr m₁.disk din₁ (posOf fbn) = Fs.ptr m.disk din (posOf fbn) := by
      rw [hDisk₁]
      exact hKeep₁ _ (posOf_lt hBn) (posOf_ne_indirect fbn)
    have hGrows : grows m.disk din fbn = (if getWord (m₁.disk (din₁.addrs ndirect)) (4 * (fbn - ndirect)) = 0 then 1 else 0) +
        if din.addrs ndirect = 0 then 1 else 0 := by
      rw [grows, ← hEntry, hSameEntry]
      simp only [hLe, true_and]
    rw [wp_bind]
    apply wp_rsect
    · intro hOut
      refine hRoom.resolve_right fun hFits => hOut ?_
      rw [hW₁.sectors]
      omega
    intro hIn
    rw [hW₁.sectors] at hIn
    have hSmall₁ : m₁.freeblock ≤ size := by omega
    by_cases hz : getWord (m₁.disk (din₁.addrs ndirect)) (4 * (fbn - ndirect)) = 0
    · rw [if_pos hz, wp_bind]
      apply wp_takeBlock
      rw [wp_bind]
      apply wp_wsect (by rw [hW₁.sectors]; exact hIn)
      rw [wp_pure]
      have hSelf : Function.update (dinodeOf m₀.disk) i din₁ i = din₁ := Function.update_self ..
      obtain ⟨hTable, hNew, hPtr⟩ := hW₁.table.takeEntry hi (by rwa [hSelf]) hk (by rwa [hSelf])
        (hSmall₁.trans_lt (by decide)) rfl
      rw [hSelf] at hTable hNew hPtr
      rw [← hPos] at hNew hPtr
      have hPos' : m₁.freeblock ≠ 0 := by omega
      refine hQ _ din₁ _ ⟨hW₁.sectors, ?_, hW₁.inode, fun x hx => ?_, hTable, hW₁.fields, hW₁.ok⟩
        ⟨hNew, hPos', fun q hq => ?_, fun j hj hne q hq => ?_, ?_, .inr rfl⟩
      · exact congrArg (· + 1) hW₁.used
      · have hne : x ≠ din₁.addrs ndirect := by omega
        exact (Function.update_of_ne hne _ _).trans (hW₁.low x hx)
      · rcases eq_or_ne q (posOf fbn) with rfl | hne
        · exact iff_of_true (by rw [hNew]; exact hPos') (.inr (.inl rfl))
        · have hOld := hPtr i hi q hq fun hEq => hne hEq.2
          rw [hSelf] at hOld
          rw [hOld, hDisk₁, hMapped₁ q hq]
          exact or_congr_right ⟨fun hEq => .inr ⟨hLe, hEq⟩, fun hEq => (hEq.resolve_left hne).2⟩
      · have hOld := hPtr j hj q hq fun hEq => hne hEq.1
        rw [Function.update_of_ne hne] at hOld
        rw [hOld, hDisk₁]
      · rw [hGrows, if_pos hz]
        change m₁.freeblock + 1 = _
        omega
    · rw [if_neg hz, wp_pure]
      refine hQ m₁ din₁ _ hW₁ ⟨hEntry, hz, fun q hq => ?_, fun j _ _ q _ => by rw [hDisk₁], ?_, .inl hSmall₁⟩
      · rw [hDisk₁, hMapped₁ q hq]
        constructor
        · rintro (hNz | rfl)
          · exact .inl hNz
          · exact .inr (.inr ⟨hLe, rfl⟩)
        · rintro (hNz | rfl | ⟨-, rfl⟩)
          · exact .inl hNz
          · left
            rw [← hSameEntry, hEntry]
            exact hz
          · exact .inr rfl
      · rw [hGrows, if_neg hz, Nat.zero_add]
        exact hCount₁

structure Appending (m₀ : Mk) (i : Nat) (c : Nat → List UInt8) (m : Mk) (din : Dinode) (w : List UInt8) : Prop
    extends Work m₀ i m din (Function.update c i w) where
  mapped : ∀ q < npos, Fs.ptr m.disk din q ≠ 0 ↔ Needs w.length q
  others : ∀ j < ninodes, j ≠ i → ∀ q < npos,
    Fs.ptr m.disk (dinodeOf m₀.disk j) q = Fs.ptr m₀.disk (dinodeOf m₀.disk j) q
  count : m.freeblock = total (lengths (Function.update c i w))
  small : m.freeblock ≤ size
  fits : w.length ≤ maxfile * bsize

theorem blocksOf_add {len n fbn : Nat} (hFbn : len / 512 = fbn) (hn : 0 < n) (hEnd : n ≤ (fbn + 1) * 512 - len) :
    blocksOf (len + n) =
      blocksOf len + ((if ¬fbn * bsize < len then 1 else 0) + if ndirect ≤ fbn ∧ ¬6144 < len then 1 else 0) := by
  have hCeil : (len + n + 511) / 512 = (len + 511) / 512 + if ¬fbn * bsize < len then 1 else 0 := by
    by_cases h : fbn * bsize < len
    · rw [if_neg (not_not.mpr h)]
      simp only [bsize] at h
      omega
    · rw [if_pos h]
      simp only [bsize] at h
      omega
  have hInd : (if 6144 < len + n then 1 else 0) =
      (if 6144 < len then 1 else 0) + if ndirect ≤ fbn ∧ ¬6144 < len then 1 else 0 := by
    by_cases h : 6144 < len
    · rw [if_pos (by omega), if_pos h, if_neg fun hEq => hEq.2 h]
    · by_cases hLe : ndirect ≤ fbn
      · have : 12 ≤ fbn := hLe
        rw [if_pos (by omega), if_neg h, if_pos ⟨hLe, h⟩]
      · have : ¬12 ≤ fbn := hLe
        rw [if_neg (by omega), if_neg h, if_neg fun hEq => hLe hEq.1]
  rw [blocksOf, blocksOf, hCeil, hInd, Nat.add_add_add_comm]

theorem needs_add {len n fbn q : Nat} (hFbn : len / 512 = fbn) (hn : 0 < n) (hEnd : n ≤ (fbn + 1) * 512 - len) :
    Needs (len + n) q ↔ Needs len q ∨ q = posOf fbn ∨ (ndirect ≤ fbn ∧ q = ndirect) := by
  have hSub (x : Nat) : x * bsize = x * 512 := rfl
  have hTwelve : ndirect = 12 := rfl
  rw [Needs, Needs, posOf, hSub, hSub, hSub]
  by_cases hq : q < ndirect
  · rw [if_pos hq, if_pos hq]
    split <;> omega
  · rw [if_neg hq, if_neg hq]
    by_cases hInd : q = ndirect
    · rw [if_pos hInd, if_pos hInd]
      split <;> omega
    · rw [if_neg hInd, if_neg hInd]
      split <;> omega

/-- The bytes of a block that gets a chunk where the file ends in it. -/
theorem patch_append_getD {w l : List UInt8} {buf : Block} {fbn o : Nat} (hFbn : w.length / 512 = fbn)
    (hOld : buf o = w.getD (fbn * bsize + o) 0) :
    patch buf (w.length - fbn * 512) l o = (w ++ l).getD (fbn * bsize + o) 0 := by
  simp only [bsize] at *
  by_cases hLow : w.length - fbn * 512 ≤ o
  · rw [List.getD_append_right _ _ _ _ (by omega)]
    have hSub : fbn * 512 + o - w.length = o - (w.length - fbn * 512) := by omega
    by_cases hIn : o - (w.length - fbn * 512) < l.length
    · rw [patch_of_mem hLow hIn, hSub, List.getD_eq_getElem _ _ hIn]
    · rw [patch_of_not_mem (by omega), hOld, List.getD_eq_default _ _ (by omega), List.getD_eq_default _ _ (by omega)]
  · rw [patch_of_not_mem (by omega), hOld, List.getD_append _ _ _ _ (by omega)]

theorem Appending.grows {w l : List UInt8} (h : Appending m₀ i c m din w) (hi : i < ninodes) (hBn : fbn < maxfile)
    (hFbn : w.length / 512 = fbn) (hNe : 0 < l.length) (hEnd : l.length ≤ (fbn + 1) * 512 - w.length) :
    m.freeblock + Mkfs.grows m.disk din fbn = total (lengths (Function.update c i (w ++ l))) := by
  have hGrows : Mkfs.grows m.disk din fbn =
      (if ¬fbn * bsize < w.length then 1 else 0) + if ndirect ≤ fbn ∧ ¬6144 < w.length then 1 else 0 := by
    have h1 := h.mapped (posOf fbn) (posOf_lt hBn)
    have h2 := h.mapped ndirect indirect_lt
    rw [needs_posOf] at h1
    rw [needs_ndirect, ptr_le le_rfl] at h2
    have h1' : Fs.ptr m.disk din (posOf fbn) = 0 ↔ ¬fbn * bsize < w.length := by rw [← h1, not_not]
    have h2' : din.addrs ndirect = 0 ↔ ¬6144 < w.length := by rw [← h2, not_not]
    simp only [Mkfs.grows, h1', h2']
  have hTotal := total_update (lengths (Function.update c i w)) hi (w ++ l).length
  rw [← lengths_update, Function.update_idem] at hTotal
  have hLenW : lengths (Function.update c i w) i = w.length := by rw [lengths, Function.update_self]
  rw [hLenW, List.length_append, blocksOf_add hFbn hNe hEnd] at hTotal
  have hCount := h.count
  omega

theorem Appending.turn {w l : List UInt8} {x : Nat} (h : Appending m₀ i c m din w) (hi : i < ninodes)
    (hBn : fbn < maxfile) (hFbn : w.length / 512 = fbn) (hNe : 0 < l.length)
    (hEnd : l.length ≤ (fbn + 1) * 512 - w.length) (hW : Work m₀ i m' din' (Function.update c i w))
    (hS : Sector m₀ i m din fbn m' din' x) (hIn : x < size) :
    Appending m₀ i c { m' with disk := Function.update m'.disk x (patch (m'.disk x) (w.length - fbn * 512) l) } din'
      (w ++ l) := by
  have hSelf : Function.update (dinodeOf m₀.disk) i din' i = din' := Function.update_self ..
  have hPtr : Fs.ptr m'.disk din' (posOf fbn) ≠ 0 := by
    rw [hS.ptr]
    exact hS.ne
  have hOld (o : Nat) (ho : o < bsize) : m'.disk x o = w.getD (fbn * bsize + o) 0 := by
    have hOff : fbn * bsize + o < maxfile * bsize := by
      have := Nat.mul_le_mul_right bsize hBn
      rw [Nat.succ_mul] at this
      omega
    have hDiv : (fbn * bsize + o) / bsize = fbn := by
      rw [Nat.mul_comm, Nat.mul_add_div (by decide), Nat.div_eq_of_lt ho, Nat.add_zero]
    have hMod : (fbn * bsize + o) % bsize = o := by rw [Nat.mul_comm, Nat.mul_add_mod, Nat.mod_eq_of_lt ho]
    have := hW.table.bytes i hi _ hOff
    rwa [hSelf, byteAt, hDiv, hMod, if_neg hPtr, hS.ptr, Function.update_self] at this
  have hLen : (w ++ l).length = w.length + l.length := List.length_append
  have hOut (off : Nat) (hOff : off / bsize ≠ fbn) :
      (w ++ l).getD off 0 = (Function.update c i w i).getD off 0 := by
    rw [Function.update_self]
    simp only [bsize] at hOff
    by_cases hLt : off < w.length
    · exact List.getD_append _ _ _ _ hLt
    · rw [List.getD_eq_default _ _ (by rw [hLen]; omega), List.getD_eq_default _ _ (by omega)]
  obtain ⟨hTable, hSame⟩ := hW.table.write hi hBn (by rwa [hSelf])
    (fun o ho => patch_append_getD (l := l) hFbn (hOld o ho)) hOut (by rw [hSelf, hS.ptr])
  rw [Function.update_idem] at hTable
  have hArea := hW.table_self hi (posOf_lt hBn) hPtr
  rw [hS.ptr] at hArea
  refine ⟨⟨hW.sectors, hW.used, hW.inode, fun y hy => ?_, hTable, hW.fields, hW.ok⟩, fun q hq => ?_,
    fun j hj hne q hq => ?_, ?_, ?_, ?_⟩
  · have hne : y ≠ x := by omega
    exact (Function.update_of_ne hne _ _).trans (hW.low y hy)
  · have hp := hSame i hi q
    rw [hSelf] at hp
    rw [hLen, hp, hS.mapped q hq, h.mapped q hq, needs_add hFbn hNe hEnd]
  · have hp := hSame j hj q
    rw [Function.update_of_ne hne] at hp
    rw [hp, hS.others j hj hne q hq, h.others j hj hne q hq]
  · have hOldGrows := h.grows hi hBn hFbn hNe hEnd
    have hNewCount := hS.count
    change m'.freeblock = _
    omega
  · have := hS.last
    change m'.freeblock ≤ size
    omega
  · rw [hLen]
    simp only [bsize, maxfile, ndirect, nindirect_eq] at *
    omega

theorem wp_iappendFrom (hi : i < ninodes) (fuel : Nat) {w p : List UInt8} (h : Appending m₀ i c m din w)
    (hFuel : p.length ≤ fuel)
    (hRoom : E ∨ w.length + p.length ≤ maxfile * bsize ∧ total (lengths (Function.update c i (w ++ p))) ≤ size)
    {Q : Dinode × Nat → Mk → Prop}
    (hQ : ∀ m' din', Appending m₀ i c m' din' (w ++ p) → Q (din', (w ++ p).length) m') :
    wp (rely E) (iappendFrom fuel din w.length p) Q m := by
  induction fuel generalizing m din w p with
  | zero =>
    obtain rfl := List.length_eq_zero_iff.mp (Nat.le_zero.mp hFuel)
    rw [List.append_nil] at hQ
    exact hQ m din h
  | succ fuel ih =>
    rw [iappendFrom]
    by_cases hNil : p = []
    · subst hNil
      rw [List.append_nil] at hQ
      rw [if_pos rfl, wp_pure]
      exact hQ m din h
    rw [if_neg hNil]
    have hPos : 0 < p.length := List.length_pos_of_ne_nil hNil
    dsimp only
    rw [wp_bind]
    refine wp_assert (fun hOut => hRoom.resolve_right fun hFits => hOut ?_) fun hBn => ?_
    · refine Nat.div_lt_of_lt_mul ?_
      have : maxfile * bsize = 512 * maxfile := Nat.mul_comm _ _
      omega
    have hLeOff : w.length / 512 * 512 ≤ w.length := Nat.div_mul_le_self _ _
    have hGtOff : w.length < (w.length / 512 + 1) * 512 := by omega
    set n := min p.length ((w.length / 512 + 1) * 512 - w.length) with hn
    have hTake : (p.take n).length = n := List.length_take_of_le (by omega)
    have hSplit : w ++ p = (w ++ p.take n) ++ p.drop n := by rw [List.append_assoc, List.take_append_drop]
    have hRoomTurn : E ∨ m.freeblock + grows m.disk din (w.length / 512) ≤ size := by
      refine hRoom.imp_right fun hFits => ?_
      have hGrows := h.grows hi hBn rfl (l := p.take n) (by omega) (by omega)
      rw [hGrows]
      refine le_trans (total_mono fun j => ?_) hFits.2
      rw [lengths_update, lengths_update, hSplit]
      rcases eq_or_ne j i with rfl | hne
      · have hLen : (w ++ p.take n).length ≤ (w ++ p.take n ++ p.drop n).length :=
          (List.prefix_append _ _).length_le
        rw [Function.update_self, Function.update_self]
        exact hLen
      · rw [Function.update_of_ne hne, Function.update_of_ne hne]
    rw [wp_bind]
    apply wp_sectorOf h.toWork hi hBn h.small hRoomTurn
    intro m' din' x hW hS
    dsimp only
    rw [wp_bind]
    have hArea := hW.table_self hi (posOf_lt hBn) (by rw [hS.ptr]; exact hS.ne)
    rw [hS.ptr] at hArea
    apply wp_rsect
    · intro hOut
      refine hRoomTurn.resolve_right fun hFits => hOut ?_
      rw [hW.sectors]
      have := hS.count
      omega
    intro hIn
    rw [wp_bind]
    apply wp_wsect hIn
    rw [hW.sectors] at hIn
    have hTurn := h.turn (l := p.take n) hi hBn rfl (by omega) (by omega) hW hS hIn
    have hLen : w.length + n = (w ++ p.take n).length := by rw [List.length_append, hTake]
    rw [hLen]
    refine ih hTurn (by rw [List.length_drop]; omega) ?_ fun m₂ din₂ h₂ => ?_
    · rw [← hSplit, ← hLen, List.length_drop]
      exact hRoom.imp_right fun hFits => ⟨by omega, hFits.2⟩
    · rw [← hSplit] at h₂ ⊢
      exact hQ m₂ din₂ h₂

end Turn

end Xv6Rpi.Mkfs
