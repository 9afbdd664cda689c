import Xv6Rpi.Mkfs.Contents

/-! # When the image is consistent

`mkfs` does not compare the inode numbers with `ninodes` and the blocks with the start of the
log, and it rounds the size of the root directory up by a whole block where it is a multiple
of the block size.
-/

namespace Xv6Rpi.Mkfs

open Fs Prog

/-! ## The end of `main` -/

def fixedRoot (d : Disk) : Dinode :=
  { dinodeOf d rootino with size := ((dinodeOf d rootino).size / bsize + 1) * bsize }

def finish (m : Mk) : Mk :=
  { m with disk := Function.update (putDi m.disk rootino (fixedRoot m.disk)) (ninodes / ipb + 3) (usedBits m.usedblocks) }

def formatted : Mk := ⟨Function.update (fun _ => zeroBlock) 1 superBlock, size, 1, metablocks, metablocks⟩

section Main

variable {E : Prop} {m : Mk} {files : List HostFile}

theorem wp_wipe {n : Nat} {Q : Unit → Mk → Prop} (hZero : m.disk = fun _ => zeroBlock)
    (h : Q () { m with sectors := max m.sectors n }) : wp (rely E) (wipe n) Q m := by
  induction n generalizing Q with
  | zero =>
    rw [Nat.max_zero] at h
    exact h
  | succ n ih =>
    rw [wipe, wp_bind]
    apply ih
    rw [wsect]
    apply wp_act
    have hSame : Function.update m.disk n zeroBlock = m.disk := by
      rw [hZero, Function.update_eq_self_iff]
    have hMax : max (max m.sectors n) (n + 1) = max m.sectors (n + 1) := by omega
    dsimp only
    rw [hSame, hMax]
    exact h

theorem getInt_zero (off w : Nat) : getInt zeroBlock off w = 0 := by
  induction w generalizing off with
  | zero => rfl
  | succ w ih =>
    rw [getInt, ih]
    rfl

theorem decodeDinode_zero (k : Nat) : decodeDinode zeroBlock k = .zero := by
  apply Dinode.ext_fields
  · exact getInt_zero _ 2
  · exact getInt_zero _ 2
  · exact getInt_zero _ 2
  · exact getInt_zero _ 2
  · exact getInt_zero _ 4
  · funext i
    simp only [decodeDinode, getWord, getInt_zero, ite_self]
    rfl

theorem made_formatted : Made formatted fun _ => [] := by
  have hDisk : formatted.disk = Function.update (fun _ => zeroBlock) 1 superBlock := rfl
  have hDi (i : Nat) : dinodeOf formatted.disk i = .zero := by
    have hne : iblock i ≠ 1 := by
      have := iblock_ge i
      omega
    rw [dinodeOf, hDisk, Function.update_of_ne hne]
    exact decodeDinode_zero _
  have hPtr (i p : Nat) : ptr formatted.disk (dinodeOf formatted.disk i) p = 0 := by
    rw [hDi, ptr]
    split <;> rfl
  refine ⟨rfl, rfl, by rw [hDisk, Function.update_self], ⟨le_rfl, ?_, ?_, ?_, ?_, ?_⟩, ?_, ?_, fun i _ _ => ⟨hDi i, rfl⟩, total_empty.symm,
    by decide, fun _ _ => Nat.zero_le _⟩
  · intro i _ j _ p _ q _ _ hNz
    exact absurd (hPtr i p) hNz
  · intro i _ p _ hNz
    exact absurd (hPtr i p) hNz
  · intro b hLow hHigh
    exact absurd hLow (Nat.not_le.mpr hHigh)
  · intro i _ off _
    rw [byteAt, hPtr, if_pos rfl, List.getD_nil]
  · intro b hb
    have hne : b ≠ 1 := by
      change 29 ≤ b at hb
      omega
    rw [hDisk, Function.update_of_ne hne]
  · intro i _ p _
    exact iff_of_false (not_not.mpr (hPtr i p)) (not_needs_zero p)
  · intro i _ hLow hHigh
    change i < 1 at hHigh
    omega

theorem wp_main (hInodes : files.length + 2 ≤ ninodes)
    (hRoom : E ∨ (∀ f ∈ files, slash ∉ f.arg) ∧ Room (contentsOf files)) {Q : Unit → Mk → Prop}
    (hQ : ∀ m, Made m (contentsOf files) → m.freeinode = files.length + 2 → (∀ f ∈ files, slash ∉ f.arg) →
      Q () (finish m)) :
    wp (rely E) (main files) Q ⟨fun _ => zeroBlock, 0, 1, metablocks, metablocks⟩ := by
  have hSize : nblocks + metablocks + nlog = size := by decide
  rw [main]
  generalize nblocks + metablocks + nlog = n at hSize
  rw [wp_bind]
  refine wp_assert (fun hNot => absurd hSize hNot) fun _ => ?_
  rw [wp_bind]
  refine wp_wipe rfl ?_
  rw [wp_bind]
  refine wp_wsect (by rw [hSize]; decide) ?_
  rw [hSize]
  rw [wp_bind]
  change wp (rely E) (ialloc (typeOf formatted.freeinode)) _ formatted
  refine wp_ialloc made_formatted (by decide) le_rfl fun m₁ h₁ hNext => ?_
  have hRootino : formatted.freeinode = rootino := rfl
  rw [hRootino] at hNext ⊢
  rw [wp_bind]
  refine wp_assert (fun hNot => absurd rfl hNot) fun _ => ?_
  have hRoot : rootino < m₁.freeinode := by
    rw [hNext]
    exact Nat.lt_succ_self 1
  have hDots : Function.update (Function.update (fun _ => []) rootino (encodeDirent rootino dot)) rootino
      (Function.update (fun _ => []) rootino (encodeDirent rootino dot) rootino ++ encodeDirent rootino dotdot) =
        Function.update (fun _ => []) rootino dots := by
    rw [Function.update_idem, Function.update_self, dots]
  have hRoom₂ : E ∨ Room (Function.update (fun _ => []) rootino dots) :=
    hRoom.imp_right fun hr => hr.2.mono (lengths_added_le _ 2 files)
  rw [← hDots] at hRoom₂
  rw [wp_bind]
  refine wp_iappend (i := rootino) h₁ (by decide) le_rfl hRoot (hRoom₂.imp_right fun hr => ?_) fun m₂ h₂ hSame₂ => ?_
  · exact (hr.mono (lengths_append_le _ rootino _)).append (by decide)
  rw [wp_bind]
  refine wp_iappend (i := rootino) h₂ (by decide) le_rfl (by rw [hSame₂]; exact hRoot) (hRoom₂.imp_right fun hr => hr.append (by decide))
    fun m₃ h₃ hSame₃ => ?_
  rw [List.nil_append, hDots] at h₃
  have hFree : m₃.freeinode = 2 := by rw [hSame₃, hSame₂, hNext]; rfl
  rw [wp_bind]
  refine wp_addFiles h₃ hFree.ge (by omega) (by rw [hFree]; exact hRoom) fun m₄ h₄ hLast hSlash => ?_
  rw [hFree] at h₄ hLast
  rw [wp_bind]
  apply wp_rinode h₄.sectors (by decide)
  rw [wp_bind]
  apply wp_winode h₄.sectors (by decide)
  rw [wp_bind]
  apply wp_act
  dsimp only
  have hUsed : m₄.usedblocks < 512 * 8 := by
    rw [h₄.used]
    exact h₄.small.trans_lt (by decide)
  rw [balloc, wp_bind]
  refine wp_assert ?_ ?_
  · exact fun hNot => absurd hUsed hNot
  intro _
  apply wp_wsect (by rw [h₄.sectors]; decide)
  exact hQ m₄ h₄ (by rw [hLast, Nat.add_comm]) hSlash

end Main

/-! ## The final image -/

section Finish

variable {m : Mk} {c : Nat → List UInt8} {i : Nat}

theorem finish_disk (m : Mk) : (finish m).disk =
    Function.update (putDi m.disk rootino (fixedRoot m.disk)) (ninodes / ipb + 3) (usedBits m.usedblocks) := rfl

theorem finish_high (m : Mk) {x : Nat} (hx : metablocks ≤ x) : (finish m).disk x = m.disk x := by
  have hne : x ≠ ninodes / ipb + 3 := by
    have : ninodes / ipb + 3 < metablocks := by decide
    omega
  rw [finish_disk, Function.update_of_ne hne]
  exact putDi_high (by decide) hx

theorem Made.finish_one (h : Made m c) : (finish m).disk 1 = superBlock := by
  rw [finish_disk, Function.update_of_ne (by decide)]
  exact (putDi_one _ _ _).trans h.super

theorem fixedRoot_ok (h : Made m c) : (fixedRoot m.disk).Ok := by
  refine (dinodeOf_ok m.disk rootino).setSize ?_
  have hLen : (dinodeOf m.disk rootino).size ≤ maxfile * bsize := by
    by_cases hFree : rootino < m.freeinode
    · rw [h.files rootino (by decide) le_rfl hFree]
      exact h.fits rootino (by decide)
    · rw [(h.free rootino (by decide) (.inr (Nat.le_of_not_lt hFree))).1]
      exact Nat.zero_le _
  have hDiv := Nat.div_mul_le_self (dinodeOf m.disk rootino).size bsize
  have hMax : maxfile * bsize + bsize < 2 ^ 32 := by decide
  rw [Nat.add_mul, Nat.one_mul]
  omega

theorem Made.finish_inode (h : Made m c) (hi : i < ninodes) :
    dinodeOf (finish m).disk i = if i = rootino then fixedRoot m.disk else dinodeOf m.disk i := by
  have hTable : i < sb.ninodes := hi
  exact (dinodeOf_update hTable le_rfl).trans (dinodeOf_encode (fixedRoot_ok h))

theorem Made.finish_addrs (h : Made m c) (hi : i < ninodes) :
    (dinodeOf (finish m).disk i).addrs = (dinodeOf m.disk i).addrs := by
  rw [h.finish_inode hi]
  split
  · next hEq =>
    rw [hEq]
    rfl
  · rfl

theorem Made.finish_ptr (h : Made m c) (hi : i < ninodes) (p : Nat) :
    ptr (finish m).disk (dinodeOf (finish m).disk i) p = ptr m.disk (dinodeOf m.disk i) p :=
  h.table.ptr_high hi (fun _ hx => finish_high m hx) (h.finish_addrs hi) p

theorem getBit_usedBits (n b : Nat) : getBit (usedBits n) b = decide (b < n) := by
  induction n with
  | zero =>
    rw [getBit_eq]
    simp [usedBits, zeroBlock]
  | succ n ih =>
    rw [usedBits, List.range_succ, List.foldl_append, List.foldl_cons, List.foldl_nil, getBit_setBit, ← usedBits, ih]
    rw [Bool.eq_iff_iff]
    simp only [Bool.or_eq_true, decide_eq_true_eq]
    omega

theorem finish_bit (m : Mk) {b : Nat} (hb : b < size) : bit sb (finish m).disk b = decide (b < m.usedblocks) := by
  have hBpb : b < bpb := hb.trans (by decide)
  have hBlk : bblock b sb.ninodes = ninodes / ipb + 3 := by
    rw [bblock, Nat.div_eq_of_lt hBpb, Nat.zero_add]
    rfl
  rw [bit, hBlk, finish_disk, Function.update_self, Nat.mod_eq_of_lt hBpb, getBit_usedBits]

end Finish

/-! ## The inode numbers -/

/-- Whatever happens, `x` gives out `n` inode numbers. -/
def Counts {α : Type} (x : MkM α) (n : Nat) : Prop :=
  ∀ m, wp (rely True) x (fun _ m' => m'.freeinode = m.freeinode + n) m

section Counts

variable {α β : Type} {x : MkM α} {g : α → MkM β} {n k : Nat}

theorem Counts.bind (hx : Counts x n) (hg : ∀ a, Counts (g a) k) : Counts (x >>= g) (n + k) := by
  intro m
  rw [wp_bind]
  refine wp_mono (hx m) fun a m' hm' => wp_mono (hg a m') fun _ m₂ hm₂ => ?_
  rw [hm₂, hm', Nat.add_assoc]

theorem Counts.then (hx : Counts x 0) (hg : ∀ a, Counts (g a) k) : Counts (x >>= g) k := by
  have := hx.bind hg
  rwa [Nat.zero_add] at this

theorem Counts.run {m m' : Mk} {a : α} (hx : Counts x n) (hRun : x.run m = .ok (a, m')) :
    m'.freeinode = m.freeinode + n :=
  post_of_run (hx m) hRun

theorem counts_pure (a : α) : Counts (Pure.pure a) 0 := fun _ => rfl

theorem counts_act {f : Mk → Except Unit (α × Mk)} (h : ∀ m a m', f m = .ok (a, m') → m'.freeinode = m.freeinode) :
    Counts (act f) 0 := by
  intro m
  apply wp_act
  split
  · trivial
  · next a m' hf => exact h m a m' hf

theorem counts_rsect (sec : Nat) : Counts (rsect sec) 0 :=
  counts_act fun m a m' hf => by
    split at hf
    · obtain ⟨-, rfl⟩ := Prod.mk.inj (Except.ok.inj hf)
      rfl
    · cases hf

theorem counts_wsect (sec : Nat) (buf : Block) : Counts (wsect sec buf) 0 :=
  counts_act fun m a m' hf => by
    obtain ⟨-, rfl⟩ := Prod.mk.inj (Except.ok.inj hf)
    rfl

theorem counts_assert (c : Prop) {_ : Decidable c} : Counts (assert c) 0 :=
  counts_act fun m a m' hf => by
    split at hf
    · obtain ⟨-, rfl⟩ := Prod.mk.inj (Except.ok.inj hf)
      rfl
    · cases hf

theorem counts_takeBlock : Counts takeBlock 0 :=
  counts_act fun m a m' hf => by
    obtain ⟨-, rfl⟩ := Prod.mk.inj (Except.ok.inj hf)
    rfl

theorem counts_winode (i : Nat) (di : Dinode) : Counts (winode i di) 0 :=
  (counts_rsect _).then fun _ => counts_wsect _ _

theorem counts_rinode (i : Nat) : Counts (rinode i) 0 := (counts_rsect _).then fun _ => counts_pure _

theorem counts_ialloc (type : Nat) : Counts (ialloc type) 1 := by
  have hTake : Counts (act fun m => .ok (m.freeinode, { m with freeinode := m.freeinode + 1 })) 1 := fun _ => wp_act rfl
  exact hTake.bind fun _ => (counts_winode _ _).then fun _ => counts_pure _

theorem counts_addrOf (din : Dinode) (k : Nat) : Counts (addrOf din k) 0 := by
  rw [addrOf]
  split
  · exact counts_takeBlock.then fun _ => counts_pure _
  · exact counts_pure _

theorem counts_sectorOf (din : Dinode) (fbn : Nat) : Counts (sectorOf din fbn) 0 := by
  rw [sectorOf]
  split
  · exact (counts_addrOf _ _).then fun _ => counts_pure _
  · refine (counts_addrOf _ _).then fun _ => (counts_rsect _).then fun _ => ?_
    split
    · exact counts_takeBlock.then fun _ => (counts_wsect _ _).then fun _ => counts_pure _
    · exact counts_pure _

theorem counts_iappendFrom (fuel : Nat) (din : Dinode) (off : Nat) (p : List UInt8) :
    Counts (iappendFrom fuel din off p) 0 := by
  induction fuel generalizing din off p with
  | zero => exact counts_pure _
  | succ fuel ih =>
    rw [iappendFrom]
    split
    · exact counts_pure _
    · exact (counts_assert _).then fun _ => (counts_sectorOf _ _).then fun _ => (counts_rsect _).then fun _ =>
        (counts_wsect _ _).then fun _ => ih _ _ _

theorem counts_iappend (i : Nat) (p : List UInt8) : Counts (iappend i p) 0 :=
  (counts_rinode i).then fun _ => (counts_iappendFrom _ _ _ _).then fun _ => counts_winode _ _

theorem counts_iappendAll (i : Nat) (chunks : List (List UInt8)) : Counts (iappendAll i chunks) 0 := by
  induction chunks with
  | nil => exact counts_pure _
  | cons l chunks ih => exact (counts_iappend i l).then fun _ => ih

theorem counts_addFiles (root : Nat) (files : List HostFile) : Counts (addFiles root files) files.length := by
  induction files with
  | nil => exact counts_pure _
  | cons f fs ih =>
    rw [List.length_cons, Nat.add_comm]
    exact (counts_assert _).then fun _ => (counts_ialloc _).bind fun _ => (counts_iappend _ _).then fun _ =>
      (counts_iappendAll _ _).then fun _ => ih

theorem counts_wipe (n : Nat) : Counts (wipe n) 0 := by
  induction n with
  | zero => exact counts_pure _
  | succ n ih => exact ih.then fun _ => counts_wsect _ _

theorem counts_main (files : List HostFile) : Counts (main files) (1 + files.length) := by
  have hUsed : Counts (act fun m => .ok (m.usedblocks, m)) 0 := fun _ => wp_act rfl
  have hEnd (root : Nat) : Counts (do
      let din ← rinode root
      winode root { din with size := (din.size / bsize + 1) * bsize }
      let used ← act fun m => .ok (m.usedblocks, m)
      balloc used) 0 :=
    (counts_rinode root).then fun _ => (counts_winode _ _).then fun _ => hUsed.then fun _ =>
      (counts_assert _).then fun _ => counts_wsect _ _
  rw [main]
  generalize nblocks + metablocks + nlog = n
  exact (counts_assert _).then fun _ => (counts_wipe n).then fun _ => (counts_wsect _ _).then fun _ =>
    (counts_ialloc _).bind fun _ => (counts_assert _).then fun _ => (counts_iappend _ _).then fun _ =>
      (counts_iappend _ _).then fun _ => (counts_addFiles _ files).bind fun root => hEnd _

end Counts

/-! ## Consistency -/

structure Consistent (m : Mk) : Prop where
  inums : ∀ i, 1 ≤ i → i < m.freeinode → i < sb.ninodes
  area : ∀ r, ValidRef sb r → ptrOf m.disk (dinodeOf m.disk) r ≠ 0 →
    InData sb (ptrOf m.disk (dinodeOf m.disk) r) ∧ bit sb m.disk (ptrOf m.disk (dinodeOf m.disk) r) = true
  once : ∀ r r', ValidRef sb r → ValidRef sb r' →
    ptrOf m.disk (dinodeOf m.disk) r = ptrOf m.disk (dinodeOf m.disk) r' →
    ptrOf m.disk (dinodeOf m.disk) r ≠ 0 → r = r'
  full : ∀ i < sb.ninodes, (dinodeOf m.disk i).type ≠ 0 → NoHoles m.disk (dinodeOf m.disk i)

/-- There are inodes and blocks for the files, and the entries do not fill the last block of
the root directory. -/
structure Fits (files : List HostFile) : Prop where
  inodes : files.length + 2 ≤ ninodes
  blocks : blocksNeeded files ≤ nblocks
  entries : (files.length + 2) % (bsize / direntSz) ≠ 0

/-! ## When an image is consistent -/

section Image

variable {m : Mk} {c : Nat → List UInt8} {i : Nat} {files : List HostFile}

theorem typeOf_ne (i : Nat) : typeOf i ≠ 0 := by
  rw [typeOf]
  split <;> decide

theorem Made.finish_type (h : Made m c) (hi : i < ninodes) :
    (dinodeOf (finish m).disk i).type = (dinodeOf m.disk i).type := by
  rw [h.finish_inode hi]
  split
  · next hEq =>
    rw [hEq]
    rfl
  · rfl

theorem Made.used_of_type (h : Made m c) (hi : i < ninodes) (hType : (dinodeOf m.disk i).type ≠ 0) :
    1 ≤ i ∧ i < m.freeinode := by
  by_contra hNot
  rw [(h.free i hi (by omega)).1] at hType
  exact hType rfl

theorem Made.type (h : Made m c) (hi : i < ninodes) (hLow : 1 ≤ i) (hUsed : i < m.freeinode) :
    (dinodeOf m.disk i).type = typeOf i := by
  rw [h.files i hi hLow hUsed, fileDi]

theorem Made.finish_ptrOf (h : Made m c) {r : Nat × Nat} (hr : ValidRef sb r) :
    ptrOf (finish m).disk (dinodeOf (finish m).disk) r = ptr m.disk (dinodeOf m.disk r.1) r.2 := by
  have hi : r.1 < ninodes := hr.1
  rw [ptrOf, h.finish_type hi, h.finish_ptr hi]
  split
  · next hz =>
    have hFree : r.1 = 0 ∨ m.freeinode ≤ r.1 := by
      by_contra hNot
      rw [h.type hi (by omega) (by omega)] at hz
      exact typeOf_ne _ hz
    have hEmpty := h.mapped r.1 hi r.2 hr.2
    rw [(h.free r.1 hi hFree).2] at hEmpty
    exact (not_not.mp (hEmpty.not.mpr (not_needs_zero _))).symm
  · rfl

/-- The blocks below the size of an inode are there as far as its contents go. -/
theorem Made.noHoles_iff (h : Made m c) (hi : i < ninodes)
    (hMax : (dinodeOf (finish m).disk i).size ≤ maxfile * bsize) :
    NoHoles (finish m).disk (dinodeOf (finish m).disk i) ↔
      ∀ bn, bn * bsize < (dinodeOf (finish m).disk i).size → bn * bsize < (c i).length := by
  have hPtr (bn : Nat) (hBn : bn * bsize < (dinodeOf (finish m).disk i).size) :
      ptr (finish m).disk (dinodeOf (finish m).disk i) (posOf bn) ≠ 0 ↔ bn * bsize < (c i).length := by
    have hLt : bn < maxfile := Nat.lt_of_mul_lt_mul_right (hBn.trans_le hMax)
    rw [h.finish_ptr hi, h.mapped i hi _ (posOf_lt hLt), needs_posOf]
  constructor
  · exact fun hFull bn hBn => (hPtr bn hBn).mp (hFull.ptr bn hBn)
  · exact fun hAll => ⟨hMax, fun bn hBn => (hPtr bn hBn).mpr (hAll bn hBn)⟩

theorem Made.finish_size (h : Made m c) (hi : i < ninodes) (hLow : 1 ≤ i) (hUsed : i < m.freeinode) :
    (dinodeOf (finish m).disk i).size = if i = rootino then ((c i).length / bsize + 1) * bsize else (c i).length := by
  have hSize : (dinodeOf m.disk i).size = (c i).length := by
    rw [h.files i hi hLow hUsed]
    rfl
  rw [h.finish_inode hi]
  split
  · next hEq =>
    rw [← hSize, hEq]
    rfl
  · exact hSize

/-- Rounding up the size of the root directory does no harm if its last block is not full. -/
theorem rounded_iff (len : Nat) :
    (∀ bn, bn * bsize < (len / bsize + 1) * bsize → bn * bsize < len) ↔ len % bsize ≠ 0 := by
  have hDiv := Nat.div_add_mod len bsize
  have hPos : 0 < bsize := by decide
  rw [Nat.mul_comm] at hDiv
  constructor
  · intro hAll hMod
    have := hAll (len / bsize) (Nat.mul_lt_mul_of_pos_right (Nat.lt_succ_self _) hPos)
    omega
  · intro hMod bn hBn
    have hLe : bn ≤ len / bsize := Nat.le_of_lt_succ (Nat.lt_of_mul_lt_mul_right hBn)
    have := Nat.mul_le_mul_right bsize hLe
    omega

theorem entries_iff (n : Nat) : (direntSz * n) % bsize ≠ 0 ↔ n % (bsize / direntSz) ≠ 0 := by
  have hMul : bsize = direntSz * (bsize / direntSz) := rfl
  have hPos : direntSz ≠ 0 := by decide
  conv_lhs => rw [hMul, Nat.mul_mod_mul_left, Ne, Nat.mul_eq_zero, or_iff_right hPos]

theorem finish_bit_lt {b : Nat} (h : Made m c) (hb : b < m.freeblock) : bit sb (finish m).disk b = true := by
  rw [finish_bit m (hb.trans_le h.small), decide_eq_true_iff, h.used]
  exact hb

theorem Made.consistent_iff (h : Made m (contentsOf files)) (hFree : m.freeinode = files.length + 2)
    (hInodes : files.length + 2 ≤ ninodes) : Consistent (finish m) ↔ Fits files := by
  have hCount : m.freeblock = metablocks + blocksNeeded files := h.count.trans (total_contentsOf hInodes)
  have hRootino : rootino < m.freeinode := by
    have : rootino = 1 := rfl
    omega
  have hRootSize := h.finish_size (show rootino < ninodes by decide) le_rfl hRootino
  rw [if_pos rfl, length_contentsOf_root] at hRootSize
  have hRootMax : (dinodeOf (finish m).disk rootino).size ≤ maxfile * bsize := by
    have hDirent : direntSz = 16 := rfl
    have hSectors : bsize = 512 := rfl
    have hBlocks : maxfile = 140 := rfl
    have hNumber : ninodes = 200 := rfl
    rw [hRootSize, hDirent, hSectors, hBlocks]
    omega
  have hRoot : NoHoles (finish m).disk (dinodeOf (finish m).disk rootino) ↔
      (files.length + 2) % (bsize / direntSz) ≠ 0 := by
    rw [h.noHoles_iff (by decide) hRootMax, hRootSize, length_contentsOf_root, rounded_iff, entries_iff]
  have hEnd : metablocks + nblocks = sb.size - sb.nlog := rfl
  have hStart : dataStart sb = metablocks := rfl
  constructor
  · intro hC
    refine ⟨hInodes, ?_, hRoot.mp (hC.full rootino (by decide) ?_)⟩
    · -- the first block of the log would be in a file
      by_contra hMany
      obtain ⟨i, hi, p, hp, hEq⟩ := h.table.onto (metablocks + nblocks) (Nat.le_add_right _ _) (by omega)
      have hRef : ValidRef sb (i, p) := ⟨hi, hp⟩
      have hPtr := h.finish_ptrOf hRef
      rw [hEq] at hPtr
      have hNz : ptrOf (finish m).disk (dinodeOf (finish m).disk) (i, p) ≠ 0 := by
        rw [hPtr]
        decide
      have hData := (hC.area _ hRef hNz).1.2
      rw [hPtr, hEnd] at hData
      exact Nat.lt_irrefl _ hData
    · rw [h.finish_type (by decide), h.type (i := rootino) (by decide) le_rfl hRootino]
      exact typeOf_ne _
  · intro hF
    refine ⟨fun i _ hi => ?_, fun r hr hNz => ?_, fun r r' hr hr' hEq hNz => ?_, fun i hi hType => ?_⟩
    · change i < m.freeinode at hi
      change i < ninodes
      omega
    · rw [h.finish_ptrOf hr] at hNz ⊢
      obtain ⟨hLow, hHigh⟩ := h.table.area r.1 hr.1 r.2 hr.2 hNz
      refine ⟨⟨hStart.trans_le hLow, ?_⟩, finish_bit_lt h hHigh⟩
      have := hF.blocks
      rw [← hEnd]
      omega
    · rw [h.finish_ptrOf hr] at hEq hNz
      rw [h.finish_ptrOf hr'] at hEq
      obtain ⟨h1, h2⟩ := h.table.inj r.1 hr.1 r'.1 hr'.1 r.2 hr.2 r'.2 hr'.2 hEq hNz
      exact Prod.ext h1 h2
    · have hIn : i < ninodes := hi
      rw [h.finish_type hIn] at hType
      obtain ⟨hLow, hUsed⟩ := h.used_of_type hIn hType
      rcases eq_or_ne i rootino with rfl | hne
      · exact hRoot.mpr hF.entries
      · have hSize := h.finish_size hIn hLow hUsed
        rw [if_neg hne] at hSize
        refine (h.noHoles_iff hIn (hSize.trans_le (h.fits i hIn))).mpr fun bn hBn => ?_
        rwa [hSize] at hBn

end Image

/-! ## What mkfs writes -/

section Mkfs

attribute [local irreducible] main

variable {m : Mk} {files : List HostFile}

theorem mkfs_freeinode (h : mkfs files = .ok ((), m)) : m.freeinode = files.length + 2 := by
  rw [mkfs] at h
  rw [(counts_main files).run h, ← Nat.add_assoc, Nat.add_comm]

theorem mkfs_made (h : mkfs files = .ok ((), m)) (hInodes : files.length + 2 ≤ ninodes) :
    ∃ m₀, m = finish m₀ ∧ Made m₀ (contentsOf files) ∧ m₀.freeinode = files.length + 2 ∧ ∀ f ∈ files, slash ∉ f.arg := by
  have hMain : wp (rely True) (main files)
      (fun _ m => ∃ m₀, m = finish m₀ ∧ Made m₀ (contentsOf files) ∧ m₀.freeinode = files.length + 2 ∧
        ∀ f ∈ files, slash ∉ f.arg)
      ⟨fun _ => zeroBlock, 0, 1, metablocks, metablocks⟩ :=
    wp_main hInodes (.inl trivial) fun m₀ h₀ hFree hSlash => ⟨m₀, rfl, h₀, hFree, hSlash⟩
  rw [mkfs] at h
  exact post_of_run hMain h

theorem mkfs_ok (hInodes : files.length + 2 ≤ ninodes) (hSlash : ∀ f ∈ files, slash ∉ f.arg)
    (hLen : ∀ f ∈ files, f.contents.length ≤ maxfile * bsize) (hBlocks : metablocks + blocksNeeded files ≤ size) :
    ∃ m, mkfs files = .ok ((), m) := by
  have hMain : wp (rely False) (main files) (fun _ _ => True) ⟨fun _ => zeroBlock, 0, 1, metablocks, metablocks⟩ :=
    wp_main hInodes (.inr ⟨hSlash, room_contentsOf hInodes hLen hBlocks⟩) fun _ _ _ _ => trivial
  obtain ⟨_, m, hRun, -⟩ := run_of_wp hMain
  exact ⟨m, hRun⟩

/-- If mkfs does not exit, the image is consistent if and only if the files fit. -/
theorem mkfs_consistent_iff (files : List HostFile) (m : Mk) (h : mkfs files = .ok ((), m)) :
    Consistent m ↔ Fits files := by
  by_cases hInodes : files.length + 2 ≤ ninodes
  · obtain ⟨m₀, rfl, h₀, hFree, -⟩ := mkfs_made h hInodes
    exact h₀.consistent_iff hFree hInodes
  · refine iff_of_false (fun hC => ?_) fun hF => hInodes hF.inodes
    have hFree := mkfs_freeinode h
    have hLast := hC.inums (files.length + 1) (by omega) (by omega)
    change files.length + 1 < ninodes at hLast
    omega

/-- A file named `hi` with two bytes. -/
def greeting : HostFile := ⟨[104, 105], [[104, 105]], by decide, by decide⟩

theorem mkfs_consistent_greeting : ∃ m, mkfs [greeting] = .ok ((), m) ∧ Consistent m := by
  obtain ⟨m, h⟩ : ∃ m, mkfs [greeting] = .ok ((), m) := mkfs_ok (by decide) (by decide) (by decide) (by decide)
  exact ⟨m, h, (mkfs_consistent_iff [greeting] m h).mpr ⟨by decide, by decide, by decide⟩⟩

/-- Thirty empty files, whose entries fill the block of the root directory together with `.`
and `..`. -/
def thirtyFiles : List HostFile :=
  (List.finRange 30).map fun k : Fin 30 => ⟨[65 + UInt8.ofNat k.val], [], by revert k; decide, sizes_nil⟩

theorem mkfs_full_root : ∃ m, mkfs thirtyFiles = .ok ((), m) ∧ ¬Consistent m := by
  obtain ⟨m, h⟩ : ∃ m, mkfs thirtyFiles = .ok ((), m) := mkfs_ok (by decide) (by decide) (by decide) (by decide)
  obtain ⟨m₀, rfl, h₀, hFree, -⟩ := mkfs_made h (by decide)
  exact ⟨_, h, fun hC => ((h₀.consistent_iff hFree (by decide)).mp hC).entries (by decide)⟩

end Mkfs

end Xv6Rpi.Mkfs
