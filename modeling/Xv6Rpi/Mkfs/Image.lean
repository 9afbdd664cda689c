import Xv6Rpi.Mkfs.Append

/-! # The image that mkfs builds

Between two calls of `iappend` the inodes on disk are those of the files written so far. Each
call of `ialloc` and `iappend` keeps this as long as the inode numbers are below `ninodes`.
-/

namespace Xv6Rpi.Mkfs

open Fs Prog

def typeOf (i : Nat) : Nat := if i = rootino then tDir else tFile

def fileDi (i len : Nat) (addrs : Nat → Nat) : Dinode := ⟨typeOf i, 0, 0, 1, len, addrs⟩

structure Made (m : Mk) (c : Nat → List UInt8) : Prop where
  sectors : m.sectors = size
  used : m.usedblocks = m.freeblock
  super : m.disk 1 = superBlock
  table : Table m.disk (dinodeOf m.disk) c m.freeblock
  mapped : ∀ i < ninodes, ∀ p < npos, ptr m.disk (dinodeOf m.disk i) p ≠ 0 ↔ Needs (c i).length p
  files : ∀ i < ninodes, 1 ≤ i → i < m.freeinode →
    dinodeOf m.disk i = fileDi i (c i).length (dinodeOf m.disk i).addrs
  free : ∀ i < ninodes, i = 0 ∨ m.freeinode ≤ i → dinodeOf m.disk i = .zero ∧ c i = []
  count : m.freeblock = total (lengths c)
  small : m.freeblock ≤ size
  fits : ∀ i < ninodes, (c i).length ≤ maxfile * bsize

section Inodes

variable {E : Prop} {m : Mk} {i : Nat} {c : Nat → List UInt8}

theorem iblock_lt_meta (hi : i < ninodes) : iblock i < metablocks := by
  simp only [iblock, ipb_eq, metablocks_eq, ninodes] at *
  omega

theorem iblock_lt_size (hi : i < ninodes) : iblock i < size := (iblock_lt_meta hi).trans (by decide)

theorem dinodeOf_low {d d' : Disk} (h : ∀ x < metablocks, d' x = d x) (hi : i < ninodes) :
    dinodeOf d' i = dinodeOf d i := by
  rw [dinodeOf, dinodeOf, h _ (iblock_lt_meta hi)]

theorem wp_rinode (hSectors : m.sectors = size) (hi : i < ninodes) {Q : Dinode → Mk → Prop}
    (h : Q (dinodeOf m.disk i) m) : wp (rely E) (rinode i) Q m := by
  rw [rinode, wp_bind]
  apply wp_rsect
  · intro hOut
    rw [hSectors] at hOut
    exact absurd (iblock_lt_size hi) hOut
  · intro _
    rw [wp_pure]
    exact h

def putDi (d : Disk) (i : Nat) (di : Dinode) : Disk :=
  Function.update d (iblock i) (encodeDinode (d (iblock i)) (i % ipb) di)

theorem wp_winode (hSectors : m.sectors = size) (hi : i < ninodes) {di : Dinode} {Q : Unit → Mk → Prop}
    (h : Q () { m with disk := putDi m.disk i di }) : wp (rely E) (winode i di) Q m := by
  rw [winode, wp_bind]
  apply wp_rsect
  · intro hOut
    rw [hSectors] at hOut
    exact absurd (iblock_lt_size hi) hOut
  · intro hIn
    exact wp_wsect hIn h

theorem putDi_high {d : Disk} {di : Dinode} (hi : i < ninodes) {x : Nat} (hx : metablocks ≤ x) : putDi d i di x = d x :=
  Function.update_of_ne (by have := iblock_lt_meta hi; omega) ..

theorem putDi_one (d : Disk) (i : Nat) (di : Dinode) : putDi d i di 1 = d 1 :=
  Function.update_of_ne (by have := iblock_ge i; omega) ..

theorem Table.ptr_high {d d' : Disk} {D : Nat → Dinode} {fb : Nat} {di : Dinode} (h : Table d D c fb) (hi : i < ninodes)
    (hSame : ∀ x, metablocks ≤ x → d' x = d x) (hAddrs : di.addrs = (D i).addrs) (p : Nat) :
    ptr d' di p = ptr d (D i) p := by
  refine ptr_congr hAddrs (fun hNz => hSame _ ?_) p
  have hInd : ptr d (D i) ndirect = (D i).addrs ndirect := ptr_le le_rfl
  rw [← hInd] at hNz ⊢
  exact (h.area i hi ndirect indirect_lt hNz).1

theorem typeOf_lt (i : Nat) : typeOf i < 2 ^ 16 := by
  rw [typeOf]
  split <;> decide

theorem wp_ialloc (h : Made m c) (hi : m.freeinode < ninodes) (hPos : 1 ≤ m.freeinode) {Q : Nat → Mk → Prop}
    (hQ : ∀ m', Made m' c → m'.freeinode = m.freeinode + 1 → Q m.freeinode m') :
    wp (rely E) (ialloc (typeOf m.freeinode)) Q m := by
  rw [ialloc, wp_bind]
  apply wp_act
  dsimp only
  rw [wp_bind]
  apply wp_winode (by exact h.sectors) hi
  rw [wp_pure]
  obtain ⟨hZero, hNone⟩ := h.free m.freeinode hi (.inr le_rfl)
  set di : Dinode := { Dinode.zero with type := typeOf m.freeinode, nlink := 1 } with hdi
  have hZero16 : 0 < 2 ^ 16 := by decide
  have hZero32 : 0 < 2 ^ 32 := by decide
  have hOne : 1 < 2 ^ 16 := by decide
  have hOk : di.Ok := ⟨typeOf_lt _, hZero16, hZero16, hOne, hZero32, fun _ => hZero32, fun _ _ => rfl⟩
  have hDi (j : Nat) : dinodeOf (putDi m.disk m.freeinode di) j =
      if j = m.freeinode then di else dinodeOf m.disk j := dinodeOf_encode hOk
  have hAddrs (j : Nat) : (dinodeOf (putDi m.disk m.freeinode di) j).addrs = (dinodeOf m.disk j).addrs := by
    rw [hDi]
    split
    · next hEq => rw [hEq, hZero]
    · rfl
  have hHigh (x : Nat) (hx : metablocks ≤ x) : putDi m.disk m.freeinode di x = m.disk x := putDi_high hi hx
  refine hQ { m with disk := putDi m.disk m.freeinode di, freeinode := m.freeinode + 1 }
    ⟨h.sectors, h.used, (putDi_one m.disk m.freeinode di).trans h.super, h.table.congr hHigh fun j _ => hAddrs j, ?_, ?_, ?_,
    h.count, h.small, h.fits⟩ rfl
  · intro j hj p hp
    rw [h.table.ptr_high hj hHigh (hAddrs j)]
    exact h.mapped j hj p hp
  · intro j hj hLow hNew
    rw [hDi]
    split
    · next hEq =>
      rw [hEq, hNone]
      rfl
    · next hne =>
      change j < m.freeinode + 1 at hNew
      exact h.files j hj hLow (by omega)
  · intro j hj hOut
    change j = 0 ∨ m.freeinode + 1 ≤ j at hOut
    rw [hDi, if_neg (by omega)]
    exact h.free j hj (by omega)

theorem wp_iappend (h : Made m c) (hi : i < ninodes) (hLow : 1 ≤ i) (hAlloc : i < m.freeinode) {p : List UInt8}
    (hRoom : E ∨ (c i).length + p.length ≤ maxfile * bsize ∧ total (lengths (Function.update c i (c i ++ p))) ≤ size)
    {Q : Unit → Mk → Prop}
    (hQ : ∀ m', Made m' (Function.update c i (c i ++ p)) → m'.freeinode = m.freeinode → Q () m') :
    wp (rely E) (iappend i p) Q m := by
  rw [iappend, wp_bind]
  apply wp_rinode h.sectors hi
  have hFile := h.files i hi hLow hAlloc
  have hLen : (dinodeOf m.disk i).size = (c i).length := by
    rw [hFile]
    rfl
  have hSelf : Function.update (dinodeOf m.disk) i (dinodeOf m.disk i) = dinodeOf m.disk := Function.update_eq_self ..
  have hStart : Appending m i c m (dinodeOf m.disk i) (c i) := by
    have hc : Function.update c i (c i) = c := Function.update_eq_self ..
    refine ⟨⟨h.sectors, h.used, rfl, fun _ _ => rfl, ?_, rfl, dinodeOf_ok _ _⟩, h.mapped i hi, fun _ _ _ _ _ => rfl, ?_,
      h.small, h.fits i hi⟩
    · rw [hSelf, hc]
      exact h.table
    · rw [hc]
      exact h.count
  rw [hLen, wp_bind]
  apply wp_iappendFrom hi p.length hStart le_rfl hRoom
  intro m₁ din hA
  dsimp only
  apply wp_winode hA.sectors hi
  set di : Dinode := { din with size := (c i ++ p).length } with hdi
  have hOk : di.Ok := hA.ok.setSize (hA.fits.trans_lt (by decide))
  have hLow₁ (j : Nat) (hj : j < ninodes) : dinodeOf m₁.disk j = dinodeOf m.disk j := dinodeOf_low hA.low hj
  have hDi (j : Nat) : dinodeOf (putDi m₁.disk i di) j = if j = i then di else dinodeOf m₁.disk j :=
    dinodeOf_encode hOk
  have hHigh (x : Nat) (hx : metablocks ≤ x) : putDi m₁.disk i di x = m₁.disk x := putDi_high hi hx
  have hAddrs (j : Nat) (hj : j < ninodes) :
      (dinodeOf (putDi m₁.disk i di) j).addrs = (Function.update (dinodeOf m.disk) i din j).addrs := by
    rw [hDi]
    split
    · next hEq => rw [hEq, Function.update_self]
    · next hne => rw [Function.update_of_ne hne, hLow₁ j hj]
  refine hQ _ ⟨hA.sectors, hA.used, ?_, hA.table.congr hHigh hAddrs, ?_, ?_, ?_, hA.count, hA.small, ?_⟩ hA.inode
  · exact (putDi_one m₁.disk i di).trans ((hA.low 1 (by decide)).trans h.super)
  · intro j hj q hq
    rw [hA.table.ptr_high hj hHigh (hAddrs j hj)]
    rcases eq_or_ne j i with rfl | hne
    · rw [Function.update_self, Function.update_self]
      exact hA.mapped q hq
    · rw [Function.update_of_ne hne, Function.update_of_ne hne, hA.others j hj hne q hq]
      exact h.mapped j hj q hq
  · intro j hj hLowJ hNew
    change j < m₁.freeinode at hNew
    rw [hA.inode] at hNew
    rw [hDi]
    split
    · next hEq =>
      subst hEq
      rw [Function.update_self, hdi]
      conv_lhs => rw [hA.fields, hFile]
      rfl
    · next hne =>
      rw [hLow₁ j hj, Function.update_of_ne hne]
      exact h.files j hj hLowJ hNew
  · intro j hj hOut
    change j = 0 ∨ m₁.freeinode ≤ j at hOut
    rw [hA.inode] at hOut
    have hne : j ≠ i := by omega
    rw [hDi, if_neg hne, hLow₁ j hj, Function.update_of_ne hne]
    exact h.free j hj hOut
  · intro j hj
    rcases eq_or_ne j i with rfl | hne
    · rw [Function.update_self]
      exact hA.fits
    · rw [Function.update_of_ne hne]
      exact h.fits j hj

end Inodes

/-! ## All files -/

/-- The contents of the inodes when `addFiles` is done that starts with inode number `n`. -/
def added (c : Nat → List UInt8) (n : Nat) : List HostFile → Nat → List UInt8
  | [] => c
  | f :: fs =>
    let c₁ := Function.update c rootino (c rootino ++ encodeDirent n (fileName f.arg))
    added (Function.update c₁ n (c₁ n ++ f.contents)) (n + 1) fs

def dots : List UInt8 := encodeDirent rootino dot ++ encodeDirent rootino dotdot

def contentsOf (files : List HostFile) : Nat → List UInt8 :=
  added (Function.update (fun _ => []) rootino dots) 2 files

structure Room (c : Nat → List UInt8) : Prop where
  fits : ∀ i < ninodes, (c i).length ≤ maxfile * bsize
  total : total (lengths c) ≤ size

section Files

variable {E : Prop} {m : Mk} {i n : Nat} {c c' : Nat → List UInt8}

theorem Room.mono (h : Room c') (hLe : ∀ i, lengths c i ≤ lengths c' i) : Room c :=
  ⟨fun i hi => (hLe i).trans (h.fits i hi), (total_mono hLe).trans h.total⟩

theorem lengths_append_le (c : Nat → List UInt8) (i : Nat) (l : List UInt8) (j : Nat) :
    lengths c j ≤ lengths (Function.update c i (c i ++ l)) j := by
  rw [lengths, lengths]
  rcases eq_or_ne j i with rfl | hne
  · rw [Function.update_self, List.length_append]
    exact Nat.le_add_right _ _
  · rw [Function.update_of_ne hne]

theorem lengths_added_le (c : Nat → List UInt8) (n : Nat) (files : List HostFile) (j : Nat) :
    lengths c j ≤ lengths (added c n files) j := by
  induction files generalizing c n with
  | nil => exact le_rfl
  | cons f fs ih =>
    exact (lengths_append_le c rootino _ j).trans ((lengths_append_le _ n f.contents j).trans (ih _ (n + 1)))

theorem Room.append {l : List UInt8} (h : Room (Function.update c i (c i ++ l))) (hi : i < ninodes) :
    (c i).length + l.length ≤ maxfile * bsize ∧ Mkfs.total (lengths (Function.update c i (c i ++ l))) ≤ size := by
  have := h.fits i hi
  rw [Function.update_self, List.length_append] at this
  exact ⟨this, h.total⟩

theorem wp_iappendAll (h : Made m c) (hi : i < ninodes) (hLow : 1 ≤ i) (hAlloc : i < m.freeinode)
    {chunks : List (List UInt8)} (hRoom : E ∨ Room (Function.update c i (c i ++ chunks.flatten)))
    {Q : Unit → Mk → Prop}
    (hQ : ∀ m', Made m' (Function.update c i (c i ++ chunks.flatten)) → m'.freeinode = m.freeinode → Q () m') :
    wp (rely E) (iappendAll i chunks) Q m := by
  induction chunks generalizing m c with
  | nil =>
    rw [List.flatten_nil, List.append_nil, Function.update_eq_self] at hQ
    exact hQ m h rfl
  | cons l chunks ih =>
    rw [List.flatten_cons, ← List.append_assoc] at hRoom hQ
    have hStep : Function.update (Function.update c i (c i ++ l)) i
        (Function.update c i (c i ++ l) i ++ chunks.flatten) = Function.update c i (c i ++ l ++ chunks.flatten) := by
      rw [Function.update_idem, Function.update_self]
    rw [← hStep] at hRoom hQ
    rw [iappendAll, wp_bind]
    refine wp_iappend h hi hLow hAlloc (hRoom.imp_right fun hr => ?_) fun m₁ h₁ hSame => ?_
    · exact (hr.mono (lengths_append_le _ i chunks.flatten)).append hi
    · exact ih h₁ (by omega) hRoom fun m₂ h₂ hSame₂ => hQ m₂ h₂ (hSame₂.trans hSame)

theorem wp_addFiles {files : List HostFile} (h : Made m c) (hLow : 2 ≤ m.freeinode)
    (hHigh : m.freeinode + files.length ≤ ninodes)
    (hRoom : E ∨ (∀ f ∈ files, slash ∉ f.arg) ∧ Room (added c m.freeinode files)) {Q : Unit → Mk → Prop}
    (hQ : ∀ m', Made m' (added c m.freeinode files) → m'.freeinode = m.freeinode + files.length →
      (∀ f ∈ files, slash ∉ f.arg) → Q () m') :
    wp (rely E) (addFiles rootino files) Q m := by
  induction files generalizing m c with
  | nil => exact hQ m h rfl fun f hf => absurd hf List.not_mem_nil
  | cons f fs ih =>
    rw [List.length_cons] at hHigh hQ
    rw [addFiles, wp_bind]
    refine wp_assert (fun hIn => hRoom.resolve_right fun hr => hIn (hr.1 f List.mem_cons_self)) fun hSlash => ?_
    have hType : tFile = typeOf m.freeinode := by
      rw [typeOf, if_neg]
      rw [rootino]
      omega
    rw [hType, wp_bind]
    apply wp_ialloc h (by omega) (by omega)
    intro m₁ h₁ hNext
    have hRoot : rootino < m₁.freeinode := by
      have : rootino = 1 := rfl
      omega
    rw [added] at hRoom hQ
    rw [wp_bind]
    refine wp_iappend h₁ (by decide) le_rfl hRoot (hRoom.imp_right fun hr => ?_) fun m₂ h₂ hSame => ?_
    · refine Room.append (hr.2.mono fun j => ?_) (by decide)
      exact (lengths_append_le _ m.freeinode f.contents j).trans (lengths_added_le _ _ fs j)
    · rw [wp_bind]
      refine wp_iappendAll h₂ (by omega) (by omega) (by omega) (hRoom.imp_right fun hr => ?_) fun m₃ h₃ hSame₃ => ?_
      · exact hr.2.mono (lengths_added_le _ _ fs)
      · have hFree : m₃.freeinode = m.freeinode + 1 := by rw [hSame₃, hSame, hNext]
        refine ih h₃ (by omega) (by omega) ?_ fun m₄ h₄ hLast hRest => ?_
        · rw [hFree]
          exact hRoom.imp_right fun hr => ⟨fun g hg => hr.1 g (List.mem_cons_of_mem f hg), hr.2⟩
        · rw [hFree] at h₄
          refine hQ m₄ h₄ ?_ (List.forall_mem_cons.mpr ⟨hSlash, hRest⟩)
          rw [hLast, hFree]
          omega

end Files

end Xv6Rpi.Mkfs
