import Xv6Rpi.Fs.Slots
import Xv6Rpi.Fs.Sysfile

/-! # Writing through an open file

`filewrite` cuts a write into transactions and checks the range of each when it comes to it.
What the transactions before a refusal have written stays: a failed write leaves the file as
it was exactly when the first transaction is refused already.
-/

namespace Xv6Rpi.Fs

open Prog

def overwrite (A : List UInt8) (off : Nat) (src : List UInt8) : List UInt8 :=
  A.take off ++ src ++ A.drop (off + src.length)

section Bytes

variable {A src rest : List UInt8} {off : Nat}

@[simp] theorem overwrite_nil (A : List UInt8) (off : Nat) : overwrite A off [] = A := by
  simp [overwrite]

theorem length_overwrite (hOff : off ≤ A.length) : (overwrite A off src).length = max A.length (off + src.length) := by
  simp only [overwrite, List.length_append, List.length_take, List.length_drop]
  omega

theorem overwrite_append (hOff : off ≤ A.length) :
    overwrite (overwrite A off src) (off + src.length) rest = overwrite A off (src ++ rest) := by
  have hHead : (A.take off ++ src).length = off + src.length := by
    rw [List.length_append, List.length_take, Nat.min_eq_left hOff]
  have hTake : (overwrite A off src).take (off + src.length) = A.take off ++ src := by
    rw [overwrite, ← hHead, List.take_left]
  have hDrop : (overwrite A off src).drop (off + src.length + rest.length) =
      A.drop (off + (src ++ rest).length) := by
    rw [overwrite, ← hHead, List.drop_length_add_append, List.drop_drop, hHead, List.length_append, Nat.add_assoc]
  rw [overwrite, hTake, hDrop, overwrite, List.append_assoc (A.take off)]

end Bytes

/-- The range that `writei` accepts for `n` bytes at `off` in a file of the given size. -/
def Fits (size off n : Nat) : Prop := off ≤ size ∧ off + n ≤ maxfile * bsize

instance (size off n : Nat) : Decidable (Fits size off n) :=
  inferInstanceAs (Decidable (off ≤ size ∧ off + n ≤ maxfile * bsize))

/-- The open file `f` is a regular file, in cache entry `ip`. -/
structure OpenOn (s : Kern) (f ip : Nat) : Prop where
  file : (s.file f).ip = ip
  lt : ip < ninode
  ref : 0 < (s.inode ip).ref
  type : (eff s (s.inode ip).inum).type = tFile

/-- Bytes have been written at the offset of the open file, and the offset moved on. -/
structure Advanced (sb : Superblock) (f ip : Nat) (src : List UInt8) (s s' : Kern) : Prop where
  sound : Sound sb s' ∅
  file : s'.file = Function.update s.file f { s.file f with off := (s.file f).off + src.length }
  inum : (s'.inode ip).inum = (s.inode ip).inum
  ref : (s'.inode ip).ref = (s.inode ip).ref
  type : ∀ inum < sb.ninodes, (eff s' inum).type = (eff s inum).type
  contents : ∀ inum < sb.ninodes, contents s' inum =
    if inum = (s.inode ip).inum then overwrite (contents s inum) (s.file f).off src else contents s inum

section Chunk

variable {R : Rely Kern Stop Label} {sb : Superblock} {s s₁ s' : Kern} {f ip : Nat} {src rest : List UInt8}

theorem canWrite_iff {di : Dinode} {off n : Nat} : CanWrite di off n ↔ Fits di.size off n := by
  have hMax : maxfile * bsize < 2 ^ 32 := by decide
  rw [CanWrite, CanRead, Fits]
  constructor
  · rintro ⟨⟨hOff, -⟩, hEnd⟩
    exact ⟨hOff, hEnd⟩
  · rintro ⟨hOff, hEnd⟩
    refine ⟨⟨hOff, ?_⟩, hEnd⟩
    rw [Nat.mod_eq_of_lt (by omega)]
    omega

theorem length_contents {inum : Nat} (hType : (eff s inum).type ≠ 0) : (contents s inum).length = (eff s inum).size := by
  rw [contents, AFile.length_contents, files, fileOf, if_neg hType]

theorem OpenOn.typed (h : OpenOn s f ip) : (eff s (s.inode ip).inum).type ≠ 0 := by
  rw [h.type]
  decide

theorem OpenOn.length (h : OpenOn s f ip) :
    (Fs.contents s (s.inode ip).inum).length = (eff s (s.inode ip).inum).size := length_contents h.typed

theorem Advanced.open (h : Advanced sb f ip src s s') (hS : Sound sb s ∅) (hOpen : OpenOn s f ip) : OpenOn s' f ip where
  file := by
    rw [h.file, Function.update_self]
    exact hOpen.file
  lt := hOpen.lt
  ref := by
    rw [h.ref]
    exact hOpen.ref
  type := by
    rw [h.inum, h.type _ (hS.cache.inum ip hOpen.lt hOpen.ref)]
    exact hOpen.type

theorem Advanced.off (h : Advanced sb f ip src s s') : (s'.file f).off = (s.file f).off + src.length := by
  rw [h.file, Function.update_self]

theorem Advanced.nil (hS : Sound sb s' ∅) (hFile : s'.file = s.file) (hInum : (s'.inode ip).inum = (s.inode ip).inum)
    (hRef : (s'.inode ip).ref = (s.inode ip).ref) (hHome : home s' = home s) (hEff : ∀ inum, eff s' inum = eff s inum) :
    Advanced sb f ip [] s s' where
  sound := hS
  file := by
    rw [hFile, Function.update_eq_self_iff.mpr]
    rfl
  inum := hInum
  ref := hRef
  type inum _ := by rw [hEff]
  contents inum _ := by
    rw [overwrite_nil, ite_self, Fs.contents, Fs.contents, files, files, hHome, hEff]

theorem Advanced.trans (h : Advanced sb f ip src s s₁) (hOff : (s.file f).off ≤ (Fs.contents s (s.inode ip).inum).length)
    (h' : Advanced sb f ip rest s₁ s') : Advanced sb f ip (src ++ rest) s s' where
  sound := h'.sound
  file := by
    rw [h'.file, h.file, Function.update_idem, Function.update_self, List.length_append, Nat.add_assoc]
  inum := h'.inum.trans h.inum
  ref := h'.ref.trans h.ref
  type inum hi := (h'.type inum hi).trans (h.type inum hi)
  contents inum hi := by
    rw [h'.contents inum hi, h.inum, h.off, h.contents inum hi]
    by_cases hEq : inum = (s.inode ip).inum
    · rw [if_pos hEq, if_pos hEq, if_pos hEq]
      exact overwrite_append (by rwa [hEq])
    · rw [if_neg hEq, if_neg hEq, if_neg hEq]

theorem wp_unlockCommit [hC : CommitsIn R fun _ => True] (hR : Allows R) (h : Sound sb s ∅) (hIn : ip < ninode)
    {α : Type} {r : α} {Q : α → Kern → Prop}
    (hQ : ∀ s', Sound sb s' ∅ → s'.file = s.file → s'.proc = s.proc → home s' = home s → (∀ inum, eff s' inum = eff s inum) →
      (∀ j, j ≠ ip → s'.inode j = s.inode j) → s'.inode ip = { s.inode ip with busy := false } → Q r s') :
    wp R (do
      iunlock ip
      commitTransK
      return r) Q s := by
  rw [wp_bind]
  apply wp_iunlock hR h.steady hIn
  intro s₁ h₁
  rw [wp_bind]
  apply wp_commitTransK hR h₁.sound.mounted.log fun s' _ => hC.commit s' trivial
  intro s₂ h₂
  have hEff : ∀ inum, eff s₂ inum = eff s inum := fun inum => by
    rw [eff_congr h₂.inode (by rw [h₂.home]), h₁.eff]
  refine hQ s₂ (h₁.sound.toSound.of_home h₂.inode h₂.home (h₁.sound.mounted.commits h₂)) (h₂.file.trans h₁.reslot.file)
    (h₂.proc.trans h₁.reslot.proc) (h₂.home.trans h₁.reslot.home) hEff (fun j hj => ?_) ?_
  · rw [h₂.inode, h₁.reslot.others j hj]
  · rw [h₂.inode, h₁.slot]

theorem wp_filewriteChunk [CommitsIn R fun _ => True] (hR : Relies (LowBits.any sb) R) (hG : Geom sb) (h : Sound sb s ∅) (hOpen : OpenOn s f ip)
    (hNe : src ≠ []) {Q : Option Nat → Kern → Prop}
    (hNone : ¬Fits (eff s (s.inode ip).inum).size (s.file f).off src.length →
      ∀ s', Advanced sb f ip [] s s' → Q none s')
    (hSome : Fits (eff s (s.inode ip).inum).size (s.file f).off src.length →
      ∀ s', Advanced sb f ip src s s' → Q (some src.length) s') : wp R (filewriteChunk f ip src) Q s := by
  have hi : (s.inode ip).inum < sb.ninodes := h.cache.inum ip hOpen.lt hOpen.ref
  have hPos : 0 < src.length := List.length_pos_iff.mpr hNe
  have hMax : maxfile * bsize < 2 ^ 32 := by decide
  rw [filewriteChunk, wp_bind]
  apply wp_beginTransK hR.stop
  intro _
  have h₀ : Sound sb { s with log := beginTrans s.log } ∅ := h.of_home rfl rfl h.mounted.begins
  rw [wp_bind]
  apply wp_ilock hR.stop hG h₀.steady hOpen.lt fun hz => absurd hz hOpen.typed
  intro s₁ h₁ _
  have hSlot₁ : s₁.inode ip = ⟨(s.inode ip).inum, (s.inode ip).ref, true, true, eff s (s.inode ip).inum⟩ := h₁.slot
  have hEff₁ : ∀ inum, eff s₁ inum = eff s inum := h₁.eff
  have hHome₁ : home s₁ = home s := h₁.reslot.home
  have hl₁ : LiveSlot s₁ ip := ⟨hOpen.lt, by rw [hSlot₁]; exact hOpen.ref, by rw [hSlot₁]⟩
  rw [wp_bind]
  apply wp_getK hR.stop
  have hOff₁ : (s₁.file f).off = (s.file f).off := by rw [h₁.reslot.file]
  rw [hOff₁, wp_bind]
  have hDi₁ : (s₁.inode ip).di = eff s (s.inode ip).inum := by rw [hSlot₁]
  apply wp_writei hR hG h₁.sound hl₁ (by rw [hDi₁]; exact hOpen.typed) (by rw [hDi₁, hOpen.type]; decide)
  · intro hNot
    rw [canWrite_iff, hDi₁] at hNot
    dsimp only [Option.getD_none]
    rw [if_neg (Nat.lt_irrefl 0)]
    apply wp_unlockCommit hR.stop h₁.sound.toSound hOpen.lt
    intro s₂ hS₂ hFile₂ _ hHome₂ hEff₂ _ hSlot₂
    refine hNone hNot s₂ (.nil hS₂ (hFile₂.trans h₁.reslot.file) ?_ ?_ (hHome₂.trans hHome₁) fun inum => ?_)
    · rw [hSlot₂, hSlot₁]
    · rw [hSlot₂, hSlot₁]
    · rw [hEff₂, hEff₁]
  · intro hCan s₂ h₂
    rw [canWrite_iff, hDi₁] at hCan
    have hInum₁ : (s₁.inode ip).inum = (s.inode ip).inum := by rw [hSlot₁]
    have hNoWrap : ((s₂.file f).off + src.length) % 2 ^ 32 = (s.file f).off + src.length := by
      rw [h₂.file, hOff₁, Nat.mod_eq_of_lt]
      have := hCan.2
      omega
    dsimp only [Option.getD_some]
    rw [if_pos hPos, wp_bind, addOff]
    apply wp_modifyK hR.stop
    have hS₂ : Sound sb (setFile s₂ f { s₂.file f with off := ((s₂.file f).off + src.length) % 2 ^ 32 }) ∅ :=
      h₂.sound.toSound.of_home rfl rfl ⟨h₂.sound.mounted.start, h₂.sound.mounted.size, h₂.sound.mounted.super,
        h₂.sound.mounted.log⟩
    apply wp_unlockCommit hR.stop hS₂ hOpen.lt
    intro s₃ hS₃ hFile₃ _ hHome₃ hEff₃ _ hSlot₃
    have hFiles₃ : ∀ inum, files s₃ inum = files s₂ inum := fun inum => by
      rw [files, files, hHome₃, hEff₃]
      rfl
    have hFiles₁ : ∀ inum, files s₁ inum = files s inum := fun inum => by rw [files, files, hHome₁, hEff₁]
    refine hSome hCan s₃ ⟨hS₃, ?_, ?_, ?_, fun inum hi' => ?_, fun inum hi' => ?_⟩
    · rw [hFile₃, setFile]
      dsimp only
      rw [hNoWrap, h₂.file, h₁.reslot.file]
    · rw [hSlot₃]
      change (s₂.inode ip).inum = _
      rw [h₂.slot, hInum₁]
    · rw [hSlot₃]
      change (s₂.inode ip).ref = _
      rw [h₂.slot, hSlot₁]
    · have hType := congrArg AFile.type (h₂.files inum hi')
      rw [hFiles₁] at hType
      rw [hEff₃, ← fileOf_type (home s₂), ← fileOf_type (home s) (eff s inum)]
      change (files s₂ inum).type = (files s inum).type
      rw [hType]
      split <;> rfl
    · rw [contents, hFiles₃, h₂.files inum hi', hInum₁, hFiles₁]
      by_cases hEq : inum = (s.inode ip).inum
      · have hOff : (s.file f).off ≤ (files s inum).size := by
          rw [hEq, ← AFile.length_contents]
          exact hOpen.length.symm ▸ hCan.1
        rw [if_pos hEq, if_pos hEq, AFile.contents_write hOff]
        rfl
      · rw [if_neg hEq, if_neg hEq]
        rfl

end Chunk

/-- What `k` says about a write of `n` bytes at `off` into a file of the given size, when `k`
of them have been written and `b` is whether the loop went through. -/
structure Progress (size off n k : Nat) (b : Bool) : Prop where
  le : k ≤ n
  done : b = true ↔ k = n
  fits : b = true ↔ n = 0 ∨ Fits size off n
  first : k = 0 ↔ n = 0 ∨ ¬Fits size off (min n maxWrite)

section Loop

variable {R : Rely Kern Stop Label} {sb : Superblock} {s s' : Kern} {f ip size off n k : Nat} {b : Bool} {src : List UInt8}

theorem Progress.refused (hPos : 0 < n) (hNot : ¬Fits size off (min n maxWrite)) : Progress size off n 0 false where
  le := Nat.zero_le n
  done := iff_of_false Bool.false_ne_true (by omega)
  fits := by
    refine iff_of_false Bool.false_ne_true ?_
    rintro (hz | hFits)
    · omega
    · exact hNot ⟨hFits.1, (Nat.add_le_add_left (Nat.min_le_left ..) off).trans hFits.2⟩
  first := iff_of_true rfl (Or.inr hNot)

theorem Progress.step (hPos : 0 < n) (hFits : Fits size off (min n maxWrite))
    (h : Progress (max size (off + min n maxWrite)) (off + min n maxWrite) (n - min n maxWrite) k b) :
    Progress size off n (min n maxWrite + k) b := by
  have hPosMax : 0 < maxWrite := by decide
  have hLe := h.le
  have hEnd := hFits.2
  refine ⟨by omega, h.done.trans (by omega), h.fits.trans ?_, iff_of_false (by omega) ?_⟩
  · simp only [Fits]
    have := hFits.1
    omega
  · rintro (hz | hNot)
    · omega
    · exact hNot hFits

/-- A loop that came to its end wrote no less than what fits. -/
theorem Progress.whole (h : Progress size off n k true) : ¬(Fits size off (min n maxWrite) ∧ ¬Fits size off n) := by
  rintro ⟨hFirst, hNot⟩
  rcases h.fits.mp rfl with rfl | hFits
  · exact hNot (by rwa [Nat.zero_min] at hFirst)
  · exact hNot hFits

/-- A loop that stopped has written something unless the first transaction was refused. -/
theorem Progress.broken (h : Progress size off n k false) : k = 0 ↔ ¬(Fits size off (min n maxWrite) ∧ ¬Fits size off n) := by
  have hNot : ¬(n = 0 ∨ Fits size off n) := fun hOr => Bool.false_ne_true (h.fits.mpr hOr)
  rw [not_or] at hNot
  rw [h.first, or_iff_right hNot.1, not_and_not_right]
  exact ⟨fun hRefused hFits => absurd hFits hRefused, fun hAll hFits => hNot.2 (hAll hFits)⟩

/-- The loop of `filewrite` writes the transactions that `writei` accepts. -/
theorem wp_filewriteFrom [CommitsIn R fun _ => True] (hR : Relies (LowBits.any sb) R) (hG : Geom sb) (fuel : Nat) (h : Sound sb s ∅)
    (hOpen : OpenOn s f ip) (hn : src.length ≤ fuel) {Q : Bool → Kern → Prop}
    (hQ : ∀ b k s', Advanced sb f ip (src.take k) s s' →
      Progress (eff s (s.inode ip).inum).size (s.file f).off src.length k b → Q b s') :
    wp R (filewriteFrom f ip fuel src) Q s := by
  have hStay : Advanced sb f ip (src.take 0) s s := .nil h rfl rfl rfl rfl fun _ => rfl
  have hNil : Progress (eff s (s.inode ip).inum).size (s.file f).off 0 0 true :=
    ⟨le_rfl, iff_of_true rfl rfl, iff_of_true rfl (Or.inl rfl), iff_of_true rfl (Or.inl rfl)⟩
  induction fuel generalizing s src Q with
  | zero =>
    obtain rfl : src = [] := List.length_eq_zero_iff.mp (by omega)
    exact hQ true 0 s hStay hNil
  | succ fuel ih =>
    rw [filewriteFrom]
    by_cases hz : src = []
    · rw [if_pos hz, wp_pure]
      subst hz
      exact hQ true 0 s hStay hNil
    rw [if_neg hz, wp_bind]
    have hPos : 0 < src.length := List.length_pos_iff.mpr hz
    have hLen : (src.take maxWrite).length = min src.length maxWrite := by
      rw [List.length_take, Nat.min_comm]
    have hNe : src.take maxWrite ≠ [] := by
      rw [← List.length_pos_iff, hLen]
      exact Nat.lt_min.mpr ⟨hPos, by decide⟩
    have hi : (s.inode ip).inum < sb.ninodes := h.cache.inum ip hOpen.lt hOpen.ref
    apply wp_filewriteChunk hR hG h hOpen hNe
    · intro hNot s' hAdv
      rw [hLen] at hNot
      exact hQ false 0 s' hAdv (.refused hPos hNot)
    · intro hFits s₁ hAdv
      rw [hLen] at hFits
      dsimp only
      rw [if_neg (not_not.mpr rfl)]
      have hOpen₁ : OpenOn s₁ f ip := hAdv.open h hOpen
      have hOff₁ : (s₁.file f).off = (s.file f).off + min src.length maxWrite := by rw [hAdv.off, hLen]
      have hSize₁ : (eff s₁ (s₁.inode ip).inum).size =
          max (eff s (s.inode ip).inum).size ((s.file f).off + min src.length maxWrite) := by
        rw [← hOpen₁.length, hAdv.inum, hAdv.contents _ hi, if_pos rfl,
          length_overwrite (by rw [hOpen.length]; exact hFits.1), hOpen.length, hLen]
      have hDrop : (src.drop maxWrite).length = src.length - min src.length maxWrite := by
        rw [List.length_drop]
        omega
      apply ih hAdv.sound hOpen₁ (by have := Nat.lt_min.mpr ⟨hPos, show 0 < maxWrite by decide⟩; omega)
      · intro b k s' hAdv' hProg
        have hTake : src.take (min src.length maxWrite + k) = src.take maxWrite ++ (src.drop maxWrite).take k := by
          have hSplit := @List.take_length_add_append _ (src.take maxWrite) (src.drop maxWrite) k
          rwa [List.take_append_drop, hLen] at hSplit
        rw [hSize₁, hOff₁, hDrop] at hProg
        refine hQ b (min src.length maxWrite + k) s' ?_ (.step hPos hFits hProg)
        rw [hTake]
        exact hAdv.trans (by rw [hOpen.length]; exact hFits.1) hAdv'
      · exact .nil hAdv.sound rfl rfl rfl rfl fun _ => rfl
      · exact ⟨le_rfl, iff_of_true rfl rfl, iff_of_true rfl (Or.inl rfl), iff_of_true rfl (Or.inl rfl)⟩

end Loop

/-- A write fails with the file as it was, or it replaces the bytes at the offset and moves
the offset on. -/
def AllOrNothing (f inum : Nat) (src : List UInt8) (r : Int) (s s' : Kern) : Prop :=
  (r = -1 → contents s' inum = contents s inum ∧ (s'.file f).off = (s.file f).off) ∧
    (r = src.length → contents s' inum = overwrite (contents s inum) (s.file f).off src ∧
      (s'.file f).off = (s.file f).off + src.length)

/-- A write whose first transaction lies within the maximum size of a file, but not all of it. -/
def Crosses (s : Kern) (f inum : Nat) (src : List UInt8) : Prop :=
  (s.file f).writable = true ∧ Fits (contents s inum).length (s.file f).off (min src.length maxWrite) ∧
    ¬Fits (contents s inum).length (s.file f).off src.length

section Filewrite

variable {R : Rely Kern Stop Label} {sb : Superblock} {s s' : Kern} {f ip : Nat} {src : List UInt8} {r : Int}

theorem wp_filewrite [CommitsIn R fun _ => True] (hR : Relies (LowBits.any sb) R) (hG : Geom sb) (h : Sound sb s ∅) (hOpen : OpenOn s f ip)
    (hType : (s.file f).type = .inode) :
    wp R (filewrite f src) (fun r s' => AllOrNothing f (s.inode ip).inum src r s s' ↔
      ¬Crosses s f (s.inode ip).inum src) s := by
  have hi : (s.inode ip).inum < sb.ninodes := h.cache.inum ip hOpen.lt hOpen.ref
  have hNat : ∀ n : Nat, (n : Int) ≠ -1 := fun n hEq => by omega
  rw [filewrite, wp_bind]
  apply wp_getK hR.stop
  by_cases hWr : (s.file f).writable = true
  · rw [if_neg (by rw [hWr]; decide), hType, hOpen.file]
    dsimp only
    rw [wp_bind]
    apply wp_filewriteFrom hR hG _ h hOpen le_rfl
    intro b k s' hAdv hProg
    have hHere : Fs.contents s' (s.inode ip).inum =
        overwrite (Fs.contents s (s.inode ip).inum) (s.file f).off (src.take k) := by
      rw [hAdv.contents _ hi, if_pos rfl]
    have hOff := hAdv.off
    rw [List.length_take, Nat.min_eq_left hProg.le] at hOff
    have hCross : Crosses s f (s.inode ip).inum src ↔
        Fits (eff s (s.inode ip).inum).size (s.file f).off (min src.length maxWrite) ∧
          ¬Fits (eff s (s.inode ip).inum).size (s.file f).off src.length := by
      rw [Crosses, hOpen.length, and_iff_right hWr]
    rw [hCross]
    cases b with
    | true =>
      have hk : k = src.length := hProg.done.mp rfl
      rw [hk, List.take_length] at hHere
      rw [if_pos rfl, wp_pure]
      exact iff_of_true ⟨fun hEq => absurd hEq (hNat _), fun _ => ⟨hHere, by rw [hOff, hk]⟩⟩ hProg.whole
    | false =>
      rw [if_neg Bool.false_ne_true, wp_pure, ← hProg.broken]
      constructor
      · rintro ⟨hFail, -⟩
        have := (hFail rfl).2
        omega
      · rintro rfl
        rw [List.take_zero, overwrite_nil] at hHere
        exact ⟨fun _ => ⟨hHere, hOff⟩, fun hEq => absurd hEq.symm (hNat _)⟩
  · rw [if_pos (by simpa using hWr), wp_pure]
    exact iff_of_true ⟨fun _ => ⟨rfl, rfl⟩, fun hEq => absurd hEq.symm (hNat _)⟩ fun hCross => hWr hCross.1

/-- A write leaves the file as it was or writes all its bytes exactly unless it crosses the
maximum size of a file after its first transaction. -/
theorem write_all_or_nothing (hG : Geom sb) (h : Sound sb s ∅) (hOpen : OpenOn s f ip) (hType : (s.file f).type = .inode)
    (hMay : (filewrite f src).along (AllocsInData sb) s) (hRun : (filewrite f src).run s = .ok (r, s')) :
    AllOrNothing f (s.inode ip).inum src r s s' ↔ ¬Crosses s f (s.inode ip).inum src :=
  wp_run (wp_filewrite (inData_relies _) hG h hOpen hType) hMay hRun

end Filewrite

section Example

/-- A disk with one file, in use; no transaction is open. -/
def lone (sb : Superblock) (d : Disk) (di : Dinode) (file : Nat → File) : Kern where
  disk := d
  held _ := false
  log := logOf sb
  inode ip := if ip = 0 then ⟨1, 1, false, true, di⟩ else ⟨0, 0, false, false, Dinode.zero⟩
  file := file
  proc _ := ⟨fun _ => none, none⟩
  devsw _ := none

variable {sb : Superblock} {d : Disk} {di : Dinode} {file : Nat → File} {x : Nat}

theorem lone_live {ip : Nat} (h : 0 < ((lone sb d di file).inode ip).ref) : ip = 0 := by
  by_contra hne
  simp [lone, hne] at h

theorem lone_slot : LiveSlot (lone sb d di file) 0 := ⟨by decide, show (0 : Int) < 1 by decide, rfl⟩

theorem logOf_start (hG : Geom sb) : (logOf sb).start = sb.size - sb.nlog := by
  have h1 := hG.nlog
  have h2 := hG.size
  change (sb.size + 2 ^ 32 - sb.nlog) % 2 ^ 32 = sb.size - sb.nlog
  omega

theorem lone_home (hG : Geom sb) (hx : x < sb.size - sb.nlog) : home (lone sb d di file) x = d x := by
  apply home_of_not_holds
  rintro ⟨hLow, -⟩
  change (logOf sb).start ≤ x at hLow
  rw [logOf_start hG] at hLow
  omega

theorem lone_cache (hOne : 1 < sb.ninodes) (hOk : di.Ok) : CacheInv sb (lone sb d di file) where
  uniq i _ j _ hi hj _ := by rw [lone_live hi, lone_live hj]
  inum i _ hi := by
    rw [lone_live hi]
    exact hOne
  ok i hi := by
    rw [lone_live hi.ref]
    exact hOk

/-- The pointers of the file name different blocks of the data area, and these are the ones
that the bitmap shows as used. -/
theorem lone_sound (hG : Geom sb) (hSuper : decodeSb (d 1) = sb) (hOne : 1 < sb.ninodes) (hOk : di.Ok) (hType : di.type ≠ 0)
    (hFree : ∀ inum < sb.ninodes, inum ≠ 1 → (dinodeOf d inum).type = 0)
    (hInj : ∀ p < npos, ∀ q < npos, ptr d di p = ptr d di q → ptr d di p ≠ 0 → p = q)
    (hData : ∀ p < npos, ptr d di p ≠ 0 → InData sb (ptr d di p))
    (hBits : ∀ b, InData sb b → (bit sb d b = true ↔ ∃ p < npos, ptr d di p = b)) :
    Sound sb (lone sb d di file) ∅ := by
  have hC : CacheInv sb (lone sb d di file) := lone_cache hOne hOk
  have hEff : eff (lone sb d di file) 1 = di := hC.eff_live lone_slot
  have hPtr : ∀ p, ptr (home (lone sb d di file)) di p = ptr d di p := fun p => by
    refine ptr_congr rfl (fun hNz => lone_home hG ?_) p
    have := hData ndirect indirect_lt (by rwa [ptr_le le_rfl])
    rw [ptr_le le_rfl] at this
    exact this.2
  have hRef : ∀ r, ValidRef sb r → ptrOf (home (lone sb d di file)) (eff (lone sb d di file)) r =
      if r.1 = 1 then ptr d di r.2 else 0 := by
    rintro ⟨inum, p⟩ hr
    by_cases hIn : inum = 1
    · subst hIn
      rw [ptrOf_of_type (by rwa [hEff]), hEff, hPtr, if_pos rfl]
    · have hDead : eff (lone sb d di file) inum = dinodeOf (home (lone sb d di file)) inum :=
        eff_of_dead fun j hl hEq => hIn (by rw [← hEq, lone_live hl.ref]; rfl)
      have hBlk : home (lone sb d di file) (iblock inum) = d (iblock inum) := lone_home hG (hG.iblock_lt_log hr.1)
      have hz : (eff (lone sb d di file) inum).type = 0 := by
        rw [hDead, dinodeOf, hBlk]
        exact hFree inum hr.1 hIn
      rw [ptrOf, if_pos hz, if_neg hIn]
  refine ⟨⟨logOf_start hG, rfl, ?_, .of_empty rfl⟩, hC, ⟨?_, ?_, fun b hb => ?_, fun b hb => absurd hb (Set.notMem_empty b)⟩⟩
  · rw [lone_home hG (hG.lt_log (by decide)), hSuper]
  · rintro ⟨i, p⟩ ⟨j, q⟩ hr hr' hEq hNz
    rw [hRef _ hr] at hEq hNz
    rw [hRef _ hr'] at hEq
    dsimp only at hEq hNz
    split at hNz
    · rename_i hi
      rw [if_pos hi] at hEq
      split at hEq
      · rename_i hj
        rw [hi, hj, hInj p hr.2 q hr'.2 hEq hNz]
      · exact absurd hEq hNz
    · exact absurd rfl hNz
  · rintro ⟨i, p⟩ hr hNz
    rw [hRef _ hr] at hNz ⊢
    dsimp only at hNz ⊢
    split at hNz
    · rename_i hi
      rw [if_pos hi]
      exact hData p hr.2 hNz
    · exact absurd rfl hNz
  · have hBit : bit sb (home (lone sb d di file)) b = bit sb d b := by
      rw [bit, lone_home hG ((bblock_lt hb.lt_size).trans_le hG.fits), bit]
    rw [hBit, hBits b hb, Set.mem_empty_iff_false, or_false]
    constructor
    · rintro ⟨p, hp, rfl⟩
      exact ⟨(1, p), ⟨hOne, hp⟩, by rw [hRef _ ⟨hOne, hp⟩, if_pos rfl]⟩
    · rintro ⟨⟨i, p⟩, hr, hEq⟩
      rw [hRef _ hr] at hEq
      dsimp only at hEq
      split at hEq
      · exact ⟨p, hr.2, hEq⟩
      · exact absurd hEq.symm hb.pos

def fullFileSb : Superblock := ⟨156, 141, 8, 10⟩

/-- A file of the maximum size; its blocks follow each other, the indirect one among them. -/
def fullFileDi : Dinode := ⟨tFile, 0, 0, 1, 71680, fun i => if i ≤ ndirect then 5 + i else 0⟩

def fullFileImage : Disk
  | 1 => setWord (setWord (setWord (setWord zeroBlock 0 156) 4 141) 8 8) 12 10
  | 2 => encodeDinode zeroBlock 1 fullFileDi
  | 4 => fun j => if j < 18 then 0xFF else if j = 18 then 0x03 else 0
  | 17 => fun j => if j % 4 = 0 then UInt8.ofNat (18 + j / 4) else 0
  | _ => zeroBlock

/-- The file, opened for writing, with the offset three blocks before its end. -/
def fullFile : Kern := lone fullFileSb fullFileImage fullFileDi fun _ => ⟨.inode, 1, true, true, 0, 70144⟩

theorem fullFile_ptr : ∀ p < npos, ptr fullFileImage fullFileDi p = 5 + p := by decide +kernel

theorem fullFileDi_ok : fullFileDi.Ok := by
  refine ⟨by decide, by decide, by decide, by decide, by decide, fun i => ?_, fun i hi => ?_⟩
  · change (if i ≤ 12 then 5 + i else 0) < 4294967296
    by_cases hi : i ≤ 12
    · rw [if_pos hi]
      omega
    · rw [if_neg hi]
      decide
  · exact if_neg (by omega)

theorem fullFile_geom : Geom fullFileSb := ⟨by decide, by decide, by decide⟩

theorem fullFile_sound : Sound fullFileSb fullFile ∅ := by
  have hNpos : npos = 141 := rfl
  refine lone_sound fullFile_geom (by decide) (by decide) fullFileDi_ok (by decide) (by decide +kernel) ?_ ?_ ?_
  · intro p hp q hq hEq _
    rw [fullFile_ptr p hp, fullFile_ptr q hq] at hEq
    omega
  · intro p hp _
    rw [fullFile_ptr p hp]
    exact ⟨show 5 ≤ 5 + p by omega, show 5 + p < 146 by omega⟩
  · intro b hb
    have hLow : 5 ≤ b := hb.1
    have hHigh : b < 146 := hb.2
    refine iff_of_true ?_ ⟨b - 5, by omega, by rw [fullFile_ptr _ (by omega)]; omega⟩
    have hAll : ∀ b < 146, bit fullFileSb fullFileImage b = true := by decide +kernel
    exact hAll b hHigh

theorem fullFile_eff : eff fullFile 1 = fullFileDi :=
  have hC : CacheInv fullFileSb fullFile := lone_cache (by decide) fullFileDi_ok
  hC.eff_live lone_slot

theorem fullFile_open : OpenOn fullFile 0 0 :=
  ⟨rfl, by decide, show (0 : Int) < 1 by decide, congrArg Dinode.type fullFile_eff⟩

set_option maxRecDepth 10000 in
/-- A write within the file. -/
theorem write_all_or_nothing_fits : ∃ s', (filewrite 0 [1]).run fullFile = .ok (1, s') ∧
    contents s' 1 = overwrite (contents fullFile 1) 70144 [1] ∧ (s'.file 0).off = 70145 := by
  have hRun : ((filewrite 0 [1]).run fullFile).toOption.map Prod.fst = some 1 := by decide +kernel
  obtain ⟨⟨r, s'⟩, hRun, hEq⟩ := Option.map_eq_some_iff.mp hRun
  rw [toOption_eq_some] at hRun
  dsimp only at hEq
  subst hEq
  have hFits : Fits (contents fullFile 1).length 70144 1 := by
    rw [length_contents (by rw [fullFile_eff]; decide), fullFile_eff]
    decide
  have hMay : (filewrite 0 [1]).along (AllocsInData fullFileSb) fullFile := by decide +kernel
  have hAll := (write_all_or_nothing fullFile_geom fullFile_sound fullFile_open rfl hMay hRun).mpr fun hCross =>
    hCross.2.2 hFits
  exact ⟨s', hRun, hAll.2 rfl⟩

set_option maxRecDepth 10000 in
/-- A write of one byte more than what is left of the file fails, but the bytes of its first
transaction are in the file and the offset has moved. -/
theorem crossing_write_fails_halfway : Geom fullFileSb ∧ Sound fullFileSb fullFile ∅ ∧ OpenOn fullFile 0 0 ∧
    (filewrite 0 (List.replicate 1537 1)).along (AllocsInData fullFileSb) fullFile ∧
    ∃ s', (filewrite 0 (List.replicate 1537 1)).run fullFile = .ok (-1, s') ∧
      ¬AllOrNothing 0 1 (List.replicate 1537 1) (-1) fullFile s' := by
  have hRun : ((filewrite 0 (List.replicate 1537 1)).run fullFile).toOption.map (fun r => (r.1, (r.2.file 0).off)) =
      some (-1, 71680) := by decide +kernel
  obtain ⟨⟨r, s'⟩, hRun, hEq⟩ := Option.map_eq_some_iff.mp hRun
  rw [toOption_eq_some] at hRun
  obtain ⟨rfl, hOff⟩ := Prod.mk.inj hEq
  refine ⟨fullFile_geom, fullFile_sound, fullFile_open, by decide +kernel, s', hRun, fun hAll => ?_⟩
  have hSame := (hAll.1 rfl).2
  rw [hOff] at hSame
  exact absurd hSame (by decide)

end Example

end Xv6Rpi.Fs
