import Xv6Rpi.Fs.Reading
import Xv6Rpi.Mkfs.Image

/-! # The contents of the image

The root directory holds an entry for every file, and the inode of each file the bytes that
were read of it.
-/

namespace Xv6Rpi.Mkfs

open Fs

variable {c : Nat → List UInt8} {n : Nat}

theorem length_added_root (c : Nat → List UInt8) {n : Nat} (hn : rootino < n) (files : List HostFile) :
    (added c n files rootino).length = (c rootino).length + direntSz * files.length := by
  induction files generalizing c n with
  | nil => rfl
  | cons f fs ih =>
    rw [added, ih _ (hn.trans (Nat.lt_succ_self n)), Function.update_of_ne hn.ne, Function.update_self, List.length_append,
      length_encodeDirent, List.length_cons]
    ring

theorem length_contentsOf_root (files : List HostFile) :
    (contentsOf files rootino).length = direntSz * (files.length + 2) := by
  rw [contentsOf, length_added_root _ (by decide), Function.update_self, dots, List.length_append, length_encodeDirent,
    length_encodeDirent]
  ring

theorem total_root (f : Nat → Nat) : total f = total (Function.update f rootino 0) + blocksOf (f rootino) := by
  have hNone : blocksOf 0 = 0 := by decide
  have := total_update f (show rootino < ninodes by decide) 0
  omega

/-- Apart from the root directory every file counts by itself. -/
theorem total_added (hFree : ∀ i, n ≤ i → c i = []) (hn : rootino < n) {files : List HostFile}
    (hHigh : n + files.length ≤ ninodes) :
    total (Function.update (lengths (added c n files)) rootino 0) =
      total (Function.update (lengths c) rootino 0) + (files.map fun f => blocksOf f.contents.length).sum := by
  induction files generalizing c n with
  | nil => rw [added, List.map_nil, List.sum_nil, Nat.add_zero]
  | cons f fs ih =>
    rw [List.length_cons] at hHigh
    have hNone : blocksOf 0 = 0 := by decide
    have hEmpty : c n = [] := hFree n le_rfl
    set c₁ := Function.update c rootino (c rootino ++ encodeDirent n (fileName f.arg)) with hc₁
    have hEmpty₁ : c₁ n = [] := by rw [hc₁, Function.update_of_ne hn.ne', hEmpty]
    have hSame : Function.update (lengths (Function.update c₁ n (c₁ n ++ f.contents))) rootino 0 =
        Function.update (Function.update (lengths c) rootino 0) n f.contents.length := by
      rw [hEmpty₁, List.nil_append, lengths_update, hc₁, lengths_update, Function.update_comm hn.ne',
        Function.update_idem]
    have hUpd := total_update (Function.update (lengths c) rootino 0) (show n < ninodes by omega) f.contents.length
    rw [Function.update_of_ne hn.ne', lengths, hEmpty, List.length_nil, hNone, Nat.add_zero] at hUpd
    have hRest := ih (c := Function.update c₁ n (c₁ n ++ f.contents)) (n := n + 1) (fun i hi => ?_) (by omega) (by omega)
    · rw [added, hRest, hSame, hUpd, List.map_cons, List.sum_cons, Nat.add_assoc]
    · rw [Function.update_of_ne (by omega), hc₁, Function.update_of_ne (by omega)]
      exact hFree i (by omega)

def blocksNeeded (files : List HostFile) : Nat :=
  blocksOf (direntSz * (files.length + 2)) + (files.map fun f => blocksOf f.contents.length).sum

theorem total_contentsOf {files : List HostFile} (h : files.length + 2 ≤ ninodes) :
    total (lengths (contentsOf files)) = metablocks + blocksNeeded files := by
  set c : Nat → List UInt8 := Function.update (fun _ => []) rootino dots with hc
  have hNone : Function.update (lengths c) rootino 0 = lengths fun _ => [] := by
    rw [hc, lengths_update, Function.update_idem]
    exact Function.update_eq_self rootino _
  have hFree (i : Nat) (hi : 2 ≤ i) : c i = [] := Function.update_of_ne (by rw [rootino]; omega) ..
  have hRest : total (Function.update (lengths (added c 2 files)) rootino 0) =
      total (Function.update (lengths c) rootino 0) + (files.map fun f => blocksOf f.contents.length).sum :=
    total_added hFree (by decide) (by omega)
  rw [hNone, total_empty] at hRest
  have hRoot : lengths (contentsOf files) rootino = direntSz * (files.length + 2) := length_contentsOf_root files
  rw [total_root, hRoot, contentsOf, ← hc, hRest, blocksNeeded]
  omega

/-! ## One inode -/

/-- The entries that `addFiles` appends, which start with inode number `n`. -/
def numbered (n : Nat) : List HostFile → List (Nat × List UInt8)
  | [] => []
  | f :: fs => (n, fileName f.arg) :: numbered (n + 1) fs

def entriesOf (files : List HostFile) : List (Nat × List UInt8) :=
  (rootino, dot) :: (rootino, dotdot) :: numbered 2 files

theorem added_root (hn : rootino < n) (files : List HostFile) :
    added c n files rootino = c rootino ++ dirBytes (numbered n files) := by
  induction files generalizing c n with
  | nil =>
    rw [added, numbered]
    exact (List.append_nil _).symm
  | cons f fs ih =>
    rw [added, ih (hn.trans (Nat.lt_succ_self n)), Function.update_of_ne hn.ne, Function.update_self, List.append_assoc,
      numbered]
    rfl

theorem added_low {i : Nat} (hi : i < n) (hne : i ≠ rootino) (files : List HostFile) : added c n files i = c i := by
  induction files generalizing c n with
  | nil => rfl
  | cons f fs ih =>
    rw [added, ih (hi.trans (Nat.lt_succ_self n)), Function.update_of_ne hi.ne, Function.update_of_ne hne]

theorem added_high {i : Nat} (hn : rootino < n) {files : List HostFile} (hi : n + files.length ≤ i) :
    added c n files i = c i := by
  induction files generalizing c n with
  | nil => rfl
  | cons f fs ih =>
    rw [List.length_cons] at hi
    rw [added, ih (hn.trans (Nat.lt_succ_self n)) (by omega), Function.update_of_ne (by omega), Function.update_of_ne (by omega)]

theorem added_file (hFree : ∀ i, n ≤ i → c i = []) (hn : rootino < n) {files : List HostFile} {j : Nat}
    (hj : j < files.length) : added c n files (n + j) = files[j].contents := by
  induction files generalizing c n j with
  | nil => exact absurd hj (Nat.not_lt_zero j)
  | cons f fs ih =>
    set c₁ := Function.update c rootino (c rootino ++ encodeDirent n (fileName f.arg)) with hc₁
    have hEmpty : c₁ n = [] := by rw [hc₁, Function.update_of_ne hn.ne', hFree n le_rfl]
    rw [added]
    cases j with
    | zero =>
      change added _ (n + 1) fs n = f.contents
      rw [added_low (Nat.lt_succ_self n) hn.ne', Function.update_self, ← hc₁, hEmpty, List.nil_append]
    | succ j =>
      have hNext : n + (j + 1) = n + 1 + j := by omega
      rw [hNext, ih (fun i hi => ?_) (hn.trans (Nat.lt_succ_self n)) (Nat.lt_of_succ_lt_succ hj)]
      · rfl
      · rw [Function.update_of_ne (by omega), Function.update_of_ne (by omega)]
        exact hFree i (by omega)

theorem onlyDots {i : Nat} (hi : i ≠ rootino) : Function.update (fun _ => ([] : List UInt8)) rootino dots i = [] :=
  Function.update_of_ne hi ..

theorem contentsOf_root (files : List HostFile) : contentsOf files rootino = dirBytes (entriesOf files) := by
  rw [contentsOf, added_root (by decide), Function.update_self, dots, List.append_assoc]
  rfl

theorem contentsOf_file {files : List HostFile} {j : Nat} (hj : j < files.length) :
    contentsOf files (2 + j) = files[j].contents :=
  added_file (fun i hi => onlyDots (by rw [rootino]; omega)) (by decide) hj

theorem contentsOf_none {files : List HostFile} {i : Nat} (hi : i = 0 ∨ 2 + files.length ≤ i) :
    contentsOf files i = [] := by
  obtain rfl | hHigh := hi
  · rw [contentsOf, added_low (by decide) (by decide)]
    exact onlyDots (by decide)
  · rw [contentsOf, added_high (by decide) hHigh]
    exact onlyDots (by rw [rootino]; omega)

theorem room_contentsOf {files : List HostFile} (hInodes : files.length + 2 ≤ ninodes)
    (hLen : ∀ f ∈ files, f.contents.length ≤ maxfile * bsize) (hBlocks : metablocks + blocksNeeded files ≤ size) :
    Room (contentsOf files) := by
  refine ⟨fun i _ => ?_, (total_contentsOf hInodes).trans_le hBlocks⟩
  by_cases hRoot : i = rootino
  · have hNumber : ninodes = 200 := rfl
    have hMax : maxfile * bsize = 71680 := rfl
    have hDirent : direntSz = 16 := rfl
    rw [hRoot, length_contentsOf_root, hDirent, hMax]
    omega
  · by_cases hFile : i = 0 ∨ 2 + files.length ≤ i
    · rw [contentsOf_none hFile]
      exact Nat.zero_le _
    · rw [rootino] at hRoot
      obtain ⟨j, rfl⟩ : ∃ j, i = 2 + j := ⟨i - 2, by omega⟩
      have hj : j < files.length := by omega
      rw [contentsOf_file hj]
      exact hLen _ (List.getElem_mem hj)

end Xv6Rpi.Mkfs
