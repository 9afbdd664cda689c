import Xv6Rpi.Handles.Room
import Xv6Rpi.Mkfs.Kernel

/-! # From mkfs to any run of the kernel

The image that mkfs writes is one that the kernel's invariants hold of, and mkfs marks every block before the data area. So while
there is a free block in the data area whenever one is searched for, the search ends there, whatever calls are made: no file ever
gets a block of the metadata or of the log.
-/

namespace Xv6Rpi.Mkfs

open Fs Prog

section Image

variable {m : Mk} {files : List HostFile} {i : Nat}

theorem map_bytes_of_getD {l es : List UInt8} {f : Nat → UInt8} {n k : Nat} (hf : ∀ j < n, f j = l.getD (k + j) 0)
    (hl : ∀ j < n, l.getD (k + j) 0 = es.getD j 0) (hLen : es.length = n) : (List.range n).map f = es := by
  refine List.ext_getElem (by rw [List.length_map, List.length_range, hLen]) fun j hj hj' => ?_
  rw [List.length_map, List.length_range] at hj
  rw [List.getElem_map, List.getElem_range, hf j hj, hl j hj, List.getD_eq_getElem _ _ hj']

/-- The number in an entry of the root directory; behind the entries there are zeros. -/
theorem Made.finish_dirent (h : Made m (contentsOf files)) (hType : (dinodeOf (finish m).disk rootino).type ≠ 0)
    (hInodes : files.length + 2 ≤ ninodes) (hi : direntSz * i + direntSz ≤ maxfile * bsize) :
    (dirent (fileOf (finish m).disk (dinodeOf (finish m).disk rootino)) i).inum < ninodes := by
  have hByte : ∀ j < direntSz, (fileOf (finish m).disk (dinodeOf (finish m).disk rootino)).byte (direntSz * i + j) =
      (dirBytes (entriesOf files)).getD (direntSz * i + j) 0 := fun j hj => by
    have hOff : direntSz * i + j < maxfile * bsize := by omega
    rw [fileOf, if_neg hType]
    dsimp only
    rw [if_pos hOff, h.finish_byte (by decide) hOff, contentsOf_root]
  rw [dirent]
  by_cases hEntry : i < (entriesOf files).length
  · rw [map_bytes_of_getD hByte (fun j hj => getD_dirBytes hEntry hj) (length_encodeDirent ..)]
    have hSmall : (entriesOf files)[i].1 < ninodes := by
      have hAll : ∀ e ∈ entriesOf files, e.1 < ninodes := by
        rw [entriesOf, List.forall_mem_cons, List.forall_mem_cons]
        refine ⟨by decide, by decide, fun e he => ?_⟩
        have := numbered_inums e he
        omega
      exact hAll _ (List.getElem_mem hEntry)
    rw [decodeDirent_inum (Nat.lt_trans hSmall (by decide))]
    exact hSmall
  · have hZero : ∀ j < direntSz, (dirBytes (entriesOf files)).getD (direntSz * i + j) 0 = (List.replicate direntSz 0).getD j 0 := by
      intro j hj
      have hLen : (dirBytes (entriesOf files)).length ≤ direntSz * i + j := by
        have hMul := Nat.mul_le_mul_left direntSz (Nat.le_of_not_lt hEntry)
        rw [length_dirBytes]
        omega
      rw [List.getD_eq_default _ _ hLen, List.getD_eq_getElem _ _ (by rwa [List.length_replicate]), List.getElem_replicate]
    rw [map_bytes_of_getD hByte hZero (List.length_replicate ..), decodeDirent_zeros]
    decide

/-- The image that mkfs writes is one that the kernel's invariants hold of. -/
theorem Made.finish_good (h : Made m (contentsOf files)) (hFree : m.freeinode = files.length + 2) (hFits : Fits files) :
    GoodImage sb (finish m).disk := by
  have hInodes := hFits.inodes
  have hConsistent : Consistent (finish m) := (h.consistent_iff hFree hInodes).mpr hFits
  have hRootino : rootino < m.freeinode := by
    have : rootino = 1 := rfl
    omega
  have hSize := h.finish_size (show rootino < ninodes by decide) le_rfl hRootino
  rw [if_pos rfl] at hSize
  have hRootOf : ∀ k < sb.ninodes, (dinodeOf (finish m).disk k).type = tDir → k = rootino := fun k hk hDir => by
    have hType := h.finish_type hk
    have hUsed := h.used_of_type hk (by rw [← hType, hDir]; decide)
    rw [hDir, h.type hk hUsed.1 hUsed.2, typeOf] at hType
    by_contra hNe
    rw [if_neg hNe] at hType
    exact absurd hType (by decide)
  refine ⟨⟨hConsistent.once, fun b hb => ⟨fun hBit => ?_, ?_⟩⟩, fun q hq hNz => (hConsistent.area q hq hNz).1,
    fun k hk hType => ⟨hConsistent.full k hk hType, fun hDir => ?_, fun hDir i name v hEntry => ?_⟩⟩
  · rw [finish_bit m (Nat.lt_of_lt_of_le hb.2 (Nat.sub_le ..)), decide_eq_true_eq, h.used] at hBit
    obtain ⟨j, hj, p, hp, hEq⟩ := h.table.onto b hb.1 hBit
    exact ⟨(j, p), ⟨hj, hp⟩, by rw [h.finish_ptrOf ⟨hj, hp⟩, hEq]⟩
  · rintro ⟨q, hq, rfl⟩
    refine (hConsistent.area q hq fun hZero => ?_).2
    rw [hZero] at hb
    exact absurd hb.1 (by decide)
  · obtain rfl := hRootOf k hk hDir
    rw [hSize]
    exact Dvd.dvd.mul_left (by decide) _
  · obtain rfl := hRootOf k hk hDir
    rw [entries] at hEntry
    by_cases hIn : i < (fileOf (finish m).disk (dinodeOf (finish m).disk rootino)).size / direntSz ∧
        (dirent (fileOf (finish m).disk (dinodeOf (finish m).disk rootino)) i).inum ≠ 0
    · rw [if_pos hIn] at hEntry
      obtain ⟨-, rfl⟩ := Prod.mk.inj (Option.some.inj hEntry)
      refine h.finish_dirent hType hInodes ?_
      have hFull := (hConsistent.full rootino hk hType).size
      have hLow : i < (dinodeOf (finish m).disk rootino).size / direntSz := by
        have hLt := hIn.1
        rw [fileOf, if_neg hType] at hLt
        exact hLt
      have hMul := Nat.mul_le_of_le_div _ _ _ (Nat.succ_le_of_lt hLow)
      rw [Nat.mul_comm, Nat.mul_succ] at hMul
      exact hMul.trans hFull
    · rw [if_neg hIn] at hEntry
      cases hEntry

end Image

section Runs

open Handles (RoomyTurns Turns DirsKept CrashSafe BootedOn bootOn bootOn_booted World)

variable {files : List HostFile} {m : Mk}

theorem geom_sb : Geom sb := ⟨by decide, by decide, by decide⟩

theorem mkfs_booted (hRun : mkfs files = .ok ((), m)) (hFits : Fits files) :
    BootedOn sb (bootOn sb m.disk) ∧ (LowBits.marked sb).holds (home (bootOn sb m.disk).fs) := by
  obtain ⟨m₀, rfl, h₀, hFree, -⟩ := mkfs_made hRun hFits.inodes
  have hSuper : decodeSb ((finish m₀).disk 1) = sb := by
    rw [h₀.finish_one]
    decide
  have hBooted := bootOn_booted geom_sb hSuper (h₀.finish_good hFree hFits)
  refine ⟨hBooted, fun b hb => ?_⟩
  have hSize : b < size := hb.trans (by decide)
  have hBlock : bblock b sb.ninodes < dataStart sb := bblock_lt hSize
  have hBitmap : ¬(bootOn sb (finish m₀).disk).fs.log.Holds (bblock b sb.ninodes) :=
    hBooted.mounted.not_holds (hBlock.trans_le geom_sb.fits)
  have hHome : bit sb (home (bootOn sb (finish m₀).disk).fs) b = bit sb (finish m₀).disk b := by
    rw [bit, home_of_not_holds hBitmap]
    rfl
  rw [hHome]
  have hMeta : metablocks ≤ m₀.freeblock := by
    rw [h₀.count, total]
    exact Nat.le_add_right ..
  exact finish_bit_lt h₀ (lt_of_lt_of_le hb hMeta)

/-- In every state that the kernel comes to while a block of the data area is free whenever one is searched for, such a search
ends there. -/
theorem mkfs_runs (files : List HostFile) (hFits : Fits files) (m : Mk) (hRun : mkfs files = .ok ((), m)) (w : World)
    (hTurns : RoomyTurns sb (bootOn sb m.disk) w) :
    (∀ p (k : Handles.Call), Handles.Live (w.tbl.proc p).state → (k.prog p).along (fun l w => HasRoom sb l w.fs) w →
      (k.prog p).along (fun l w => AllocsInData sb l w.fs) w) ∧
    Turns sb (bootOn sb m.disk) w ∧ DirsKept sb w ∧ CrashSafe sb w ∧ ∀ b < dataStart sb, bit sb (home w.fs) b = true := by
  obtain ⟨hBooted, hLow⟩ := mkfs_booted hRun hFits
  have hStands := hBooted.stands geom_sb (by decide) hLow
  obtain ⟨h, hAll⟩ := hStands.roomyTurns geom_sb (by decide) hTurns
  have hAny := (hBooted.stands geom_sb (by decide) (M := LowBits.any sb) trivial).turns geom_sb (by decide) hAll
  exact ⟨fun p k hLive hMay => h.searches geom_sb (by decide) hLive k hMay, hAll, hAny.dirsKept geom_sb,
    hAny.crashSafe geom_sb (by decide), h.fit.low⟩

/-- The first process makes a pipe, and in a transaction it finds that the root directory cannot be made. -/
def firstPipe : Handles.Call := .pipe true (some (0, fun _ => 0))

def makeRoot : Handles.Call := .mkdir (some [slash])

theorem roomyTurns_firstCalls (d : Disk) :
    RoomyTurns sb (bootOn sb d) (Handles.after makeRoot (Handles.after firstPipe (bootOn sb d))) := by
  have hPipe : ((firstPipe.prog 0).run (bootOn sb d)).toOption.isSome = true := by rfl
  have hPipeMay : (firstPipe.prog 0).along (fun l w => HasRoom sb l w.fs) (bootOn sb d) := of_decide_eq_true (by rfl)
  have hMake : ((makeRoot.prog 0).run (Handles.after firstPipe (bootOn sb d))).toOption.isSome = true := by rfl
  have hMakeMay : (makeRoot.prog 0).along (fun l w => HasRoom sb l w.fs) (Handles.after firstPipe (bootOn sb d)) :=
    of_decide_eq_true (by rfl)
  obtain ⟨r₁, hRun₁⟩ := Handles.after_run hPipe
  obtain ⟨r₂, hRun₂⟩ := Handles.after_run hMake
  exact .tail (.single (.call (Or.inr (Or.inl rfl)) hPipeMay hRun₁)) (.call (Or.inr (Or.inl rfl)) hMakeMay hRun₂)

/-- After these calls the process may make a directory, for which a block is searched for. -/
theorem mkfs_runs_greeting : ∃ m w, mkfs [greeting] = .ok ((), m) ∧ RoomyTurns sb (bootOn sb m.disk) w ∧
    (w.fs.proc 0).ofile 1 = some 1 ∧ CrashSafe sb w ∧ DirsKept sb w ∧
    (((Handles.Call.mkdir (some [100])).prog 0).along (fun l w => HasRoom sb l w.fs) w →
      ((Handles.Call.mkdir (some [100])).prog 0).along (fun l w => AllocsInData sb l w.fs) w) := by
  obtain ⟨m, hRun⟩ : ∃ m, mkfs [greeting] = .ok ((), m) := mkfs_ok (by decide) (by decide) (by decide) (by decide)
  have hFits : Fits [greeting] := ⟨by decide, by decide, by decide⟩
  have hTurns := roomyTurns_firstCalls m.disk
  obtain ⟨hSearches, -, hDirs, hSafe, -⟩ := mkfs_runs [greeting] hFits m hRun _ hTurns
  exact ⟨m, _, hRun, hTurns, by rfl, hSafe, hDirs, hSearches 0 _ (Or.inr (Or.inl rfl))⟩

end Runs

end Xv6Rpi.Mkfs
