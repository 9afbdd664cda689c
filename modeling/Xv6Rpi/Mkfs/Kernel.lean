import Xv6Rpi.Mkfs.Consistent

/-! # What the kernel finds in the image

The kernel mounts the image and looks a file up by its name: it reads the super block of
another program, the inodes that `winode` stored and the blocks that `iappend` filled.
-/

namespace Xv6Rpi.Mkfs

open Fs Prog

/-- The name that a file gets: at most `DIRSIZ` bytes of it. -/
def HostFile.name (f : HostFile) : List UInt8 := (fileName f.arg).take dirsiz

/-! ## Names in the root directory -/

section Names

variable {files : List HostFile} {f g : HostFile} {n j : Nat}

theorem cstr_of_string {name : List UInt8} (h : 0 ∉ name) : cstr name = name.take dirsiz := by
  rw [cstr, List.takeWhile_eq_self_iff]
  intro c hc
  rw [decide_eq_true_eq]
  rintro rfl
  exact h (List.mem_of_mem_take hc)

theorem string_fileName (f : HostFile) : 0 ∉ fileName f.arg := by
  rw [fileName]
  split
  · exact fun hc => f.string (List.mem_of_mem_tail hc)
  · exact f.string

theorem cstr_fileName (f : HostFile) : cstr (fileName f.arg) = f.name := cstr_of_string (string_fileName f)

theorem cstr_name (f : HostFile) : cstr f.name = f.name := by
  have hName : 0 ∉ f.name := fun hc => string_fileName f (List.mem_of_mem_take hc)
  rw [cstr_of_string hName, HostFile.name, List.take_take, Nat.min_self]

theorem namecmp_fileName : namecmp g.name (fileName f.arg) = decide (g.name = f.name) := by
  rw [namecmp, cstr_name, cstr_fileName]
  exact Bool.beq_eq_decide_eq _ _

theorem findEntry_numbered (hn : n ≠ 0) (hNames : (files.map HostFile.name).Nodup) (hj : j < files.length) :
    findEntry (numbered n files) files[j].name = some (n + j, fileName files[j].arg) := by
  induction files generalizing n j with
  | nil => exact absurd hj (Nat.not_lt_zero j)
  | cons f fs ih =>
    rw [List.map_cons, List.nodup_cons] at hNames
    rw [findEntry, numbered, List.find?_cons, namecmp_fileName]
    cases j with
    | zero =>
      have hHere : (decide (n ≠ 0) && decide ((f :: fs)[0].name = f.name)) = true := by simp [hn]
      rw [hHere]
      rfl
    | succ j =>
      have hjs : j < fs.length := Nat.lt_of_succ_lt_succ hj
      have hOther : ¬fs[j].name = f.name := fun hEq =>
        hNames.1 (hEq ▸ List.mem_map_of_mem (List.getElem_mem hjs))
      have hNot : (decide (n ≠ 0) && decide ((f :: fs)[j + 1].name = f.name)) = false := by
        rw [List.getElem_cons_succ, decide_eq_false hOther, Bool.and_false]
      have hNext : n + (j + 1) = n + 1 + j := by omega
      rw [hNot, hNext]
      exact ih n.succ_ne_zero hNames.2 hjs

theorem findEntry_file (hNames : (files.map HostFile.name).Nodup) (hj : j < files.length)
    (hDot : files[j].name ≠ dot) (hDotdot : files[j].name ≠ dotdot) :
    findEntry (entriesOf files) files[j].name = some (2 + j, fileName files[j].arg) := by
  have hNot (name : List UInt8) (hName : cstr name = name) (hne : files[j].name ≠ name) :
      (decide (rootino ≠ 0) && namecmp files[j].name name) = false := by
    rw [namecmp, cstr_name, hName, beq_eq_false_iff_ne.mpr hne, Bool.and_false]
  rw [findEntry, entriesOf, List.find?_cons, hNot dot (by decide) hDot, List.find?_cons, hNot dotdot (by decide) hDotdot]
  exact findEntry_numbered (by decide) hNames hj

theorem numbered_inums : ∀ e ∈ numbered n files, e.1 < n + files.length := by
  induction files generalizing n with
  | nil => exact fun e he => absurd he List.not_mem_nil
  | cons f fs ih =>
    rw [numbered, List.forall_mem_cons, List.length_cons]
    exact ⟨by omega, fun e he => by have := ih e he; omega⟩

end Names

/-! ## Inodes of the image -/

section Inodes

variable {m : Mk} {c : Nat → List UInt8} {i off : Nat} {files : List HostFile}

theorem Made.finish_byte (h : Made m c) (hi : i < ninodes) (hOff : off < maxfile * bsize) :
    byteAt (finish m).disk (dinodeOf (finish m).disk i) off = (c i).getD off 0 := by
  rw [← h.table.bytes i hi off hOff, byteAt, byteAt, h.finish_ptr hi]
  split
  · rfl
  · next hNz =>
    have hPos : posOf (off / bsize) < npos := posOf_lt (Nat.div_lt_of_lt_mul (by rwa [Nat.mul_comm]))
    rw [finish_high m (h.table.area i hi _ hPos hNz).1]

theorem Made.finish_mapped (h : Made m c) (hi : i < ninodes) (hOff : off < (c i).length) :
    ptr (finish m).disk (dinodeOf (finish m).disk i) (posOf (off / bsize)) ≠ 0 := by
  have hBn : off / bsize < maxfile := Nat.div_lt_of_lt_mul (by
    rw [Nat.mul_comm]
    exact hOff.trans_le (h.fits i hi))
  rw [h.finish_ptr hi, h.mapped i hi _ (posOf_lt hBn), needs_posOf]
  exact (Nat.div_mul_le_self off bsize).trans_lt hOff

theorem Made.finish_nlink (h : Made m c) (hi : i < ninodes) (hLow : 1 ≤ i) (hUsed : i < m.freeinode) :
    (dinodeOf (finish m).disk i).nlink = 1 := by
  have hLink : (dinodeOf m.disk i).nlink = 1 := by rw [h.files i hi hLow hUsed, fileDi]
  rw [h.finish_inode hi]
  split
  · next hEq =>
    rw [← hLink, hEq]
    rfl
  · exact hLink

theorem Made.hasEntries (h : Made m (contentsOf files)) (hInodes : files.length + 2 ≤ ninodes)
    (hFree : m.freeinode = files.length + 2) :
    HasEntries (finish m).disk (dinodeOf (finish m).disk rootino) (entriesOf files) := by
  have hRoot : rootino < ninodes := by decide
  have hUsed : rootino < m.freeinode := by
    have : rootino = 1 := rfl
    omega
  have hLen := length_contentsOf_root files
  have hBytes := contentsOf_root files
  have hSize := h.finish_size hRoot le_rfl hUsed
  rw [if_pos rfl, hLen] at hSize
  rw [hBytes] at hLen
  have hNumber : ninodes = 200 := rfl
  have hMax : maxfile * bsize = 71680 := rfl
  have hDirent : direntSz = 16 := rfl
  have hBsize : bsize = 512 := rfl
  rw [hDirent, hBsize] at hSize
  rw [hDirent] at hLen
  refine ⟨?_, ?_, ?_, ?_, fun j hj => ?_, fun j hj => ?_⟩
  · rw [h.finish_type hRoot, h.type hRoot le_rfl hUsed]
    rfl
  · rw [hSize, hMax]
    omega
  · rw [hSize, hLen]
    omega
  · rw [entriesOf, List.forall_mem_cons, List.forall_mem_cons]
    refine ⟨by decide, by decide, fun e he => ?_⟩
    have := numbered_inums e he
    omega
  · rw [← hBytes] at hj
    exact h.finish_mapped hRoot hj
  · rw [h.finish_byte hRoot (by omega), hBytes]

end Inodes

/-! ## The kernel's view -/

/-- The files can be told apart by their names and fit into the image. -/
structure Agreeable (files : List HostFile) : Prop where
  distinct : (files.map HostFile.name).Nodup
  nonempty : ∀ f ∈ files, f.name ≠ []
  special : ∀ f ∈ files, f.name ≠ dot ∧ f.name ≠ dotdot
  lengths : ∀ f ∈ files, f.contents.length ≤ maxfile * bsize
  inodes : files.length + 2 ≤ ninodes
  blocks : blocksNeeded files ≤ nblocks

/-- What `namei`, `ilock` and `readi` make of a file's name. -/
def Finds (s : Kern) (p : Nat) (path : List UInt8) (type : Nat) (bytes : List UInt8) : Prop :=
  ∃ ip s₁ s₂ s₃, (namei p path).run s = .ok (some ip, s₁) ∧ (ilock ip).run s₁ = .ok ((), s₂) ∧
    (s₂.inode ip).di.type = type ∧ (s₂.inode ip).di.size = bytes.length ∧
    (readi ip 0 bytes.length).run s₂ = .ok (some bytes, s₃)

/-- A state after booting from a disk: nothing is in use. -/
def booted (d : Disk) : Kern where
  disk := d
  held _ := false
  log := logOf (readsb d)
  inode _ := ⟨0, 0, false, false, .zero⟩
  file _ := ⟨.none, 0, false, false, 0, 0⟩
  proc _ := ⟨fun _ => none, none⟩
  devsw _ := none

theorem untouched_booted (d : Disk) : Untouched d none (booted d) where
  disk := rfl
  held _ := rfl
  refs _ _ := le_rfl
  locked _ h := absurd h (Option.some_ne_none _).symm
  busy _ _ h := absurd h (lt_irrefl _)
  synced _ _ h := absurd h (lt_irrefl _)

theorem twoSpare_booted (d : Disk) : TwoSpare (booted d) :=
  ⟨0, by decide, 1, by decide, Nat.zero_ne_one, rfl, rfl⟩

section Agree

variable {files : List HostFile} {m : Mk} {s : Kern}

theorem slash_not_mem_name {f : HostFile} (h : slash ∉ f.arg) : slash ∉ f.name := by
  intro hIn
  have hFile : slash ∈ fileName f.arg := List.mem_of_mem_take hIn
  rw [fileName] at hFile
  split at hFile
  · exact h (List.mem_of_mem_tail hFile)
  · exact h hFile

/-- The kernel finds every file of the image by its name and reads the bytes of the host's. -/
theorem mkfs_kernel_agree (files : List HostFile) (h : Agreeable files) (m : Mk) (hRun : mkfs files = .ok ((), m))
    (s : Kern) (hUntouched : Untouched m.disk none s) (hRoom : TwoSpare s) (p : Nat) (f : HostFile) (hf : f ∈ files) :
    Finds s p (slash :: f.name) tFile f.contents := by
  obtain ⟨m₀, rfl, h₀, hFree, hSlash⟩ := mkfs_made hRun h.inodes
  obtain ⟨j, hj, rfl⟩ := List.getElem_of_mem hf
  have hRootUsed : rootino < m₀.freeinode := by
    have : rootino = 1 := rfl
    omega
  have hIn : 2 + j < ninodes := by
    have := h.inodes
    omega
  have hUsed : 2 + j < m₀.freeinode := by omega
  have hne : ¬2 + j = rootino := by
    rw [rootino]
    omega
  have hContents := contentsOf_file hj
  set di := dinodeOf (finish m₀).disk (2 + j) with hdi
  have hType : di.type = tFile := by
    rw [hdi, h₀.finish_type hIn, h₀.type hIn (by omega) hUsed, typeOf, if_neg hne]
  have hSize : di.size = files[j].contents.length := by
    rw [hdi, h₀.finish_size hIn (by omega) hUsed, if_neg hne, hContents]
  have hNotDev : di.type ≠ tDev := by
    rw [hType]
    decide
  have hLink : (dinodeOf (finish m₀).disk rootino).nlink ≠ 0 := by
    rw [h₀.finish_nlink (i := rootino) (by decide) le_rfl hRootUsed]
    exact Nat.one_ne_zero
  obtain ⟨ip, s₁, hName, h₁, hIp, hInum, hRef⟩ := hUntouched.run_namei hRoom (h₀.hasEntries h.inodes hFree) hLink (h.nonempty _ hf)
    (slash_not_mem_name (hSlash _ hf)) (e := (2 + j, fileName files[j].arg)) (by
      rw [HostFile.name, List.take_take, Nat.min_self]
      exact findEntry_file h.distinct hj (h.special _ hf).1 (h.special _ hf).2) p
  dsimp only at hInum
  obtain ⟨x, hLock, h₂, -, -, -, hx⟩ := h₁.run_ilock hIp hRef (by
    rw [hInum, ← hdi, hType]
    decide)
  rw [hInum, ← hdi] at hx
  have hCopy : ((Fs.setInode s₁ ip x).inode ip).di = di := by rw [setInode_self, hx]
  refine ⟨ip, s₁, Fs.setInode s₁ ip x, Fs.setInode s₁ ip x, hName, hLock, by rw [hCopy, hType], by rw [hCopy, hSize], ?_⟩
  have hLen : files[j].contents.length ≤ maxfile * bsize := h.lengths _ hf
  rw [run_readi h₂.held (by rw [hCopy, hSize]; exact hLen) (by rwa [hCopy]) (by rw [hCopy, hSize, Nat.zero_add]) fun k hk => ?_]
  · have hBytes : (List.range files[j].contents.length).map
        (fun k => byteAt (Fs.setInode s₁ ip x).disk ((Fs.setInode s₁ ip x).inode ip).di (0 + k)) = files[j].contents := by
      apply List.ext_getElem
      · rw [List.length_map, List.length_range]
      · intro k hk hk'
        rw [List.getElem_map, List.getElem_range, Nat.zero_add, hCopy, h₂.disk, hdi, h₀.finish_byte hIn (hk'.trans_le hLen),
          hContents, List.getD_eq_getElem _ _ hk']
    rw [hBytes]
  · rw [hCopy, h₂.disk, Nat.zero_add]
    exact h₀.finish_mapped hIn (by rwa [hContents])

theorem mkfs_boot (h : Agreeable files) (hRun : mkfs files = .ok ((), m)) : Writes.apply (initlog m.disk) m.disk = m.disk := by
  obtain ⟨m₀, rfl, h₀, -⟩ := mkfs_made hRun h.inodes
  have hSb : readsb (finish m₀).disk = sb := by
    rw [readsb, h₀.finish_one]
    decide
  have hStart : (logOf sb).start = 1014 := by decide
  have hHead : (finish m₀).disk 1014 = zeroBlock := by
    rw [finish_high m₀ (by decide)]
    refine h₀.table.fresh _ ?_
    have hCount := h₀.count.trans (total_contentsOf h.inodes)
    have hBlocks := h.blocks
    have hMeta : metablocks + nblocks = 1014 := rfl
    omega
  have hZero : setWord zeroBlock 0 0 = zeroBlock := by
    funext k
    rw [setWord, setInt]
    split
    · rw [Nat.zero_div]
      rfl
    · rfl
  have hNone : loopBound (getWord zeroBlock 0) = 0 := by decide
  rw [initlog, hSb]
  simp only [recoverFromLog, readHead, installTrans, hStart, hHead, hNone, installFrom, List.nil_append, Writes.apply, writeHead,
    putSectors, List.foldl_cons, List.foldl_nil, hZero]
  rw [← hHead]
  exact Function.update_eq_self ..

/-- A program named `_c` that needs an indirect block, read in pieces that are no blocks. -/
def bigProgram : HostFile :=
  ⟨[95, 99], List.replicate 20 (List.replicate 400 7), by decide, fun _ hIn => by
    rw [List.eq_of_mem_replicate hIn, List.length_replicate]
    decide⟩

theorem mkfs_kernel_agree_greeting : ∃ m, mkfs [greeting, bigProgram] = .ok ((), m) ∧
    Finds (booted m.disk) 0 [slash, 104, 105] tFile [104, 105] ∧
    Finds (booted m.disk) 0 [slash, 99] tFile (List.replicate 8000 7) := by
  have hFiles : Agreeable [greeting, bigProgram] :=
    ⟨by decide, by decide, by decide, by decide +kernel, by decide, by decide +kernel⟩
  obtain ⟨m, hRun⟩ : ∃ m, mkfs [greeting, bigProgram] = .ok ((), m) :=
    mkfs_ok (by decide) (by decide) hFiles.lengths (by decide +kernel)
  have hFinds := mkfs_kernel_agree _ hFiles m hRun _ (untouched_booted m.disk) (twoSpare_booted m.disk) 0
  refine ⟨m, hRun, hFinds greeting List.mem_cons_self, ?_⟩
  have hContents : bigProgram.contents = List.replicate 8000 7 := List.flatten_replicate_replicate
  rw [← hContents]
  exact hFinds bigProgram (List.mem_cons_of_mem _ List.mem_cons_self)

/-- An empty file of the host named `_.`. -/
def dotFile : HostFile := ⟨[95, 46], [], by decide, sizes_nil⟩

/-- Its name leads to the root directory. -/
theorem mkfs_dot_file : ∃ m, mkfs [dotFile] = .ok ((), m) ∧
    ∃ ip s₁ s₂, (namei 0 (slash :: dotFile.name)).run (booted m.disk) = .ok (some ip, s₁) ∧
      (ilock ip).run s₁ = .ok ((), s₂) ∧ (s₂.inode ip).di.type = tDir := by
  obtain ⟨m, hRun⟩ : ∃ m, mkfs [dotFile] = .ok ((), m) := mkfs_ok (by decide) (by decide) (by decide) (by decide)
  obtain ⟨m₀, rfl, h₀, hFree, hSlash⟩ := mkfs_made hRun (by decide)
  have hRootUsed : rootino < m₀.freeinode := by
    rw [hFree]
    decide
  have hEntries := h₀.hasEntries (by decide) hFree
  have hLink : (dinodeOf (finish m₀).disk rootino).nlink ≠ 0 := by
    rw [h₀.finish_nlink (i := rootino) (by decide) le_rfl hRootUsed]
    exact Nat.one_ne_zero
  obtain ⟨ip, s₁, hName, h₁, hIp, hInum, hRef⟩ := (untouched_booted (finish m₀).disk).run_namei (twoSpare_booted _) hEntries hLink
    (show dotFile.name ≠ [] by decide) (by decide) (show findEntry _ _ = some (rootino, dot) by decide) 0
  dsimp only at hInum
  obtain ⟨x, hLock, h₂, -, -, -, hx⟩ := h₁.run_ilock hIp hRef (by
    rw [hInum, hEntries.type]
    decide)
  refine ⟨finish m₀, hRun, ip, s₁, _, hName, hLock, ?_⟩
  rw [setInode_self, hx, hInum, hEntries.type]

end Agree

end Xv6Rpi.Mkfs
