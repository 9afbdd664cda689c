import Xv6Rpi.Fs.Update

/-! # Files are byte arrays

To its users a file is a list of bytes. Any sequence of `readi` and `writei` calls, in any
transactions, does to the files what reading and replacing parts of lists does, as long
as `balloc` stays within the data area.
-/

namespace Xv6Rpi.Fs

open Prog

def AFile.contents (f : AFile) : List UInt8 := (List.range f.size).map f.byte

def contents (s : Kern) (inum : Nat) : List UInt8 := (files s inum).contents

/-- A call on the inodes of the cache. -/
inductive FileOp where
  | beginTrans
  | commitTrans
  | readi (ip off n : Nat)
  | writei (ip : Nat) (src : List UInt8) (off : Nat)

inductive Ret where
  | unit
  | bytes (r : Option (List UInt8))
  | count (r : Option Nat)
  deriving DecidableEq, Repr

def FileOp.prog : FileOp → FsM Ret
  | .beginTrans => do
    beginTransK
    return .unit
  | .commitTrans => do
    commitTransK
    return .unit
  | .readi ip off n => do
    let r ← Fs.readi ip off n
    return .bytes r
  | .writei ip src off => do
    let r ← Fs.writei ip src off
    return .count r

def runOps : List FileOp → FsM (List Ret)
  | [] => do return []
  | op :: ops => do
    let r ← op.prog
    let rs ← runOps ops
    return r :: rs

section Arrays

/-- The call on byte arrays, which are named by inode numbers; `inum` is the number of
the inode in a cache entry. -/
def FileOp.spec (inum : Nat → Nat) (A : Nat → List UInt8) : FileOp → Ret × (Nat → List UInt8)
  | .beginTrans => (.unit, A)
  | .commitTrans => (.unit, A)
  | .readi ip off n =>
    if off ≤ (A (inum ip)).length ∧ off + n < 2 ^ 32 then
      (.bytes (some (((A (inum ip)).drop off).take n)), A)
    else (.bytes none, A)
  | .writei ip src off =>
    if off ≤ (A (inum ip)).length ∧ off + src.length ≤ maxfile * bsize then
      (.count (some src.length), Function.update A (inum ip)
        ((A (inum ip)).take off ++ src ++ (A (inum ip)).drop (off + src.length)))
    else (.count none, A)

def specOps (inum : Nat → Nat) (A : Nat → List UInt8) : List FileOp → List Ret × (Nat → List UInt8)
  | [] => ([], A)
  | op :: ops =>
    let r := op.spec inum A
    let rs := specOps inum r.2 ops
    (r.1 :: rs.1, rs.2)

variable {f : AFile} {off n : Nat} {src : List UInt8}

@[simp] theorem AFile.length_contents (f : AFile) : f.contents.length = f.size := by
  simp [AFile.contents]

theorem AFile.read_eq (f : AFile) (off n : Nat) : f.read off n = (f.contents.drop off).take n := by
  apply List.ext_getElem
  · simp only [AFile.read, List.length_map, List.length_range, List.length_take, List.length_drop,
      AFile.length_contents]
    omega
  · intro i h1 h2
    simp [AFile.read, AFile.contents]

theorem AFile.contents_write (hOff : off ≤ f.size) :
    (f.write off src).contents = f.contents.take off ++ src ++ f.contents.drop (off + src.length) := by
  apply List.ext_getElem
  · simp only [AFile.write, AFile.length_contents, List.length_append, List.length_take, List.length_drop]
    omega
  · intro i h1 h2
    have hLen : (f.contents.take off).length = off := by
      rw [List.length_take, AFile.length_contents]
      omega
    have hLeft : (f.write off src).contents[i] = patch f.byte off src i := by
      simp [AFile.contents, AFile.write]
    rw [hLeft]
    by_cases hLow : i < off
    · rw [patch_of_not_mem (Or.inl hLow), List.getElem_append_left (by rw [List.length_append]; omega),
        List.getElem_append_left (by omega)]
      simp [AFile.contents]
    · by_cases hMid : i < off + src.length
      · rw [patch_of_mem (by omega) (by omega), List.getElem_append_left (by rw [List.length_append]; omega),
          List.getElem_append_right (by omega)]
        simp only [hLen]
      · have hApp : (f.contents.take off ++ src).length = off + src.length := by
          rw [List.length_append, hLen]
        rw [patch_of_not_mem (Or.inr (by omega)), List.getElem_append_right (by omega)]
        simp only [AFile.contents, List.getElem_drop, List.getElem_map, List.getElem_range, List.length_append,
          List.length_take, List.length_map, List.length_range]
        congr 1
        omega

end Arrays

/-- The call is on a file that is in the cache, with arguments in the range of their types. -/
def FileOp.Ok (s : Kern) : FileOp → Prop
  | .beginTrans => True
  | .commitTrans => True
  | .readi ip off n => LiveSlot s ip ∧ (s.inode ip).di.type ≠ 0 ∧ (s.inode ip).di.type ≠ tDev ∧
    off < 2 ^ 32 ∧ n < 2 ^ 32
  | .writei ip src off => LiveSlot s ip ∧ (s.inode ip).di.type ≠ 0 ∧ (s.inode ip).di.type ≠ tDev ∧
    off < 2 ^ 32 ∧ src.length < 2 ^ 32

/-- A search for a free block ends in the data area. -/
def AllocsInData (sb : Superblock) (l : Label) (s : Kern) : Prop :=
  match l with
  | .balloc => AllocInData sb (home s)
  | _ => True

instance (sb : Superblock) : (l : Label) → (s : Kern) → Decidable (AllocsInData sb l s)
  | .balloc, s => inferInstanceAs (Decidable (AllocInData sb (home s)))
  | .step, _ | .logWrite, _ | .beginTrans, _ | .commitTrans, _ | .iput _, _ | .bmap _ _, _ | .indirect _ _, _ =>
    .isTrue trivial

section Ops

variable {sb : Superblock} {s s₁ s' : Kern} {ip : Nat}

structure KeepsSlots (s s' : Kern) : Prop where
  live : ∀ ip, LiveSlot s ip → LiveSlot s' ip
  inum : ∀ ip, (s'.inode ip).inum = (s.inode ip).inum
  type : ∀ ip, LiveSlot s ip → (s'.inode ip).di.type = (s.inode ip).di.type

theorem KeepsSlots.refl (s : Kern) : KeepsSlots s s := ⟨fun _ h => h, fun _ => rfl, fun _ _ => rfl⟩

theorem KeepsSlots.trans (h : KeepsSlots s s₁) (h' : KeepsSlots s₁ s') : KeepsSlots s s' :=
  ⟨fun ip hl => h'.live ip (h.live ip hl), fun ip => (h'.inum ip).trans (h.inum ip),
    fun ip hl => (h'.type ip (h.live ip hl)).trans (h.type ip hl)⟩

theorem KeepsSlots.of_inode (h : s'.inode = s.inode) : KeepsSlots s s' :=
  ⟨fun _ hl => hl.congr h, fun _ => by rw [h], fun _ _ => by rw [h]⟩

theorem KeepsSlots.ok (h : KeepsSlots s s') {op : FileOp} (hOp : op.Ok s) : op.Ok s' := by
  cases op with
  | beginTrans => trivial
  | commitTrans => trivial
  | readi ip off n =>
    obtain ⟨hl, hType, hDev, hArgs⟩ := hOp
    exact ⟨h.live ip hl, by rwa [h.type ip hl], by rwa [h.type ip hl], hArgs⟩
  | writei ip src off =>
    obtain ⟨hl, hType, hDev, hArgs⟩ := hOp
    exact ⟨h.live ip hl, by rwa [h.type ip hl], by rwa [h.type ip hl], hArgs⟩

theorem fileOf_type (d : Disk) (di : Dinode) : (fileOf d di).type = di.type := by
  rw [fileOf]
  by_cases hz : di.type = 0
  · rw [if_pos hz, hz]
    rfl
  · rw [if_neg hz]

/-- A function that changes one copy, but no type. -/
theorem KeepsSlots.of_slot (hC : CacheInv sb s) (hC' : CacheInv sb s')
    (hOthers : ∀ j, j ≠ ip → s'.inode j = s.inode j)
    (hSlot : s'.inode ip = { s.inode ip with di := (s'.inode ip).di })
    (hType : ∀ inum < sb.ninodes, (files s' inum).type = (files s inum).type) : KeepsSlots s s' := by
  have hFields : ∀ j, (s'.inode j).ref = (s.inode j).ref ∧ (s'.inode j).valid = (s.inode j).valid ∧
      (s'.inode j).inum = (s.inode j).inum := by
    intro j
    by_cases hj : j = ip
    · rw [hj, hSlot]
      exact ⟨rfl, rfl, rfl⟩
    · rw [hOthers j hj]
      exact ⟨rfl, rfl, rfl⟩
  have hLive : ∀ j, LiveSlot s j → LiveSlot s' j := fun j hl =>
    ⟨hl.lt, by rw [(hFields j).1]; exact hl.ref, by rw [(hFields j).2.1]; exact hl.valid⟩
  refine ⟨hLive, fun j => (hFields j).2.2, fun j hl => ?_⟩
  have := hType _ (hC.inum j hl.lt hl.ref)
  rw [files, files, fileOf_type, fileOf_type, hC.eff_live hl, ← (hFields j).2.2,
    hC'.eff_live (hLive j hl)] at this
  exact this

/-- What is left of a call when it is over: the same cache entries, its result, and files
that hold the specified contents. -/
structure Done (sb : Superblock) (s s' : Kern) (A : Nat → List UInt8) : Prop where
  sound : Sound sb s' ∅
  slots : KeepsSlots s s'
  eq : ∀ inum < sb.ninodes, contents s' inum = A inum

theorem Sound.of_home (h : Sound sb s ∅) (hInode : s'.inode = s.inode) (hHome : home s' = home s)
    (hM : Mounted sb s') : Sound sb s' ∅ := by
  have hEff : ∀ inum, eff s' inum = eff s inum := fun inum => eff_congr hInode (by rw [hHome])
  refine ⟨hM, h.cache.congr hInode, ?_⟩
  rw [hHome]
  exact h.own.congr (fun r _ => by rw [ptrOf, ptrOf, hEff]) fun _ _ => rfl

theorem Done.of_home (h : Sound sb s ∅) (hInode : s'.inode = s.inode) (hHome : home s' = home s)
    (hM : Mounted sb s') : Done sb s s' (contents s) := by
  refine ⟨h.of_home hInode hHome hM, .of_inode hInode, fun inum _ => ?_⟩
  rw [contents, contents, files, files, hHome, eff_congr hInode (by rw [hHome])]

theorem Mounted.begins (h : Mounted sb s) : Mounted sb { s with log := beginTrans s.log } :=
  ⟨h.start, h.size, h.super, ⟨h.log.size, h.log.out, h.log.inj, h.log.same⟩⟩

theorem Mounted.commits (h : Mounted sb s) (hc : Commits s s') : Mounted sb s' :=
  ⟨hc.start.trans h.start, hc.size.trans h.size, by rw [hc.home, h.super], hc.log⟩

variable {R : Rely Kern Stop Label}

theorem wp_beginTransK (hR : Allows R) {Q : Unit → Kern → Prop}
    (h : s.log.busy = false → Q () { s with log := beginTrans s.log }) : wp R beginTransK Q s := by
  rw [beginTransK, wp_single]
  refine fun _ => ⟨hR.must _ _ ⟨Label.noConfusion, Label.noConfusion⟩, ?_⟩
  cases hBusy : s.log.busy with
  | true => exact hR.stop _ (by simp) (by simp)
  | false => exact h hBusy

def LowBits.any (sb : Superblock) : LowBits sb := ⟨fun _ => True, fun _ _ _ _ => trivial⟩

theorem Sound.steady {H : Set Nat} (h : Sound sb s H) : Steady (LowBits.any sb) s H := ⟨h, trivial⟩

theorem wp_op [hC : CommitsIn R fun _ => True] (hR : Relies (LowBits.any sb) R) (hG : Geom sb) (h : Sound sb s ∅) {op : FileOp} (hOp : op.Ok s) :
    wp R op.prog (fun r s' => r = (op.spec (fun ip => (s.inode ip).inum) (contents s)).1 ∧
      Done sb s s' (op.spec (fun ip => (s.inode ip).inum) (contents s)).2) s := by
  cases op with
  | beginTrans =>
    rw [FileOp.prog, wp_bind]
    apply wp_beginTransK hR.stop
    intro _
    exact ⟨rfl, .of_home h rfl rfl h.mounted.begins⟩
  | commitTrans =>
    rw [FileOp.prog, wp_bind]
    apply wp_commitTransK hR.stop h.mounted.log fun s' _ => hC.commit s' trivial
    intro s' hc
    exact ⟨rfl, .of_home h hc.inode hc.home (h.mounted.commits hc)⟩
  | readi ip off n =>
    obtain ⟨hl, hType, hDev, hOff, hn⟩ := hOp
    have hLen : (contents s (s.inode ip).inum).length = (s.inode ip).di.size := by
      rw [contents, AFile.length_contents, h.size_eq hl hType]
    have hCan : CanRead (s.inode ip).di off n ↔
        off ≤ (contents s (s.inode ip).inum).length ∧ off + n < 2 ^ 32 := by
      rw [hLen, CanRead]
      omega
    rw [FileOp.prog, wp_bind, FileOp.spec]
    apply wp_readi hR hG h.steady hl hType hDev
    · intro hNot
      rw [hCan] at hNot
      rw [wp_pure, if_neg hNot]
      exact ⟨rfl, .of_home h rfl rfl h.mounted⟩
    · intro hIn s' hr _
      rw [hCan] at hIn
      rw [wp_pure, if_pos hIn, AFile.read_eq]
      refine ⟨rfl, hr.sound.toSound, ?_, fun inum hi => congrArg AFile.contents (hr.files inum hi)⟩
      exact .of_slot h.cache hr.sound.cache hr.touches.others hr.touches.slot
        fun inum hi => by rw [hr.files inum hi]
  | writei ip src off =>
    obtain ⟨hl, hType, hDev, hOff, hn⟩ := hOp
    have hi : (s.inode ip).inum < sb.ninodes := h.cache.inum ip hl.lt hl.ref
    have hLen : (contents s (s.inode ip).inum).length = (s.inode ip).di.size := by
      rw [contents, AFile.length_contents, h.size_eq hl hType]
    have hCan : CanWrite (s.inode ip).di off src.length ↔
        off ≤ (contents s (s.inode ip).inum).length ∧ off + src.length ≤ maxfile * bsize := by
      rw [hLen, CanWrite, CanRead, show maxfile * bsize = 71680 from rfl]
      omega
    rw [FileOp.prog, wp_bind, FileOp.spec]
    apply wp_writei hR hG h.steady hl hType hDev
    · intro hNot
      rw [hCan] at hNot
      rw [wp_pure, if_neg hNot]
      exact ⟨rfl, .of_home h rfl rfl h.mounted⟩
    · intro hIn s' hw
      have hSize : off ≤ (files s (s.inode ip).inum).size := by
        rw [h.size_eq hl hType]
        exact hIn.1.1
      rw [hCan] at hIn
      rw [wp_pure, if_pos hIn]
      refine ⟨rfl, hw.sound.toSound, ?_, fun inum hi' => ?_⟩
      · refine .of_slot h.cache hw.sound.cache hw.others hw.slot fun inum hi' => ?_
        rw [hw.files inum hi']
        split <;> rfl
      · rw [contents, hw.files inum hi']
        by_cases hEq : inum = (s.inode ip).inum
        · rw [if_pos hEq, hEq, AFile.contents_write hSize]
          dsimp only
          rw [Function.update_self]
          rfl
        · rw [if_neg hEq]
          dsimp only
          rw [Function.update_of_ne hEq]
          rfl

theorem FileOp.spec_congr {A B : Nat → List UInt8} {op : FileOp} (hOp : op.Ok s) (hC : CacheInv sb s)
    (hAB : ∀ inum < sb.ninodes, A inum = B inum) :
    (op.spec (fun ip => (s.inode ip).inum) A).1 = (op.spec (fun ip => (s.inode ip).inum) B).1 ∧
      ∀ inum < sb.ninodes, (op.spec (fun ip => (s.inode ip).inum) A).2 inum =
        (op.spec (fun ip => (s.inode ip).inum) B).2 inum := by
  cases op with
  | beginTrans => exact ⟨rfl, hAB⟩
  | commitTrans => exact ⟨rfl, hAB⟩
  | readi ip off n =>
    have hEq := hAB _ (hC.inum ip hOp.1.lt hOp.1.ref)
    simp only [FileOp.spec, hEq]
    split
    · exact ⟨rfl, hAB⟩
    · exact ⟨rfl, hAB⟩
  | writei ip src off =>
    have hEq := hAB _ (hC.inum ip hOp.1.lt hOp.1.ref)
    simp only [FileOp.spec, hEq]
    split
    · refine ⟨rfl, fun inum hi => ?_⟩
      dsimp only
      by_cases hIn : inum = (s.inode ip).inum
      · rw [hIn, Function.update_self, Function.update_self]
      · rw [Function.update_of_ne hIn, Function.update_of_ne hIn, hAB inum hi]
    · exact ⟨rfl, hAB⟩

theorem wp_runOps [CommitsIn R fun _ => True] (hR : Relies (LowBits.any sb) R) (hG : Geom sb) (h : Sound sb s ∅) {ops : List FileOp}
    (hOps : ∀ op ∈ ops, op.Ok s) {A : Nat → List UInt8} (hA : ∀ inum < sb.ninodes, contents s inum = A inum) :
    wp R (runOps ops) (fun rs s' => rs = (specOps (fun ip => (s.inode ip).inum) A ops).1 ∧
      ∀ inum < sb.ninodes, contents s' inum = (specOps (fun ip => (s.inode ip).inum) A ops).2 inum) s := by
  induction ops generalizing s A with
  | nil => exact ⟨rfl, hA⟩
  | cons op ops ih =>
    have hOp := hOps op List.mem_cons_self
    rw [runOps, wp_bind]
    refine wp_mono (wp_op hR hG h hOp) ?_
    rintro r s₁ ⟨rfl, hDone⟩
    obtain ⟨hRet, hSpec⟩ := FileOp.spec_congr hOp h.cache hA
    have hInum : (fun ip => (s₁.inode ip).inum) = fun ip => (s.inode ip).inum := funext hDone.slots.inum
    rw [wp_bind]
    refine wp_mono (ih hDone.sound (fun op' hMem => hDone.slots.ok (hOps op' (List.mem_cons_of_mem _ hMem)))
      (A := (op.spec (fun ip => (s.inode ip).inum) A).2)
      fun inum hi => (hDone.eq inum hi).trans (hSpec inum hi)) ?_
    rintro rs s' ⟨rfl, hEq⟩
    rw [hInum] at hEq
    rw [wp_pure, hInum, hRet]
    exact ⟨rfl, hEq⟩

/-- Every sequence of reads and writes of files that never lets `balloc` leave the data
area returns and leaves what the same sequence on byte arrays does. -/
theorem files_are_byte_arrays {ops : List FileOp} {rets : List Ret} (hG : Geom sb) (h : Sound sb s ∅)
    (hOps : ∀ op ∈ ops, op.Ok s) (hMay : (runOps ops).along (AllocsInData sb) s)
    (hRun : (runOps ops).run s = .ok (rets, s')) :
    rets = (specOps (fun ip => (s.inode ip).inum) (contents s) ops).1 ∧
      ∀ inum < sb.ninodes,
        contents s' inum = (specOps (fun ip => (s.inode ip).inum) (contents s) ops).2 inum := by
  have hR : Relies (LowBits.any sb) ⟨fun _ => True, AllocsInData sb, fun _ _ => True⟩ :=
    ⟨⟨fun _ _ _ => trivial, fun _ _ _ => trivial⟩, fun _ hs _ => hs, fun _ _ _ => trivial⟩
  exact wp_run (wp_runOps hR hG h hOps fun _ _ => rfl) hMay hRun

end Ops

section Example

/-- A disk with `n` data blocks and one file of one block; the bitmap shows the blocks of
the log as free, the way mkfs leaves it. -/
def oneFileSb (n : Nat) : Superblock := ⟨15 + n, n, 8, 10⟩

def oneFileDi : Dinode := ⟨tFile, 0, 0, 1, 512, fun i => if i = 0 then 5 else 0⟩

def oneFileImage (n : Nat) : Disk
  | 1 => setWord (setWord (setWord (setWord zeroBlock 0 (15 + n)) 4 n) 8 8) 12 10
  | 2 => encodeDinode zeroBlock 1 oneFileDi
  | 4 => Function.update zeroBlock 0 0x3F
  | _ => zeroBlock

def oneFile (n : Nat) : Kern where
  disk := oneFileImage n
  held _ := false
  log := ⟨5 + n, 10, false, 0, fun _ => 0⟩
  inode ip := if ip = 0 then ⟨1, 1, true, true, oneFileDi⟩ else ⟨0, 0, false, false, Dinode.zero⟩
  file _ := ⟨.none, 0, false, false, 0, 0⟩
  proc _ := ⟨fun _ => none, none⟩
  devsw _ := none

/-- Append one byte to the file and read it back after the commit. -/
def appendByte : List FileOp := [.beginTrans, .writei 0 [1] 512, .commitTrans, .readi 0 512 1]

variable {n : Nat}

theorem oneFile_live {ip : Nat} (h : 0 < ((oneFile n).inode ip).ref) : ip = 0 := by
  by_contra hne
  simp [oneFile, hne] at h

theorem oneFileDi_ok : oneFileDi.Ok := by
  refine ⟨by decide, by decide, by decide, by decide, by decide, fun i => ?_, fun i hi => ?_⟩
  · simp only [oneFileDi]
    split <;> decide
  · exact if_neg (by omega)

theorem oneFile_cache : CacheInv (oneFileSb n) (oneFile n) where
  uniq i _ j _ hi hj _ := by rw [oneFile_live hi, oneFile_live hj]
  inum i _ hi := by
    rw [oneFile_live hi]
    exact show 1 < 8 by decide
  ok i hi := by
    rw [oneFile_live hi.ref]
    exact oneFileDi_ok

theorem oneFile_slot : LiveSlot (oneFile n) 0 := ⟨by decide, show (0 : Int) < 1 by decide, rfl⟩

theorem oneFile_home {x : Nat} (hx : x < 5) : home (oneFile n) x = oneFileImage n x := by
  apply home_of_not_holds
  rintro ⟨h, _⟩
  change 5 + n ≤ x at h
  omega

theorem oneFile_ptr {r : Nat × Nat} (hr : ValidRef (oneFileSb n) r) :
    ptrOf (home (oneFile n)) (eff (oneFile n)) r = if r = (1, 0) then 5 else 0 := by
  obtain ⟨inum, pos⟩ := r
  have hi : inum < 8 := hr.1
  by_cases hIn : inum = 1
  · subst hIn
    have hEff : eff (oneFile n) 1 = oneFileDi := oneFile_cache.eff_live oneFile_slot
    rw [ptrOf_of_type (by rw [hEff]; decide), hEff]
    by_cases hPos : pos ≤ ndirect
    · rw [ptr_le hPos]
      simp [oneFileDi]
    · rw [ptr_gt_zero (by omega) rfl, if_neg]
      rintro hEq
      rw [(Prod.mk.inj hEq).2] at hPos
      exact hPos (Nat.zero_le _)
  · have hSlot : slotOf (oneFile n) inum = none := by
      rw [slotOf, List.find?_eq_none]
      intro ip _ hLive
      simp only [Bool.and_eq_true, decide_eq_true_eq, beq_iff_eq] at hLive
      rw [oneFile_live hLive.1.1] at hLive
      exact hIn hLive.2.symm
    have hType : (eff (oneFile n) inum).type = 0 := by
      have hBlk : iblock inum = 2 := by
        simp only [iblock, ipb_eq]
        omega
      have hMod : inum % ipb ≠ 1 := by
        rw [ipb_eq]
        omega
      rw [eff, hSlot]
      dsimp only
      rw [dinodeOf, hBlk, oneFile_home (by decide), oneFileImage, decode_encodeDinode_of_ne hMod]
      rfl
    have hne : (inum, pos) ≠ (1, 0) := fun hEq => hIn (Prod.mk.inj hEq).1
    rw [ptrOf, if_pos hType, if_neg hne]

theorem oneFile_sound (hn : n = 1 ∨ n = 2) : Sound (oneFileSb n) (oneFile n) ∅ := by
  have hRef : ValidRef (oneFileSb n) (1, 0) := ⟨show 1 < 8 by decide, by decide⟩
  refine ⟨⟨?_, rfl, ?_, .of_empty rfl⟩, oneFile_cache, ⟨?_, ?_, ?_, ?_⟩⟩
  · change 5 + n = 15 + n - 10
    omega
  · rw [oneFile_home (by decide)]
    rcases hn with rfl | rfl
    · decide
    · decide
  · intro r r' hr hr' hEq hNz
    rw [oneFile_ptr hr] at hEq hNz
    rw [oneFile_ptr hr'] at hEq
    split at hEq
    · rename_i h1
      split at hEq
      · rename_i h2
        rw [h1, h2]
      · cases hEq
    · rename_i h1
      exact absurd (if_neg h1) hNz
  · intro r hr hNz
    rw [oneFile_ptr hr] at hNz ⊢
    split at hNz
    · rename_i h1
      rw [if_pos h1]
      rcases hn with rfl | rfl
      · decide
      · decide
    · exact absurd rfl hNz
  · intro b hb
    have hOwner : (∃ r, ValidRef (oneFileSb n) r ∧ ptrOf (home (oneFile n)) (eff (oneFile n)) r = b) ↔ b = 5 := by
      constructor
      · rintro ⟨r, hr, rfl⟩
        rw [oneFile_ptr hr]
        split
        · rfl
        · rename_i h1
          rw [oneFile_ptr hr, if_neg h1] at hb
          exact absurd rfl hb.pos
      · rintro rfl
        exact ⟨(1, 0), hRef, by rw [oneFile_ptr hRef, if_pos rfl]⟩
    have hRange : b = 5 ∨ b = 6 ∧ n = 2 := by
      have h1 : 5 ≤ b := by
        have := hb.1
        rcases hn with rfl | rfl
        · exact this
        · exact this
      have h2 : b < 15 + n - 10 := hb.2
      clear hOwner
      omega
    rw [hOwner, Set.mem_empty_iff_false, or_false, bit]
    rcases hRange with rfl | ⟨rfl, rfl⟩
    · rw [show bblock 5 (oneFileSb n).ninodes = 4 from show bblock 5 8 = 4 by decide,
        oneFile_home (by decide), oneFileImage]
      decide
    · rw [show bblock 6 (oneFileSb 2).ninodes = 4 by decide, oneFile_home (by decide), oneFileImage]
      decide
  · intro b hb
    exact absurd hb (Set.notMem_empty b)

theorem oneFile_ops : ∀ op ∈ appendByte, op.Ok (oneFile n) := by
  intro op hOp
  simp only [appendByte, List.mem_cons, List.not_mem_nil, or_false] at hOp
  rcases hOp with rfl | rfl | rfl | rfl
  · trivial
  · exact ⟨oneFile_slot, show tFile ≠ 0 by decide, show tFile ≠ tDev by decide, by decide, by decide⟩
  · trivial
  · exact ⟨oneFile_slot, show tFile ≠ 0 by decide, show tFile ≠ tDev by decide, by decide, by decide⟩

theorem oneFile_geom (hn : n = 1 ∨ n = 2) : Geom (oneFileSb n) := by
  rcases hn with rfl | rfl
  · exact ⟨by decide, by decide, by decide⟩
  · exact ⟨by decide, by decide, by decide⟩

set_option maxRecDepth 10000 in
/-- With one more data block the byte is read back. -/
theorem appendByte_room : ∃ s', (runOps appendByte).run (oneFile 2) =
      .ok ([.unit, .count (some 1), .unit, .bytes (some [1])], s') ∧
    ∀ inum < 8, contents s' inum = (specOps (fun ip => ((oneFile 2).inode ip).inum) (contents (oneFile 2))
      appendByte).2 inum := by
  have hRets : ((runOps appendByte).run (oneFile 2)).toOption.map Prod.fst =
      some [.unit, .count (some 1), .unit, .bytes (some [1])] := by decide +kernel
  obtain ⟨⟨rets, s'⟩, hRun, hEq⟩ := Option.map_eq_some_iff.mp hRets
  rw [toOption_eq_some] at hRun
  dsimp only at hEq
  subst hEq
  have hMay : (runOps appendByte).along (AllocsInData (oneFileSb 2)) (oneFile 2) := by decide +kernel
  exact ⟨s', hRun, (files_are_byte_arrays (oneFile_geom (Or.inr rfl)) (oneFile_sound (Or.inr rfl)) oneFile_ops
    hMay hRun).2⟩

set_option maxRecDepth 10000 in
/-- When the data area is full, `balloc` gives the file the first block of the log, and
the commit writes its header there: the byte that is read back is not the one written. -/
theorem appendByte_full : Geom (oneFileSb 1) ∧ Sound (oneFileSb 1) (oneFile 1) ∅ ∧
    (∀ op ∈ appendByte, op.Ok (oneFile 1)) ∧
    ((runOps appendByte).run (oneFile 1)).toOption.map Prod.fst =
      some [.unit, .count (some 1), .unit, .bytes (some [0])] ∧
    (specOps (fun ip => ((oneFile 1).inode ip).inum) (contents (oneFile 1)) appendByte).1 =
      [.unit, .count (some 1), .unit, .bytes (some [1])] :=
  ⟨oneFile_geom (Or.inl rfl), oneFile_sound (Or.inl rfl), oneFile_ops, by decide +kernel, by decide +kernel⟩

end Example

end Xv6Rpi.Fs
