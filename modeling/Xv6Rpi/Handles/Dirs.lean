import Xv6Rpi.Fs.Calls
import Xv6Rpi.Fs.Owned
import Xv6Rpi.Handles.Sequence

/-! # Directories are never written

Processes make calls one after another, from the state in which the first one starts. No file that can be written refers to a
directory, so that the bytes of a directory only change through the directory calls. This holds as long as each search for a free
block ends in the data area; when the data area is full, a file gets the blocks of the log, and a directory is written over.
-/

namespace Xv6Rpi.Handles

open Fs (Kern LowBits Geom Fit GoodImage Mounted rootino ninode nfile)
open Pipes (Pipe)
open Prog
open Sched (Ptable Slot)

/-- The first process starts with the root of the image as its directory, and no inode has been read. -/
structure BootedOn (sb : Fs.Superblock) (w : World) : Prop extends Booted w where
  mounted : Mounted sb w.fs
  image : GoodImage sb w.fs.disk
  unread : ∀ j, (w.fs.inode j).valid = false
  atRoot : ∀ n j, (w.fs.proc n).cwd = some j → (w.fs.inode j).inum = rootino

/-- One call from its start to its end, in which each search for a free block ends in the data area; or what a process that waits
in a pipe has done to it so far. -/
inductive Turn (sb : Fs.Superblock) (w : World) : World → Prop
  | call {p : Slot} {k : Call} {r : Int} {w' : World} (hLive : Live (w.tbl.proc p).state)
      (hMay : (k.prog p).along (fun l w => Fs.AllocsInData sb l w.fs) w) (hRun : (k.prog p).run w = .ok (r, w')) : Turn sb w w'
  | pipe (q : Nat → Option Pipe) : Turn sb w { w with pipe := q }

abbrev Turns (sb : Fs.Superblock) : World → World → Prop := Relation.ReflTransGen (Turn sb)

section Turns

variable {sb : Fs.Superblock} {M : LowBits sb} {w w' w'' : World}

theorem Booted.worldRefs (h : Booted w) {j : Nat} (hj : j < ninode) : (w.fs.inode j).ref = (worldRefs w).count j := by
  rw [h.owned.inodes.ref j hj]
  rfl

theorem Booted.toSlots (h : Booted w) : Slots w := by
  refine ⟨fun f hf => absurd (h.file f).1 hf, fun f _ => (h.file f).2, fun f hf => absurd (h.file f).2.2 hf,
    h.owned.procs.cwd, fun p hp => ?_⟩
  have hNone : NoFiles (w.fs.proc p) := h.owned.procs.dead p hp
  exact hNone.cwd

theorem BootedOn.stands (h : BootedOn sb w) (hG : Geom sb) (hRoot : rootino < sb.ninodes) (hLow : M.holds (Fs.home w.fs)) :
    Stands M 0 w := by
  obtain ⟨ip, hIp, hProc, hRef⟩ := h.root
  have hOnly : ∀ j, 0 < (w.fs.inode j).ref → j = ip := fun j hPos => by
    rw [hRef] at hPos
    by_contra hNe
    rw [if_neg hNe] at hPos
    exact absurd hPos (lt_irrefl 0)
  have hDead : ∀ j, ¬Fs.LiveSlot w.fs j := fun j hl => by
    have hValid := hl.valid
    rw [h.unread j] at hValid
    cases hValid
  have hCwd : (w.fs.proc 0).cwd = some ip := congrArg Fs.ProcFiles.cwd (hProc 0)
  have hCache : Fs.CacheInv sb w.fs := by
    refine ⟨fun i _ j _ hi hj _ => (hOnly i hi).trans (hOnly j hj).symm, fun i _ hi => ?_, fun i hl => absurd hl (hDead i)⟩
    rw [hOnly i hi, h.atRoot 0 ip hCwd]
    exact hRoot
  have hFit : Fit M (worldRefs w) w.fs :=
    h.image.fit hG h.mounted hLow hDead hCache (fun j hj => h.worldRefs hj) fun j hj => h.owned.inodes.lt j hj
  refine ⟨h.toSlots, by rwa [zero_add], fun f _ hType => ?_⟩
  rw [(h.file f).2.1] at hType
  cases hType

theorem Stands.turn (h : Stands (LowBits.any sb) 0 w) (hG : Geom sb) (hRoot : rootino < sb.ninodes) (hTurn : Turn sb w w') :
    Stands (LowBits.any sb) 0 w' := by
  cases hTurn with
  | call hLive hMay hRun => exact wp_run (h.wp_call (Fs.inData_relies _) hG trivial hRoot hLive _) hMay hRun
  | pipe q => exact h.setPipe q

theorem Stands.turns (h : Stands (LowBits.any sb) 0 w) (hG : Geom sb) (hRoot : rootino < sb.ninodes) (hTurns : Turns sb w w') :
    Stands (LowBits.any sb) 0 w' := by
  induction hTurns with
  | refl => exact h
  | tail _ hTurn ih => exact ih.turn hG hRoot hTurn

/-- No file that can be written refers to a directory, and a call that writes leaves every directory as it is. -/
structure DirsKept (sb : Fs.Superblock) (w : World) : Prop where
  file : ∀ f, (w.fs.file f).type = .inode → (w.fs.file f).writable = true →
    (Fs.eff w.fs (w.fs.inode (w.fs.file f).ip).inum).type ≠ Fs.tDir
  write : ∀ (p : Slot) (fd : Nat) (src : Option (List UInt8)) (r : Int) (w' : World),
    (sysWrite p fd src).along (fun l w => Fs.AllocsInData sb l w.fs) w → (sysWrite p fd src).run w = .ok (r, w') → SameDirs sb w.fs w'.fs

theorem Stands.dirsKept (h : Stands (LowBits.any sb) 0 w) (hG : Geom sb) : DirsKept sb w where
  file f hType hWritable := by
    obtain ⟨hf, hMem⟩ := h.mem_of_file hType
    have hPlain := h.plain f hf hType hWritable
    rw [h.fit.cache.eff_live ⟨h.fit.lt _ hMem, h.fit.ref_pos hMem, hPlain.valid⟩]
    exact hPlain.type
  write p fd src r w' hMay hRun := (wp_run (h.wp_sysWrite (Fs.inData_relies _) hG trivial) hMay hRun).2

/-- Whatever calls have been made, as long as each search for a free block ended in the data area. -/
theorem directories_are_not_written (hG : Geom sb) (hRoot : rootino < sb.ninodes) (h : BootedOn sb w) (hTurns : Turns sb w w') :
    DirsKept sb w' :=
  ((h.stands hG hRoot trivial).turns hG hRoot hTurns).dirsKept hG

end Turns

section Example

open Fs (Disk Dinode zeroBlock setWord encodeDinode tDir tFile ndirect dirBlock dot dotdot nameD)

/-- The kernel has mounted the image and started the first process. -/
def bootOn (sb : Fs.Superblock) (d : Disk) : World where
  fs := {
    disk := d
    held := fun _ => false
    log := Fs.logOf sb
    inode := fun j => if j = 0 then ⟨1, 1, false, false, Dinode.zero⟩ else ⟨0, 0, false, false, Dinode.zero⟩
    file := fun _ => ⟨.none, 0, false, false, 0, 0⟩
    proc := fun n => ⟨fun _ => none, if n = 0 then some 0 else none⟩
    devsw := fun _ => none }
  tbl := Ptable.userinit 1 1
  pipeOf := fun _ => none
  pipe := fun _ => none

theorem bootOn_booted {sb : Fs.Superblock} {d : Disk} (hG : Geom sb) (hSuper : Fs.decodeSb (d 1) = sb) (hImage : GoodImage sb d) :
    BootedOn sb (bootOn sb d) where
  file _ := ⟨rfl, rfl, rfl⟩
  pipe _ := rfl
  root := ⟨0, by decide, fun _ => rfl, fun j => by
    by_cases hj : j = 0
    · rw [if_pos hj]
      exact congrArg Fs.Inode.ref (if_pos hj)
    · rw [if_neg hj]
      exact congrArg Fs.Inode.ref (if_neg hj)⟩
  tbl := ⟨1, 1, rfl⟩
  mounted := by
    refine ⟨Fs.logOf_start hG, rfl, ?_, .of_empty rfl⟩
    have hHome : Fs.home (bootOn sb d).fs 1 = d 1 := Fs.home_of_not_holds fun hHolds => by
      have hLow := hHolds.1
      change (Fs.logOf sb).start ≤ 1 at hLow
      rw [Fs.logOf_start hG] at hLow
      exact absurd hLow (Nat.not_le.mpr (hG.lt_log (by decide)))
    rw [hHome, hSuper]
  image := hImage
  unread j := by
    by_cases hj : j = 0
    · exact congrArg Fs.Inode.valid (if_pos hj)
    · exact congrArg Fs.Inode.valid (if_neg hj)
  atRoot n j hj := by
    by_cases hn : n = 0
    · have hCwd : some 0 = some j := (if_pos hn).symm.trans hj
      cases hCwd
      rfl
    · have hCwd : none = some j := (if_neg hn).symm.trans hj
      cases hCwd

def tightSb (n : Nat) : Fs.Superblock := ⟨28 + n, 13 + n, 8, 10⟩

/-- The root directory, a file that needs no indirect block but has all the others, and an empty file. -/
def tightTable : Nat → Dinode
  | 1 => ⟨tDir, 0, 0, 1, 64, fun i => if i = 0 then 5 else 0⟩
  | 2 => ⟨tFile, 0, 0, 1, 6144, fun i => if i < ndirect then 6 + i else 0⟩
  | 3 => ⟨tFile, 0, 0, 1, 0, fun _ => 0⟩
  | _ => Dinode.zero

def nameE : List UInt8 := [101]

/-- An image in which these files leave `n` data blocks free; in the bitmap the log's blocks are free, as `mkfs` leaves them. -/
def tightImage (n : Nat) : Disk
  | 1 => setWord (setWord (setWord (setWord zeroBlock 0 (28 + n)) 4 (13 + n)) 8 8) 12 10
  | 2 => encodeDinode (encodeDinode (encodeDinode zeroBlock 1 (tightTable 1)) 2 (tightTable 2)) 3 (tightTable 3)
  | 4 => fun j => if j < 2 then 0xFF else if j = 2 then 0x03 else 0
  | 5 => dirBlock [(1, dot), (1, dotdot), (2, nameD), (3, nameE)]
  | _ => zeroBlock

def tight (n : Nat) : World := bootOn (tightSb n) (tightImage n)

theorem tight_geom {n : Nat} (hn : n = 0 ∨ n = 2) : Geom (tightSb n) := by
  rcases hn with rfl | rfl <;> exact ⟨by decide, by decide, by decide⟩

theorem tightTable_ok {k : Nat} (h1 : 1 ≤ k) (h3 : k ≤ 3) : (tightTable k).Ok := by
  obtain rfl | rfl | rfl : k = 1 ∨ k = 2 ∨ k = 3 := by omega
  · refine ⟨by decide, by decide, by decide, by decide, by decide, fun i => ?_, fun i hi => if_neg (by omega)⟩
    change (if i = 0 then 5 else 0) < 4294967296
    split
    · decide
    · decide
  · refine ⟨by decide, by decide, by decide, by decide, by decide, fun i => ?_, fun i hi => if_neg (by omega)⟩
    change (if i < 12 then 6 + i else 0) < 4294967296
    split
    · omega
    · decide
  · exact ⟨by decide, by decide, by decide, by decide, by decide, fun _ => Nat.two_pow_pos 32, fun _ _ => rfl⟩

theorem tight_inode (n : Nat) {k : Nat} (hk : k < 8) : Fs.dinodeOf (tightImage n) k = tightTable k ∨
    (Fs.dinodeOf (tightImage n) k).type = 0 ∧ (tightTable k).type = 0 := by
  have hBlk : Fs.dinodeOf (tightImage n) k = Fs.decodeDinode (tightImage n 2) k := by
    rw [Fs.dinodeOf, Fs.iblock, show k / Fs.ipb = 0 from Nat.div_eq_of_lt hk, show k % Fs.ipb = k from Nat.mod_eq_of_lt hk]
  rw [hBlk]
  by_cases hUsed : 1 ≤ k ∧ k ≤ 3
  · have hOk := tightTable_ok hUsed.1 hUsed.2
    obtain rfl | rfl | rfl : k = 1 ∨ k = 2 ∨ k = 3 := by omega
    · exact Or.inl (by rw [tightImage, Fs.decode_encodeDinode_of_ne (by decide), Fs.decode_encodeDinode_of_ne (by decide),
        Fs.decode_encodeDinode hOk])
    · exact Or.inl (by rw [tightImage, Fs.decode_encodeDinode_of_ne (by decide), Fs.decode_encodeDinode hOk])
    · exact Or.inl (by rw [tightImage, Fs.decode_encodeDinode hOk])
  · have hType : tightTable k = Dinode.zero := by
      rw [tightTable]
      all_goals omega
    rw [hType]
    right
    refine ⟨?_, rfl⟩
    rw [tightImage, Fs.decode_encodeDinode_of_ne (by omega), Fs.decode_encodeDinode_of_ne (by omega),
      Fs.decode_encodeDinode_of_ne (by omega)]
    have hZero : ∀ k < 8, (Fs.decodeDinode zeroBlock k).type = 0 := by decide +kernel
    exact hZero k hk

set_option maxRecDepth 10000 in
theorem tight_direct {n : Nat} (hn : n = 0 ∨ n = 2) : Fs.DirectImage (tightSb n) (tightImage n) tightTable := by
  refine ⟨fun k hk => tight_inode n hk, ?_, ?_, ?_, ?_, ?_, ?_, ?_⟩
  all_goals rcases hn with rfl | rfl <;> decide +kernel

theorem tight_booted {n : Nat} (hn : n = 0 ∨ n = 2) : BootedOn (tightSb n) (tight n) := by
  have hStart : 0 < Fs.dataStart (tightSb n) := Nat.succ_pos _
  have hSuper : Fs.decodeSb (tightImage n 1) = tightSb n := by
    rcases hn with rfl | rfl <;> decide
  exact bootOn_booted (tight_geom hn) hSuper ((tight_direct hn).good hStart)

theorem turns_after {sb : Fs.Superblock} {k : Call} {w : World} (hLive : Live (w.tbl.proc 0).state)
    (hRun : ((k.prog 0).run w).toOption.isSome = true) (hMay : (k.prog 0).along (fun l w => Fs.AllocsInData sb l w.fs) w) :
    Turns sb w (after k w) := by
  obtain ⟨a, hRun⟩ := after_run hRun
  exact .single (.call hLive hMay hRun)

def openPlain : Call := .open (some [47, 100]) 2
def readPlain : Call := .read 0 (some 6144)
def appendPlain : Call := .write 0 (some (List.replicate 512 7))
def unlinkEmpty : Call := .unlink (some [47, 101])
def appendByte : Call := .write 0 (some [7])

def atEnd (n : Nat) : World := after readPlain (after openPlain (tight n))

set_option maxRecDepth 10000 in
theorem turns_atEnd : Turns (tightSb 2) (tight 2) (atEnd 2) := by
  have hOpen : Turns (tightSb 2) (tight 2) (after openPlain (tight 2)) :=
    turns_after (Or.inr (Or.inl rfl)) (by decide +kernel) (by decide +kernel)
  have hRead : Turns (tightSb 2) (after openPlain (tight 2)) (atEnd 2) :=
    turns_after (Or.inr (Or.inl (by decide +kernel))) (by decide +kernel) (by decide +kernel)
  exact hOpen.trans hRead

set_option maxRecDepth 10000 in
theorem directories_are_not_written_room : DirsKept (tightSb 2) (after appendByte (atEnd 2)) ∧
    ((after appendByte (atEnd 2)).fs.inode 1).di.size = 6145 := by
  have hWrite : Turns (tightSb 2) (atEnd 2) (after appendByte (atEnd 2)) :=
    turns_after (Or.inr (Or.inl (by decide +kernel))) (by decide +kernel) (by decide +kernel)
  exact ⟨directories_are_not_written (tight_geom (Or.inr rfl)) (by decide) (tight_booted (Or.inr rfl)) (turns_atEnd.trans hWrite),
    by decide +kernel⟩

set_option maxRecDepth 10000 in
/-- When the data area is full, the new block of pointers is the header of the log. The commit of the `unlink` writes the number of
the root directory's block there, and the next byte of the file is the first byte of the root directory. -/
theorem full_disk_writes_directory : BootedOn (tightSb 0) (tight 0) ∧
    (Fs.dinodeOf (after unlinkEmpty (after appendPlain (atEnd 0))).fs.disk rootino).addrs 0 = 5 ∧
    (after unlinkEmpty (after appendPlain (atEnd 0))).fs.disk 5 0 = 1 ∧
    ((appendByte.prog 0).run (after unlinkEmpty (after appendPlain (atEnd 0)))).toOption.map (fun r => (r.1, r.2.fs.disk 5 0)) =
      some (1, 7) :=
  ⟨tight_booted (Or.inl rfl), by decide +kernel, by decide +kernel, by decide +kernel⟩

end Example

end Xv6Rpi.Handles
