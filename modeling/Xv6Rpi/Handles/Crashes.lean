import Xv6Rpi.Handles.Dirs

/-! # A crash leaves a well-formed image

What recovery leaves after a crash is the disk as the last commit left it, or as the one that was cut off would have left it. In every
call, whatever calls came before it, each of its commits leaves an image in which no block has two owners, the bitmap marks the blocks
that have one, the files are whole and the entries of the directories name inodes: the kernel can start again from it.
-/

namespace Xv6Rpi.Fs

open Prog

variable {sb : Superblock}

/-- What is shown of a call: each of its commits leaves a good image. -/
def goodCommits (sb : Superblock) : Rely Kern Stop Label :=
  ⟨fun _ => True, AllocsInData sb, fun l s => l = .commitTrans → GoodImage sb (home s)⟩

instance (M : LowBits sb) : CommitsIn (goodCommits sb) (InOrder M) where
  commit _ hs _ := by
    obtain ⟨c, h⟩ := hs
    exact h.good

theorem goodCommits_relies (M : LowBits sb) : Relies M (goodCommits sb) :=
  ⟨⟨fun _ _ _ => trivial, fun _ _ hl hEq => absurd hEq hl.2⟩, fun _ hs _ => hs, fun _ _ _ hEq => Label.noConfusion hEq⟩

end Xv6Rpi.Fs

namespace Xv6Rpi.Handles

open Fs (LowBits Geom GoodImage SameOutside rootino)
open Prog
open Sched (Slot)

variable {sb : Fs.Superblock} {w w' : World}

/-- Between the calls, and after each commit of the next one, the disk outside the log is a good image. -/
structure CrashSafe (sb : Fs.Superblock) (w : World) : Prop where
  rest : ∀ d, SameOutside sb w.fs.disk d → GoodImage sb d
  commit : ∀ (p : Slot) (k : Call), Live (w.tbl.proc p).state → (k.prog p).along (fun l w => Fs.AllocsInData sb l w.fs) w →
    (k.prog p).along (fun l w => l = .commitTrans → ∀ d, SameOutside sb (Fs.home w.fs) d → GoodImage sb d) w

theorem Stands.crashSafe (h : Stands (LowBits.any sb) 0 w) (hG : Geom sb) (hRoot : rootino < sb.ninodes) : CrashSafe sb w where
  rest d hd := by
    refine h.fit.good.outside hG fun x hx => ?_
    rw [Fs.home_of_not_holds (h.fit.mounted.not_holds hx)]
    exact hd x hx
  commit p k hLive hMay := by
    have hGood := wp_along (h.wp_call (Fs.goodCommits_relies _) hG trivial hRoot hLive k) hMay
    exact along_mono (fun l w hl hEq d hd => GoodImage.outside (hl hEq) hG hd) hGood

/-- Whatever calls have been made, as long as each search for a free block ended in the data area. -/
theorem crashes_leave_good_images (hG : Geom sb) (hRoot : rootino < sb.ninodes) (h : BootedOn sb w) (hTurns : Turns sb w w') :
    CrashSafe sb w' :=
  ((h.stands hG hRoot trivial).turns hG hRoot hTurns).crashSafe hG hRoot

section Example

theorem crashes_leave_good_images_room : CrashSafe (tightSb 2) (atEnd 2) :=
  crashes_leave_good_images (tight_geom (Or.inr rfl)) (by decide) (tight_booted (Or.inr rfl)) turns_atEnd

end Example

end Xv6Rpi.Handles
