import Xv6Rpi.Handles.Crashes

/-! # Free blocks in the data area

The bitmap marks the blocks before the data area for good once it marks them. So while the data area has a free block whenever one is
searched for, the search ends there, whatever calls are made.
-/

namespace Xv6Rpi.Fs

open Prog

variable {sb : Superblock}

def DataFree (sb : Superblock) (d : Disk) : Prop := ∃ b < sb.size, InData sb b ∧ bit sb d b = false

instance (sb : Superblock) (d : Disk) : Decidable (DataFree sb d) :=
  inferInstanceAs (Decidable (∃ b < sb.size, InData sb b ∧ bit sb d b = false))

/-- When the search for a free block starts, the data area has one. -/
def HasRoom (sb : Superblock) (l : Label) (s : Kern) : Prop :=
  match l with
  | .balloc => DataFree sb (home s)
  | _ => True

instance (sb : Superblock) : (l : Label) → (s : Kern) → Decidable (HasRoom sb l s)
  | .balloc, s => inferInstanceAs (Decidable (DataFree sb (home s)))
  | .step, _ | .logWrite, _ | .beginTrans, _ | .commitTrans, _ | .iput _, _ | .bmap _ _, _ | .indirect _ _, _ => .isTrue trivial

def LowBits.marked (sb : Superblock) : LowBits sb where
  holds d := ∀ b < dataStart sb, bit sb d b = true
  stable d d' hSame h b hb := by rw [hSame b hb, h b hb]

/-- There is a free block in the data area whenever one is searched for; it is shown that the search ends there. -/
def roomy (sb : Superblock) : Rely Kern Stop Label := ⟨fun _ => True, HasRoom sb, AllocsInData sb⟩

instance (P : Kern → Prop) : CommitsIn (roomy sb) P := ⟨fun _ _ => trivial⟩

theorem LowBits.allocInData {d : Disk} (h : (LowBits.marked sb).holds d) (hFree : DataFree sb d) :
    AllocInData sb d := by
  intro b _ hBit hBefore
  obtain ⟨b', -, hData, hFree⟩ := hFree
  have hLow : dataStart sb ≤ b := by
    by_contra hLt
    rw [h b (Nat.lt_of_not_le hLt)] at hBit
    cases hBit
  have hHigh : b ≤ b' := by
    by_contra hLt
    rw [hBefore b' (Nat.lt_of_not_le hLt)] at hFree
    cases hFree
  exact ⟨hLow, hHigh.trans_lt hData.2⟩

theorem roomy_relies : Relies (LowBits.marked sb) (roomy sb) where
  stop := ⟨fun _ _ _ => trivial, fun l s hl => by
    cases l with
    | balloc => exact absurd rfl hl.1
    | _ => trivial⟩
  balloc s hMay h := LowBits.allocInData h hMay
  must _ _ h := h

end Xv6Rpi.Fs

namespace Xv6Rpi.Handles

open Fs (LowBits Geom rootino HasRoom)
open Prog

/-- One call from its start to its end, in which a block of the data area is free whenever one is searched for; or what a process
that waits in a pipe has done to it so far. -/
inductive RoomyTurn (sb : Fs.Superblock) (w : World) : World → Prop
  | call {p : Sched.Slot} {k : Call} {r : Int} {w' : World} (hLive : Live (w.tbl.proc p).state)
      (hMay : (k.prog p).along (fun l w => HasRoom sb l w.fs) w) (hRun : (k.prog p).run w = .ok (r, w')) : RoomyTurn sb w w'
  | pipe (q : Nat → Option Pipes.Pipe) : RoomyTurn sb w { w with pipe := q }

abbrev RoomyTurns (sb : Fs.Superblock) : World → World → Prop := Relation.ReflTransGen (RoomyTurn sb)

variable {sb : Fs.Superblock} {w w' : World}

/-- In a call that finds a free block of the data area whenever it searches, every search ends there. -/
theorem Stands.searches (h : Stands (LowBits.marked sb) 0 w) (hG : Geom sb) (hRoot : rootino < sb.ninodes) {p : Sched.Slot}
    (hLive : Live (w.tbl.proc p).state) (k : Call) (hMay : (k.prog p).along (fun l w => HasRoom sb l w.fs) w) :
    (k.prog p).along (fun l w => Fs.AllocsInData sb l w.fs) w :=
  wp_along (h.wp_call Fs.roomy_relies hG trivial hRoot hLive k) hMay

theorem Stands.roomyTurn (h : Stands (LowBits.marked sb) 0 w) (hG : Geom sb) (hRoot : rootino < sb.ninodes) (hTurn : RoomyTurn sb w w') :
    Stands (LowBits.marked sb) 0 w' ∧ Turn sb w w' := by
  cases hTurn with
  | @call p k r _ hLive hMay hRun =>
    have hCall := h.wp_call Fs.roomy_relies hG trivial hRoot hLive k
    exact ⟨wp_run hCall hMay hRun, .call hLive (h.searches hG hRoot hLive k hMay) hRun⟩
  | pipe q => exact ⟨h.setPipe q, .pipe q⟩

theorem Stands.roomyTurns (h : Stands (LowBits.marked sb) 0 w) (hG : Geom sb) (hRoot : rootino < sb.ninodes)
    (hTurns : RoomyTurns sb w w') : Stands (LowBits.marked sb) 0 w' ∧ Turns sb w w' := by
  induction hTurns with
  | refl => exact ⟨h, .refl⟩
  | tail _ hTurn ih =>
    obtain ⟨hStands, hTurns⟩ := ih
    obtain ⟨hStands, hTurn⟩ := hStands.roomyTurn hG hRoot hTurn
    exact ⟨hStands, hTurns.tail hTurn⟩

end Xv6Rpi.Handles
