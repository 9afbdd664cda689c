import Xv6Rpi.Fs.Log
import Xv6Rpi.Lib.Ring

/-! # The buffer cache of bio.c and the disk of memide.c

The buffers and the list through them, with the functions that `bcache.lock` protects. The
list is walked and changed through the `prev` and `next` links as the source does it.
-/

namespace Xv6Rpi.Bio

open Fs (Block Disk zeroBlock)

def nbuf : Nat := 10

abbrev Ref := Fin nbuf

instance : NeZero nbuf := ⟨by decide⟩

/-- A link of the list; `none` is `&bcache.head`. -/
abbrev Node := Option Ref

def noDev : Nat := 2 ^ 32 - 1

structure Buf where
  busy : Bool
  valid : Bool
  dirty : Bool
  dev : Nat
  sector : Nat
  data : Block

structure Cache where
  buf : Ref → Buf
  prev : Node → Node
  next : Node → Node

namespace Cache

def set (c : Cache) (b : Ref) (f : Buf → Buf) : Cache :=
  { c with buf := Function.update c.buf b (f (c.buf b)) }

/-- The last four stores of `binit` and of `brelse` to the links: `b` goes behind the head. -/
def pushFront (c : Cache) (b : Ref) : Cache :=
  { c with
    next := Function.update (Function.update c.next (some b) (c.next none)) none (some b)
    prev := Function.update (Function.update c.prev (some b) none) (c.next none) (some b) }

def unlink (c : Cache) (b : Ref) : Cache :=
  { c with
    prev := Function.update c.prev (c.next (some b)) (c.prev (some b))
    next := Function.update c.next (c.prev (some b)) (c.next (some b)) }

def binitAt (c : Cache) (b : Ref) : Cache := (c.pushFront b).set b fun x => { x with dev := noDev }

def binit : Cache :=
  (List.finRange nbuf).foldl binitAt ⟨fun _ => ⟨false, false, false, 0, 0, zeroBlock⟩, fun _ => none, fun _ => none⟩

def search (link : Node → Node) (q : Ref → Bool) : Option Ref :=
  (Ring.find link none (fun x => x.any q) (nbuf + 1) (link none)).join

def lookup (c : Cache) (dev sector : Nat) : Option Ref :=
  search c.next fun b => (c.buf b).dev = dev ∧ (c.buf b).sector = sector

def victim (c : Cache) : Option Ref := search c.prev fun b => !(c.buf b).busy && !(c.buf b).dirty

end Cache

/-- How a turn of `bget` ends. -/
inductive Got where
  | cached (b : Ref)
  | sleeps (b : Ref)
  | recycled (b : Ref)
  | noBuffers

namespace Cache

def bget (c : Cache) (dev sector : Nat) : Got :=
  match c.lookup dev sector with
  | some b => if (c.buf b).busy then .sleeps b else .cached b
  | none =>
    match c.victim with
    | some b => .recycled b
    | none => .noBuffers

def brelse (c : Cache) (b : Ref) : Cache := ((c.unlink b).pushFront b).set b fun x => { x with busy := false }

@[simp] theorem set_buf_self (c : Cache) (b : Ref) (f : Buf → Buf) : (c.set b f).buf b = f (c.buf b) := by
  simp [set]

theorem set_buf_of_ne (c : Cache) {a b : Ref} (f : Buf → Buf) (h : a ≠ b) : (c.set b f).buf a = c.buf a := by
  simp [set, h]

@[simp] theorem set_next (c : Cache) (b : Ref) (f : Buf → Buf) : (c.set b f).next = c.next := rfl
@[simp] theorem set_prev (c : Cache) (b : Ref) (f : Buf → Buf) : (c.set b f).prev = c.prev := rfl
@[simp] theorem pushFront_buf (c : Cache) (b : Ref) : (c.pushFront b).buf = c.buf := rfl
@[simp] theorem unlink_buf (c : Cache) (b : Ref) : (c.unlink b).buf = c.buf := rfl

def Listed (c : Cache) (l : List Ref) : Prop := Ring.IsRing c.next c.prev none (l.map some)

variable {c : Cache} {l : List Ref} {b : Ref}

theorem Listed.pushFront (h : c.Listed l) (hb : b ∉ l) : (c.pushFront b).Listed (b :: l) :=
  Ring.IsRing.push h (by simpa using hb)

theorem Listed.brelse (h : c.Listed l) (hb : b ∈ l) : (c.brelse b).Listed (b :: l.erase b) := by
  have hOut : (c.unlink b).Listed (l.erase b) := by
    obtain ⟨l₁, l₂, -, rfl, he⟩ := List.exists_erase_eq hb
    rw [Listed, List.map_append, List.map_cons] at h
    rw [he, Listed, List.map_append]
    exact h.unlink
  have hNodup : l.Nodup := List.Nodup.of_map some (List.nodup_cons.mp h.nodup).2
  exact hOut.pushFront fun hm => (hNodup.not_mem_erase) hm

theorem Listed.search_next (h : c.Listed l) (hLen : l.length ≤ nbuf) (q : Ref → Bool) :
    search c.next q = l.find? q := by
  rw [search, Ring.IsRing.find_next h (by simpa [Nat.lt_succ_iff] using hLen), List.find?_map]
  cases hf : List.find? q l with
  | none => simp [hf]
  | some b => simp [hf]

theorem Listed.search_prev (h : c.Listed l) (hLen : l.length ≤ nbuf) (q : Ref → Bool) :
    search c.prev q = l.reverse.find? q := by
  rw [search, Ring.IsRing.find_prev h (by simpa [Nat.lt_succ_iff] using hLen), ← List.map_reverse, List.find?_map]
  cases hf : List.find? q l.reverse with
  | none => simp [hf]
  | some b => simp [hf]

theorem Listed.length_le (h : c.Listed l) : l.length ≤ nbuf := by
  have hNodup : l.Nodup := List.Nodup.of_map some (List.nodup_cons.mp h.nodup).2
  simpa using hNodup.length_le_card

theorem Listed.binit (h : c.Listed l) (bs : List Ref) (hb : bs.Nodup) (hd : ∀ b ∈ bs, b ∉ l) :
    (bs.foldl binitAt c).Listed (bs.reverse ++ l) := by
  induction bs generalizing c l with
  | nil => exact h
  | cons b bs ih =>
    rw [List.nodup_cons] at hb
    have hStep : (c.binitAt b).Listed (b :: l) := h.pushFront (hd b List.mem_cons_self)
    have := ih hStep hb.2 fun x hx => by
      simp only [List.mem_cons, not_or]
      exact ⟨ne_of_mem_of_not_mem hx hb.1, hd x (List.mem_cons_of_mem _ hx)⟩
    simpa using this

theorem binit_listed : binit.Listed (List.finRange nbuf).reverse := by
  have h : Listed ⟨fun _ => ⟨false, false, false, 0, 0, zeroBlock⟩, fun _ => none, fun _ => none⟩ [] :=
    Ring.isRing_nil rfl rfl
  have hAll := h.binit (List.finRange nbuf) (List.nodup_finRange nbuf) (by simp)
  rwa [List.append_nil] at hAll

theorem foldl_binitAt_buf (c : Cache) (bs : List Ref) (b : Ref) :
    (bs.foldl binitAt c).buf b = if b ∈ bs then { c.buf b with dev := noDev } else c.buf b := by
  induction bs generalizing c with
  | nil => simp
  | cons a bs ih =>
    rw [List.foldl_cons, ih]
    rcases eq_or_ne b a with rfl | hne
    · simp [binitAt]
    · simp [binitAt, set_buf_of_ne _ _ hne, hne]

theorem binit_buf (b : Ref) : binit.buf b = ⟨false, false, false, noDev, 0, zeroBlock⟩ := by
  rw [Cache.binit, foldl_binitAt_buf, if_pos (List.mem_finRange b)]

end Cache

def iderw (disksize : Nat) (d : Disk) (b : Buf) : Except Panic (Disk × Buf) :=
  if !b.busy then .error .iderwNotBusy
  else if b.valid && !b.dirty then .error .iderwNothing
  else if b.dev ≠ 1 then .error .iderwDisk
  else if disksize ≤ b.sector then .error .iderwSector
  else if b.dirty then .ok (Function.update d b.sector b.data, { b with dirty := false, valid := true })
  else .ok (d, { b with data := d b.sector, valid := true })

end Xv6Rpi.Bio
