import Xv6Rpi.Fs.Content
import Xv6Rpi.Fs.Update

/-! # Functions that only look

A function that only reads blocks holds a buffer for a while and leaves everything else as it
is. What it comes to is said once, by the rest of the program that is left when it has
looked: it is what a run does while nobody holds a buffer, and what a proof about any run has
to follow.
-/

namespace Xv6Rpi.Fs

open Prog

def Same (s s' : Kern) : Prop := s' = { s with held := s'.held }

/-- Looking around in `s` is all that `x` does before it goes on like `y`. -/
structure Leads {α : Type} (s : Kern) (x y : FsM α) : Prop where
  run : (∀ n, s.held n = false) → x.run s = y.run s
  wp : ∀ {R : Rely Kern Stop Label}, Allows R → ∀ {Q : α → Kern → Prop}, (∀ s', Same s s' → wp R y Q s') → wp R x Q s

section Rules

variable {α β : Type} {s s₁ s' : Kern} {x y z : FsM α} {n : Nat}

theorem Same.refl (s : Kern) : Same s s := rfl

theorem Same.trans (h : Same s s₁) (h' : Same s₁ s') : Same s s' := by
  rw [Same, h', h]

theorem Same.inode (h : Same s s') : s'.inode = s.inode := by rw [h]

theorem Same.disk (h : Same s s') : s'.disk = s.disk := by rw [h]

theorem Same.log (h : Same s s') : s'.log = s.log := by rw [h]

theorem Same.stores (h : Same s s') (hLog : LogInv s.log s.disk) : Stores s s' (home s) := by
  rw [h]
  exact stores_held hLog _

theorem same_held (s : Kern) (held : Nat → Bool) : Same s { s with held := held } := rfl

theorem Leads.refl (s : Kern) (x : FsM α) : Leads s x x := ⟨fun _ => rfl, fun _ _ h => h s (.refl s)⟩

theorem Leads.trans (h : Leads s x y) (h' : ∀ s', Same s s' → Leads s' y z) : Leads s x z where
  run hHeld := (h.run hHeld).trans ((h' s (.refl s)).run hHeld)
  wp hR _ hQ := h.wp hR fun s₁ h₁ => (h' s₁ h₁).wp hR fun s₂ h₂ => hQ s₂ (h₁.trans h₂)

theorem Leads.bind (h : Leads s x y) (g : α → FsM β) : Leads s (x >>= g) (y >>= g) where
  run hHeld := by rw [run_bind, run_bind, h.run hHeld]
  wp hR Q hQ := by
    rw [wp_bind]
    refine h.wp hR fun s' hs => ?_
    rw [← wp_bind]
    exact hQ s' hs

theorem Leads.hand {a : α} {g : α → FsM β} {y : FsM β} (h : Leads s x (Pure.pure a))
    (h' : ∀ s', Same s s' → Leads s' (g a) y) : Leads s (x >>= g) y :=
  (h.bind g).trans h'

theorem leads_single {l : Label} {f : Kern → α} {g : α → FsM β} {y : FsM β} (hl : l ≠ .balloc ∧ l ≠ .commitTrans)
    (h : Leads s (g (f s)) y) : Leads s (Prog.single l (fun s => .ok (f s, s)) >>= g) y where
  run hHeld := by
    rw [run_bind]
    exact h.run hHeld
  wp hR Q hQ := by
    rw [wp_bind, wp_single]
    exact fun _ => ⟨hR.must _ _ hl, h.wp hR hQ⟩

theorem leads_getK {f : Kern → α} {g : α → FsM β} {y : FsM β} (h : Leads s (g (f s)) y) :
    Leads s (getK f >>= g) y := leads_single ⟨Label.noConfusion, Label.noConfusion⟩ h

theorem held_again {held : Nat → Bool} (h : held n = false) :
    Function.update (Function.update held n true) n false = held := by
  rw [Function.update_idem, ← h, Function.update_eq_self]

theorem run_breadAs (l : Label) (h : s.held n = false) :
    (breadAs l n).run s = .ok (s.disk n, { s with held := Function.update s.held n true }) := by
  simp only [breadAs, Prog.single, Prog.run, h, Bool.false_eq_true, if_false]

theorem run_brelse (h : s.held n = false) :
    (brelse n).run { s with held := Function.update s.held n true } = .ok ((), s) := by
  simp only [brelse, act, Prog.single, Prog.run, Function.update_self, if_true, held_again h]

theorem leads_readBlock {l : Label} {k : Block → FsM α} {g : FsM α} {y : FsM α} (hl : l ≠ .balloc ∧ l ≠ .commitTrans)
    (hk : k (s.disk n) = brelse n >>= fun _ => g) (h : ∀ s', Same s s' → Leads s' g y) : Leads s (breadAs l n >>= k) y where
  run hHeld := by
    rw [run_bind, run_breadAs l (hHeld n)]
    dsimp only
    rw [hk, run_bind, run_brelse (hHeld n)]
    exact (h s (.refl s)).run hHeld
  wp hR Q hQ := by
    rw [wp_bind, breadAs, wp_single]
    refine fun _ => ⟨hR.must _ _ hl, ?_⟩
    by_cases hHere : s.held n
    · rw [if_pos hHere]
      exact hR.stop _ (by simp) (by simp)
    rw [if_neg hHere]
    dsimp only
    rw [hk, wp_bind, brelse]
    apply wp_act hR
    dsimp only
    rw [if_pos (Function.update_self ..)]
    dsimp only
    have hSame := same_held s (Function.update (Function.update s.held n true) n false)
    exact (h _ hSame).wp hR fun s' hs => hQ s' (hSame.trans hs)

end Rules

section Bytes

variable {s s' : Kern} {ip k bn off n : Nat}

theorem leads_bmapAddr (h : (s.inode ip).di.addrs k ≠ 0) :
    Leads s (bmapAddr ip k) (Pure.pure ((s.inode ip).di.addrs k)) := by
  refine leads_single (f := fun s => (s.inode ip).di.addrs k) (by simp) ?_
  rw [if_neg h]
  exact .refl ..

theorem leads_bmap (hBn : bn < maxfile) (hPtr : ptr s.disk (s.inode ip).di (posOf bn) ≠ 0) :
    Leads s (bmap ip bn) (Pure.pure (ptr s.disk (s.inode ip).di (posOf bn))) := by
  rw [bmap]
  by_cases hDirect : bn < ndirect
  · have hPos : posOf bn = bn := if_pos hDirect
    rw [hPos, ptr_le hDirect.le] at hPtr ⊢
    rw [if_pos hDirect]
    exact leads_bmapAddr hPtr
  · have hPos : posOf bn = bn + 1 := if_neg hDirect
    have hGt : ndirect < bn + 1 := by omega
    have hInd : (s.inode ip).di.addrs ndirect ≠ 0 := by
      intro hz
      rw [hPos, ptr_gt_zero hGt hz] at hPtr
      exact hPtr rfl
    have hSub : bn + 1 - (ndirect + 1) = bn - ndirect := by omega
    rw [hPos, ptr_gt hGt hInd, hSub] at hPtr ⊢
    have hIn : bn - ndirect < nindirect := by
      have hMax : maxfile = ndirect + nindirect := rfl
      omega
    rw [if_neg hDirect, if_pos hIn]
    refine (leads_bmapAddr hInd).hand fun s₁ h₁ => ?_
    rw [← h₁.disk] at hPtr ⊢
    refine leads_readBlock (by simp) (by rw [if_neg hPtr]) fun s₂ _ => .refl ..

theorem leads_readiFrom (fuel : Nat) {off n : Nat} (hn : n ≤ fuel) (hMax : off + n ≤ maxfile * bsize)
    (hPtr : ∀ j < n, ptr s.disk (s.inode ip).di (posOf ((off + j) / bsize)) ≠ 0) :
    Leads s (readiFrom ip fuel off n) (Pure.pure ((List.range n).map fun j => byteAt s.disk (s.inode ip).di (off + j))) := by
  induction fuel generalizing s off n with
  | zero =>
    obtain rfl : n = 0 := Nat.le_zero.mp hn
    exact .refl ..
  | succ fuel ih =>
    rw [readiFrom]
    by_cases hz : n = 0
    · subst hz
      exact .refl ..
    rw [if_neg hz]
    have hFirst := hPtr 0 (Nat.pos_of_ne_zero hz)
    rw [Nat.add_zero] at hFirst
    have hBn : off / bsize < maxfile := Nat.div_lt_of_lt_mul (by rw [Nat.mul_comm]; omega)
    refine (leads_bmap hBn hFirst).hand fun s₁ h₁ => leads_readBlock (by simp) rfl fun s₂ h₂ => ?_
    have hs := h₁.trans h₂
    rw [h₁.disk]
    generalize hm : min n (bsize - off % bsize) = m
    have hMod : off % bsize < bsize := Nat.mod_lt _ (by decide)
    rw [← hs.disk, ← hs.inode]
    refine (ih (by omega) (by omega) fun j hj => ?_).hand fun s₃ _ => ?_
    · rw [hs.disk, hs.inode, Nat.add_assoc]
      exact hPtr (m + j) (by omega)
    · rw [hs.disk, hs.inode]
      have hHere : slice (s.disk (ptr s.disk (s.inode ip).di (posOf (off / bsize)))) (off % bsize) m =
          (List.range m).map fun j => byteAt s.disk (s.inode ip).di (off + j) := by
        apply slice_eq_map
        intro j hj
        have hDiv : (off + j) / bsize = off / bsize := div_add_eq (by omega)
        rw [byteAt, hDiv, if_neg hFirst, mod_add_eq (by omega)]
      have hSplit : n = m + (n - m) := by omega
      conv_rhs => rw [hSplit, List.range_add, List.map_append, List.map_map]
      simp only [hHere, Nat.add_assoc]
      exact .refl ..

structure Shows (s : Kern) (ip : Nat) (f : AFile) : Prop where
  type : (s.inode ip).di.type ≠ 0
  full : NoHoles s.disk (s.inode ip).di
  file : fileOf s.disk (s.inode ip).di = f

theorem Shows.same {f : AFile} (h : Shows s ip f) (hs : Same s s') : Shows s' ip f := by
  refine ⟨?_, ?_, ?_⟩
  · rw [hs.inode]
    exact h.type
  · rw [hs.disk, hs.inode]
    exact h.full
  · rw [hs.disk, hs.inode]
    exact h.file

theorem Shows.size {f : AFile} (h : Shows s ip f) : (s.inode ip).di.size = f.size := by
  rw [← h.file, fileOf, if_neg h.type]

theorem Shows.type_eq {f : AFile} (h : Shows s ip f) : (s.inode ip).di.type = f.type := by
  rw [← h.file, fileOf, if_neg h.type]

theorem Shows.leads_readi {f : AFile} (h : Shows s ip f) (hDev : f.type ≠ tDev) :
    Leads s (readi ip off n) (Pure.pure (if CanRead (s.inode ip).di off n then some (f.read off n) else none)) := by
  have hMax := h.full.size
  refine leads_getK ?_
  rw [h.type_eq, if_neg hDev]
  by_cases hCan : CanRead (s.inode ip).di off n
  · have hNot : ¬((s.inode ip).di.size < off ∨ (off + n) % 2 ^ 32 < off) := by
      rw [CanRead] at hCan
      omega
    have hLen : (if (s.inode ip).di.size < off + n then (s.inode ip).di.size - off else n) =
        min (off + n) f.size - off := by
      rw [← h.size]
      split <;> omega
    rw [if_neg hNot, if_pos hCan]
    dsimp only
    rw [hLen]
    have hSize := h.size
    have hOff := hCan.1
    refine (leads_readiFrom _ le_rfl (by omega) fun j hj => h.full.ptr_ne (by omega)).hand fun s₁ _ => ?_
    have hBytes : (List.range (min (off + n) f.size - off)).map (fun j => byteAt s.disk (s.inode ip).di (off + j)) =
        f.read off n := by
      rw [AFile.read]
      apply List.map_congr_left
      intro j hj
      rw [List.mem_range] at hj
      rw [← h.file, fileOf, if_neg h.type]
      dsimp only
      rw [if_pos (by omega)]
    rw [hBytes]
    exact .refl ..
  · have hBad : (s.inode ip).di.size < off ∨ (off + n) % 2 ^ 32 < off := by
      rw [CanRead] at hCan
      omega
    rw [if_pos hBad, if_neg hCan]
    exact .refl ..

end Bytes

section Inodes

variable {s : Kern} {ip : Nat}

theorem run_getInode (s : Kern) (ip : Nat) : (getInode ip).run s = .ok (s.inode ip, s) := rfl

theorem run_modifyInode (s : Kern) (ip : Nat) (f : Inode → Inode) :
    (modifyInode ip f).run s = .ok ((), setInode s ip (f (s.inode ip))) := rfl

theorem run_ilock (hHeld : ∀ n, s.held n = false) (hRef : 0 < (s.inode ip).ref) (hBusy : (s.inode ip).busy = false)
    {di : Dinode} (hDi : di = if (s.inode ip).valid then (s.inode ip).di else dinodeOf s.disk (s.inode ip).inum)
    (hType : di.type ≠ 0) :
    (ilock ip).run s = .ok ((), setInode s ip ⟨(s.inode ip).inum, (s.inode ip).ref, true, true, di⟩) := by
  have hLock : (Prog.single .step fun s : Kern =>
      if (s.inode ip).ref < 1 then .error (.panic .ilock)
      else if (s.inode ip).busy then .error .sleep
      else .ok ((), setInode s ip { s.inode ip with busy := true }) : FsM Unit).run s =
        .ok ((), setInode s ip { s.inode ip with busy := true }) := by
    simp only [Prog.single, Prog.run, if_neg (show ¬(s.inode ip).ref < 1 by omega), hBusy, Bool.false_eq_true, if_false]
  rw [ilock, act, run_bind, hLock]
  dsimp only
  rw [run_bind, run_getInode]
  dsimp only
  rw [setInode_self]
  by_cases hValid : (s.inode ip).valid = true
  · rw [if_neg (by rw [hValid]; decide), run_pure, hDi, if_pos hValid, hValid]
  · rw [if_neg hValid] at hDi
    rw [Bool.not_eq_true] at hValid
    set s₁ := setInode s ip { s.inode ip with busy := true } with hs₁
    have hHeld₁ : s₁.held (iblock (s.inode ip).inum) = false := hHeld _
    have hRead : decodeDinode (s₁.disk (iblock (s.inode ip).inum)) ((s.inode ip).inum % ipb) = di := hDi.symm
    have hRelease (y : Inode) : (brelse (iblock (s.inode ip).inum)).run
        (setInode { s₁ with held := Function.update s₁.held (iblock (s.inode ip).inum) true } ip y) =
          .ok ((), setInode s₁ ip y) := run_brelse (s := setInode s₁ ip y) hHeld₁
    rw [if_pos (by rw [hValid]; rfl), run_bind, bread, run_breadAs _ hHeld₁]
    dsimp only
    rw [hRead, run_bind, modifyDi, run_modifyInode]
    dsimp only
    rw [run_bind, hRelease, hs₁, setInode_idem]
    dsimp only
    rw [run_bind, run_modifyInode]
    dsimp only
    rw [run_bind, run_getInode]
    dsimp only
    rw [setInode_self, setInode_self, setInode_idem, if_neg hType, run_pure, setInode_self]

theorem run_iunlock (hBusy : (s.inode ip).busy = true) (hRef : 0 < (s.inode ip).ref) :
    (iunlock ip).run s = .ok ((), setInode s ip { s.inode ip with busy := false }) := by
  have hNot : ¬((!(s.inode ip).busy) = true ∨ (s.inode ip).ref < 1) := by
    rw [hBusy]
    exact fun hOr => hOr.elim Bool.false_ne_true (by omega)
  simp only [iunlock, act, Prog.single, Prog.run, if_neg hNot]

theorem run_iput (hKeep : ¬((s.inode ip).ref = 1 ∧ (s.inode ip).valid = true ∧ (s.inode ip).di.nlink = 0)) :
    (iput ip).run s = .ok ((), setInode s ip { s.inode ip with ref := (s.inode ip).ref - 1 }) := by
  simp only [iput, run_bind, Prog.single, Prog.run, if_neg hKeep]
  rfl

end Inodes

end Xv6Rpi.Fs
