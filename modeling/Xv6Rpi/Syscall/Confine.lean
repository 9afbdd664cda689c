import Xv6Rpi.Syscall.Args

/-! # User pointers stay inside the caller

What each call touches lies below the caller's size, and a transfer stays in the bytes that
`argptr` was asked about. The exception is `sys_read` with a negative length: `argptr` adds
it to the pointer, `readi` takes it as an unsigned count.
-/

namespace Xv6Rpi.Syscall

open Fs (bsize maxfile tDev)

def Within (lo hi : Nat) (l : List Word) : Prop := ∀ a ∈ l, lo ≤ a.toNat ∧ a.toNat < hi

section Within

variable {lo hi lo' hi' n : Nat} {l l' : List Word} {p q : Word}

theorem Within.nil : Within lo hi [] := fun _ h => by cases h

theorem Within.append (h : Within lo hi l) (h' : Within lo hi l') : Within lo hi (l ++ l') := by
  intro a ha
  rcases List.mem_append.mp ha with ha | ha
  · exact h a ha
  · exact h' a ha

theorem Within.cons (hLo : lo ≤ p.toNat) (hHi : p.toNat < hi) (h : Within lo hi l) : Within lo hi (p :: l) := by
  intro a ha
  rcases List.mem_cons.mp ha with rfl | ha
  · exact ⟨hLo, hHi⟩
  · exact h a ha

theorem Within.mono (h : Within lo' hi' l) (hLo : lo ≤ lo') (hHi : hi' ≤ hi) : Within lo hi l := by
  intro a ha
  have := h a ha
  omega

theorem toNat_add (hn : p.toNat + n < 2 ^ 32) : (p + BitVec.ofNat 32 n).toNat = p.toNat + n := by
  rw [BitVec.toNat_add, BitVec.toNat_ofNat]
  omega

theorem toNat_add_one (hn : p.toNat + 1 < 2 ^ 32) : (p + 1).toNat = p.toNat + 1 := toNat_add hn

theorem span_within (hLo : lo ≤ p.toNat) (hHi : p.toNat + n ≤ hi) (h : hi ≤ 2 ^ 32) :
    Within lo hi (span p n) := by
  intro a ha
  obtain ⟨k, hk, rfl⟩ := List.mem_map.mp ha
  rw [List.mem_range] at hk
  rw [toNat_add (by omega)]
  omega

/-! ## Transfers -/

theorem moveFrom_within (off : Word) (hLo : lo ≤ p.toNat) (hHi : p.toNat + n ≤ hi) (h : hi ≤ 2 ^ 31) :
    Within lo hi (moveFrom p off n) := by
  induction n using Nat.strongRecOn generalizing p off with
  | ind n ih =>
    rw [moveFrom]
    split
    · exact .nil
    · have hMod : off.toNat % bsize < bsize := Nat.mod_lt _ (by decide)
      have hNext : (p + BitVec.ofNat 32 (min n (bsize - off.toNat % bsize))).toNat =
          p.toNat + min n (bsize - off.toNat % bsize) := toNat_add (by omega)
      exact (span_within hLo (by omega) (by omega)).append (ih _ (by omega) _ (by omega) (by omega))

theorem mem_moveFrom (off : Word) (hn : 0 < n) : p ∈ moveFrom p off n := by
  have hMod : off.toNat % bsize < bsize := Nat.mod_lt _ (by decide)
  rw [moveFrom, if_neg (by omega)]
  refine List.mem_append_left _ (List.mem_map.mpr ⟨0, ?_, by simp⟩)
  rw [List.mem_range]
  omega

theorem consoleFrom_within (cs : List (BitVec 8)) (hLo : lo ≤ p.toNat) (hHi : p.toNat + n ≤ hi)
    (h : hi ≤ 2 ^ 31) : Within lo hi (consoleFrom p n cs).2 := by
  induction n generalizing p cs with
  | zero => exact .nil
  | succ n ih =>
    cases cs with
    | nil => exact .nil
    | cons c cs =>
      rw [consoleFrom]
      split
      · exact .nil
      · split
        · exact .cons hLo (by omega) .nil
        · have hNext := toNat_add_one (p := p) (by omega)
          exact .cons hLo (by omega) (ih cs (by omega) (by omega))

theorem toInt_toNat (v : Word) :
    v.toInt.toNat = v.toNat ∧ 0 ≤ v.toInt ∧ v.toNat < 2 ^ 31 ∨ v.toInt.toNat = 0 ∧ v.toInt < 0 := by
  rw [BitVec.toInt_eq_toNat_cond]
  split <;> omega

theorem writei_within (ip : Inode) (off size : Word) (hLo : lo ≤ p.toNat) (hHi : p.toNat + n ≤ hi)
    (h : hi ≤ 2 ^ 31) : Within lo hi (writei ip p off size (BitVec.ofNat 32 n)).2 := by
  have hn : (BitVec.ofNat 32 n).toNat = n := by
    rw [BitVec.toNat_ofNat]
    omega
  rw [writei]
  split
  · split
    · have := toInt_toNat (BitVec.ofNat 32 n)
      exact span_within hLo (by omega) (by omega)
    · exact .nil
  · split
    · exact .nil
    · split
      · exact .nil
      · exact moveFrom_within off hLo (by omega) h

theorem filewriteFrom_within (e : Env) (ip : Inode) (k : Nat) (hLo : lo ≤ p.toNat) (hHi : p.toNat + n ≤ hi)
    (h : hi ≤ 2 ^ 31) : Within lo hi (filewriteFrom e ip p k n) := by
  induction n using Nat.strongRecOn generalizing p k with
  | ind n ih =>
    rw [filewriteFrom]
    split
    · exact .nil
    · have hMax : 0 < maxWrite := by decide
      have hPart : Within lo hi (writei ip p (e.off k) (e.size k) (BitVec.ofNat 32 (min n maxWrite))).2 :=
        writei_within ip _ _ hLo (by omega) h
      have hNext : (p + BitVec.ofNat 32 (min n maxWrite)).toNat = p.toNat + min n maxWrite := toNat_add (by omega)
      dsimp only
      split
      · exact hPart
      · exact hPart.append (ih _ (by omega) _ (by omega) (by omega))

end Within

/-! ## Strings -/

def IsStr (mem : Word → BitVec 8) (s : Word) : Nat → Prop
  | 0 => mem s = 0
  | len + 1 => mem s ≠ 0 ∧ IsStr mem (s + 1) len

section Strings

variable {mem : Word → BitVec 8} {s : Word} {len hi : Nat}

theorem strFrom_within (s : Word) (left : Nat) (h : s.toNat + left ≤ hi) (hHi : hi ≤ 2 ^ 31) :
    Within 0 hi (strFrom mem s left).2 := by
  induction left generalizing s with
  | zero => exact .nil
  | succ left ih =>
    rw [strFrom]
    split
    · exact .cons (by omega) (by omega) .nil
    · have hNext := toNat_add_one (p := s) (by omega)
      exact .cons (by omega) (by omega) (ih (s + 1) (by omega))

theorem strFrom_isStr {left : Nat} (h : (strFrom mem s left).1 = some len) : IsStr mem s len ∧ len < left := by
  induction left generalizing s len with
  | zero => cases h
  | succ left ih =>
    rw [strFrom] at h
    split at h
    · next hs =>
      obtain rfl := Option.some.inj h
      exact ⟨hs, by omega⟩
    · next hs =>
      obtain ⟨l, hl, rfl⟩ := Option.map_eq_some_iff.mp h
      obtain ⟨hStr, hlt⟩ := ih hl
      exact ⟨⟨hs, hStr⟩, by omega⟩

/-- A loop that stops at a nul, at the latest, stays inside the string. -/
theorem IsStr.strFrom (h : IsStr mem s len) (hs : s.toNat + len < hi) (hHi : hi ≤ 2 ^ 31) (left : Nat) :
    Within 0 hi (strFrom mem s left).2 := by
  induction left generalizing s len with
  | zero => exact .nil
  | succ left ih =>
    rw [Syscall.strFrom]
    split
    · exact .cons (by omega) (by omega) .nil
    · next hNe =>
      cases len with
      | zero => exact absurd h hNe
      | succ len =>
        have hNext := toNat_add_one (p := s) (by omega)
        exact .cons (by omega) (by omega) (ih h.2 (by omega))

theorem IsStr.unique {len' : Nat} (h : IsStr mem s len) (h' : IsStr mem s len') : len = len' := by
  induction len generalizing s len' with
  | zero =>
    cases len' with
    | zero => rfl
    | succ len' => exact absurd h h'.1
  | succ len ih =>
    cases len' with
    | zero => exact absurd h' h.1
    | succ len' => rw [ih h.2 h'.2]

/-- A string starts at `t` and ends below `hi`. -/
def Tail (mem : Word → BitVec 8) (hi : Nat) (t : Word) : Prop := ∃ len, IsStr mem t len ∧ t.toNat + len < hi

theorem Tail.next (h : Tail mem hi s) (hHi : hi ≤ 2 ^ 31) (hs : mem s ≠ 0) : Tail mem hi (s + 1) := by
  obtain ⟨len, hStr, hlt⟩ := h
  cases len with
  | zero => exact absurd hStr hs
  | succ len =>
    have hNext := toNat_add_one (p := s) (by omega)
    exact ⟨len, hStr.2, by omega⟩

theorem Tail.lt (h : Tail mem hi s) : s.toNat < hi := by
  obtain ⟨len, -, hlt⟩ := h
  omega

theorem Tail.scan (h : Tail mem hi s) (hHi : hi ≤ 2 ^ 31) (more : BitVec 8 → Bool) (hMore : more 0 = false)
    (left : Nat) : Tail mem hi (scan mem more s left).1 ∧ Within 0 hi (scan mem more s left).2 := by
  induction left generalizing s with
  | zero => exact ⟨h, .nil⟩
  | succ left ih =>
    rw [Syscall.scan]
    split
    · next hs =>
      have hNe : mem s ≠ 0 := by
        intro hz
        rw [hz, hMore] at hs
        cases hs
      obtain ⟨hTail, hIn⟩ := ih (h.next hHi hNe)
      exact ⟨hTail, .cons (by omega) h.lt hIn⟩
    · exact ⟨h, .cons (by omega) h.lt .nil⟩

theorem Tail.skipelem (h : Tail mem hi s) (hHi : hi ≤ 2 ^ 31) :
    Within 0 hi (skipelem mem s).2 ∧ ∀ t, (skipelem mem s).1 = some t → Tail mem hi t := by
  obtain ⟨hLead, hLeadIn⟩ := h.scan hHi (· = slash) (by decide) (2 ^ 32)
  obtain ⟨hElem, hElemIn⟩ := hLead.scan hHi (fun c => c ≠ slash ∧ c ≠ 0) (by decide) (2 ^ 32)
  obtain ⟨hRest, hRestIn⟩ := hElem.scan hHi (· = slash) (by decide) (2 ^ 32)
  rw [Syscall.skipelem]
  dsimp only
  split
  · exact ⟨hLeadIn, fun t ht => by cases ht⟩
  · refine ⟨(hLeadIn.append hElemIn).append hRestIn, fun t ht => ?_⟩
    obtain rfl := Option.some.inj ht
    exact hRest

theorem Tail.namex (h : Tail mem hi s) (hHi : hi ≤ 2 ^ 31) (n : Nat) : Within 0 hi (namex mem s n) := by
  induction n generalizing s with
  | zero => exact (h.skipelem hHi).1
  | succ n ih =>
    obtain ⟨hIn, hRest⟩ := h.skipelem hHi
    rw [Syscall.namex]
    split
    · exact hIn
    · next t ht => exact hIn.append (ih (hRest t ht))

theorem Tail.lastElem {last : Word} (h : Tail mem hi s) (hLast : Tail mem hi last) (hHi : hi ≤ 2 ^ 31) (left : Nat) :
    Tail mem hi (lastElem mem last s left).1 ∧ Within 0 hi (lastElem mem last s left).2 := by
  induction left generalizing s last with
  | zero => exact ⟨hLast, .nil⟩
  | succ left ih =>
    rw [Syscall.lastElem]
    split
    · exact ⟨hLast, .cons (by omega) h.lt .nil⟩
    · next hNe =>
      have hNext := h.next hHi hNe
      have hLast' : Tail mem hi (if mem s = slash then s + 1 else last) := by
        split
        · exact hNext
        · exact hLast
      obtain ⟨hTail, hIn⟩ := ih hNext hLast'
      exact ⟨hTail, .cons (by omega) h.lt hIn⟩

theorem copyoutFrom_within (page : Word → Bool) (va buf : Word) (n : Nat) (h : buf.toNat + n ≤ hi)
    (hHi : hi ≤ 2 ^ 31) : Within 0 hi (copyoutFrom page va buf n).2 := by
  induction n using Nat.strongRecOn generalizing va buf with
  | ind n ih =>
    rw [copyoutFrom]
    split
    · exact .nil
    · split
      · exact .nil
      · have hMod : va.toNat % pteSz < pteSz := Nat.mod_lt _ (by decide)
        have hNext : (buf + BitVec.ofNat 32 (min (pteSz - va.toNat % pteSz) n)).toNat =
            buf.toNat + min (pteSz - va.toNat % pteSz) n := toNat_add (by omega)
        exact (span_within (by omega) (by omega) (by omega)).append (ih _ (by omega) _ _ (by omega))

end Strings

/-! ## The calls -/

section Calls

variable {u : Caller} {e : Env}

theorem sz_le (u : Caller) : u.sz.toNat ≤ 2 ^ 31 := by
  have := u.sz_lt
  simp only [uaddrSz] at this
  omega

theorem fetchint_within (u : Caller) (addr : Word) : Within 0 u.sz.toNat (fetchint u addr).2 := by
  rw [fetchint]
  split
  · exact .nil
  · next h =>
    have := u.sz_lt
    have hAdd : (addr + 4).toNat = (addr.toNat + 4) % 2 ^ 32 := BitVec.toNat_add addr 4
    simp only [uaddrSz] at this
    simp only [not_or, ge_iff_le, gt_iff_lt, BitVec.le_def, BitVec.lt_def, not_le, not_lt] at h
    exact span_within (by omega) (by omega) (by omega)

theorem fetchstr_within (u : Caller) (addr : Word) : Within 0 u.sz.toNat (fetchstr u addr).2 := by
  rw [fetchstr]
  split
  · exact .nil
  · next h =>
    rw [ge_iff_le, BitVec.le_def] at h
    exact strFrom_within addr _ (by omega) (sz_le u)

theorem fetchstr_tail {addr : Word} (h : (fetchstr u addr).1 ≠ none) : Tail u.mem u.sz.toNat addr := by
  obtain ⟨len, hLen⟩ := Option.ne_none_iff_exists'.mp h
  rw [fetchstr] at hLen
  split at hLen
  · cases hLen
  · next hs =>
    rw [ge_iff_le, BitVec.le_def] at hs
    obtain ⟨hStr, hlt⟩ := strFrom_isStr hLen
    exact ⟨len, hStr, by omega⟩

theorem argptr_eq_some {n : Fin 4} {size p : Word} (h : argptr u n size = some p) :
    p = u.reg n ∧ p.toNat < u.sz.toNat ∧ (p.toNat + size.toNat) % 2 ^ 32 ≤ u.sz.toNat := by
  rw [argptr] at h
  obtain ⟨hNot, he⟩ := Option.ite_none_left_eq_some.mp h
  obtain rfl := Option.some.inj he
  simp only [argint, not_or, ge_iff_le, gt_iff_lt, BitVec.le_def, BitVec.lt_def, not_le, not_lt,
    BitVec.toNat_add] at hNot
  exact ⟨rfl, hNot⟩

theorem argvFrom_within (u : Caller) (uargv : Word) (left : Nat) :
    Within 0 u.sz.toNat (argvFrom u uargv left).2 := by
  induction left generalizing uargv with
  | zero => exact .nil
  | succ left ih =>
    rw [argvFrom]
    split
    · exact .nil
    · next uarg _ =>
      have hInt := fetchint_within u uargv
      have hStr := fetchstr_within u uarg
      split
      · exact hInt
      · split
        · exact hInt.append hStr
        · exact (hInt.append hStr).append (ih _)

theorem argvFrom_tail {uargv : Word} {left : Nat} {argv : List Word}
    (h : (argvFrom u uargv left).1 = some argv) : ∀ a ∈ argv, Tail u.mem u.sz.toNat a := by
  induction left generalizing uargv argv with
  | zero => cases h
  | succ left ih =>
    rw [argvFrom] at h
    split at h
    · cases h
    · split at h
      · obtain rfl := Option.some.inj h
        intro a ha
        cases ha
      · split at h
        · cases h
        · next hStr =>
          obtain ⟨rest, hRest, rfl⟩ := Option.map_eq_some_iff.mp h
          intro a ha
          rcases List.mem_cons.mp ha with rfl | ha
          · exact fetchstr_tail hStr
          · exact ih hRest a ha

theorem pushArgs_within (e : Env) (sp : Word) {argv : List Word}
    (h : ∀ a ∈ argv, Tail u.mem u.sz.toNat a) : Within 0 u.sz.toNat (pushArgs u e sp argv).2 := by
  induction argv generalizing sp with
  | nil => exact .nil
  | cons arg args ih =>
    obtain ⟨len, hStr, hlt⟩ := h arg List.mem_cons_self
    have hLen : Within 0 u.sz.toNat (strlen u.mem arg).2 := hStr.strFrom hlt (sz_le u) _
    rw [pushArgs]
    split
    · exact hLen
    · next l hl =>
      obtain rfl := hStr.unique (strFrom_isStr hl).1
      have hCopy (va : Word) : Within 0 u.sz.toNat (copyoutFrom e.page va arg (len + 1)).2 :=
        copyoutFrom_within e.page va arg _ (by omega) (sz_le u)
      dsimp only
      split
      · exact hLen.append (hCopy _)
      · exact (hLen.append (hCopy _)).append (ih _ fun a ha => h a (List.mem_cons_of_mem _ ha))

theorem exec_within (e : Env) {path : Word} {argv : List Word} (hPath : Tail u.mem u.sz.toNat path)
    (hArgv : ∀ a ∈ argv, Tail u.mem u.sz.toNat a) : Within 0 u.sz.toNat (exec u e path argv) := by
  refine (hPath.namex (sz_le u) e.elems).append ?_
  split
  · exact .nil
  · next sz _ =>
    have hArgs := pushArgs_within e sz hArgv
    obtain ⟨⟨len, hStr, hlt⟩, hLast⟩ := hPath.lastElem hPath (sz_le u) (2 ^ 32)
    dsimp only
    split
    · exact hArgs
    · exact (hArgs.append hLast).append (hStr.strFrom hlt (sz_le u) _)

theorem sysExec_within (u : Caller) (e : Env) : Within 0 u.sz.toNat (sysExec u e) := by
  have hPath := fetchstr_within u (argint u 0)
  have hArgv := argvFrom_within u (argint u 1) maxarg
  rw [sysExec]
  split
  · next r hr =>
    have : r = (fetchstr u (argint u 0)).2 := congrArg Prod.snd hr.symm
    rwa [this]
  · next path r hr =>
    have he : r = (fetchstr u (argint u 0)).2 := congrArg Prod.snd hr.symm
    obtain ⟨len, hLen, rfl⟩ := Option.map_eq_some_iff.mp (congrArg Prod.fst hr)
    have hTail : Tail u.mem u.sz.toNat (argint u 0) := fetchstr_tail (by rw [hLen]; simp)
    rw [he]
    split
    · next r' hr' =>
      rw [hr'] at hArgv
      exact hPath.append hArgv
    · next argv r' hr' =>
      have hTails := argvFrom_tail (u := u) (congrArg Prod.fst hr')
      rw [hr'] at hArgv
      exact (hPath.append hArgv).append (exec_within e hTail hTails)

/-- The bytes a read or a write is asked to move: none if the length is negative. -/
def Asked (u : Caller) (a : Word) : Prop :=
  (u.reg 1).toNat ≤ a.toNat ∧ (a.toNat : Int) < (u.reg 1).toNat + (u.reg 2).toInt

/-- All that a call touches is below the caller's size, and a read or a write only moves the
bytes that it was asked to move. -/
def Confined (u : Caller) (e : Env) : Call → Prop
  | .read => ∀ a ∈ touched u e .read, a.toNat < u.sz.toNat ∧ Asked u a
  | .write => ∀ a ∈ touched u e .write, a.toNat < u.sz.toNat ∧ Asked u a
  | c => ∀ a ∈ touched u e c, a.toNat < u.sz.toNat

/-- `argptr` accepts a negative length, and the file is a readable one on disk with bytes
past its offset, from which the length, taken as a count, does not wrap around. -/
def Overruns (u : Caller) (e : Env) : Prop :=
  ∃ f ip, argfd u 0 = some f ∧ f.readable = true ∧ f.type = .inode ip ∧ ip.type ≠ tDev ∧
    argptr u 1 (u.reg 2) ≠ none ∧ (u.reg 2).toInt < 0 ∧ e.off 0 < e.size 0 ∧
    (e.off 0).toNat + (u.reg 2).toNat < 2 ^ 32

/-- A length that is not negative is the number of bytes that the check let through. -/
theorem asked_of_within {l : List Word} {p : Word} (hp : argptr u 1 (u.reg 2) = some p)
    (h : 0 ≤ (u.reg 2).toInt → Within p.toNat (p.toNat + (u.reg 2).toNat) l)
    (hNeg : (u.reg 2).toInt < 0 → l = []) : ∀ a ∈ l, a.toNat < u.sz.toNat ∧ Asked u a := by
  obtain ⟨rfl, hlt, hle⟩ := argptr_eq_some hp
  have hSz := u.sz_lt
  simp only [uaddrSz] at hSz
  intro a ha
  rcases toInt_toNat (u.reg 2) with ⟨hn, h0, hlt'⟩ | ⟨-, h0⟩
  · have := h h0 a ha
    simp only [Asked]
    omega
  · rw [hNeg h0] at ha
    cases ha

theorem readi_within (e : Env) (ip : Inode) (off size : Word) {p n : Word}
    (h : p.toNat + n.toNat ≤ 2 ^ 31) : Within p.toNat (p.toNat + n.toNat) (readi e ip p off size n).2 := by
  have hNat := toInt_toNat n
  rw [readi]
  split
  · split
    · exact consoleFrom_within e.typed le_rfl (by omega) h
    · exact .nil
  · split
    · exact .nil
    · next hOk =>
      simp only [not_or, gt_iff_lt, BitVec.lt_def, not_lt, BitVec.toNat_add] at hOk
      refine moveFrom_within off le_rfl ?_ h
      split
      · next hMore =>
        rw [gt_iff_lt, BitVec.lt_def, BitVec.toNat_add] at hMore
        rw [BitVec.toNat_sub]
        omega
      · exact le_rfl

theorem fileread_within (e : Env) (f : File) {p n : Word} (h : p.toNat + n.toNat ≤ 2 ^ 31) :
    Within p.toNat (p.toNat + n.toNat) (fileread e f p n).2 := by
  have hNat := toInt_toNat n
  rw [fileread]
  split
  · exact .nil
  · split
    · rw [piperead]
      split
      · exact .nil
      · exact span_within le_rfl (by omega) (by omega)
    · exact readi_within e _ _ _ h
    · exact .nil

theorem filewrite_within (e : Env) (f : File) {p n : Word} (h : p.toNat + n.toNat ≤ 2 ^ 31) :
    Within p.toNat (p.toNat + n.toNat) (filewrite e f p n) := by
  have hNat := toInt_toNat n
  rw [filewrite]
  split
  · exact .nil
  · split
    · exact span_within le_rfl (by omega) (by omega)
    · exact filewriteFrom_within e _ 0 le_rfl (by omega) h
    · exact .nil

theorem filewrite_of_neg (e : Env) (f : File) (p : Word) {n : Word} (hn : n.toInt < 0) : filewrite e f p n = [] := by
  have hz : n.toInt.toNat = 0 := by omega
  rw [filewrite]
  split
  · rfl
  · split
    · simp [pipewrite, hz, span]
    · rw [filewriteFrom, if_pos hz]
    · rfl

/-- With a negative length only `readi` on a file on disk touches anything. -/
theorem fileread_of_neg (e : Env) (f : File) (p : Word) {n : Word} (hn : n.toInt < 0) :
    (fileread e f p n).2 = [] ∨ ∃ ip, f.readable = true ∧ f.type = .inode ip ∧ ip.type ≠ tDev ∧
      e.off 0 < e.size 0 ∧ (e.off 0).toNat + n.toNat < 2 ^ 32 := by
  have hz : n.toInt.toNat = 0 := by omega
  rw [fileread]
  split
  · exact .inl rfl
  · next hr =>
    split
    · rw [piperead]
      split
      · exact .inl rfl
      · exact .inl (by simp [hz, span])
    · next ip hip =>
      rw [readi]
      split
      · split
        · exact .inl (by rw [consoleread, hz, consoleFrom])
        · exact .inl rfl
      · next hDev =>
        split
        · exact .inl rfl
        · next hOk =>
          simp only [not_or, gt_iff_lt, BitVec.lt_def, not_lt, BitVec.toNat_add] at hOk
          rcases lt_or_ge (e.off 0).toNat (e.size 0).toNat with hlt | hge
          · refine .inr ⟨ip, by simpa using hr, hip, hDev, hlt, ?_⟩
            have := n.isLt
            omega
          · -- at the end of the file nothing is left to read
            have hEq : e.off 0 = e.size 0 := BitVec.eq_of_toNat_eq (by omega)
            have hPos : 0 < n.toNat := by
              rw [BitVec.toInt_eq_toNat_cond] at hn
              split at hn <;> omega
            have hMore : e.off 0 + n > e.size 0 := by
              rw [gt_iff_lt, BitVec.lt_def, BitVec.toNat_add]
              have := n.isLt
              omega
            left
            rw [if_pos hMore, hEq]
            simp [moveFrom]
    · exact .inl rfl

theorem mem_fileread_of_neg {f : File} {ip : Inode} {p n : Word} (hn : n.toInt < 0) (hr : f.readable = true)
    (hip : f.type = .inode ip) (hDev : ip.type ≠ tDev) (hOff : e.off 0 < e.size 0)
    (hWrap : (e.off 0).toNat + n.toNat < 2 ^ 32) : p ∈ (fileread e f p n).2 := by
  rw [BitVec.lt_def] at hOff
  have hNot : ¬ (e.off 0 > e.size 0 ∨ e.off 0 + n < e.off 0) := by
    simp only [not_or, gt_iff_lt, BitVec.lt_def, not_lt, BitVec.toNat_add]
    omega
  have hPos : 0 < n.toNat := by
    rw [BitVec.toInt_eq_toNat_cond] at hn
    split at hn <;> omega
  simp only [fileread, hr, hip, readi, if_neg hDev, if_neg hNot, Bool.true_eq_false, if_false]
  refine mem_moveFrom _ ?_
  split
  · rw [BitVec.toNat_sub]
    omega
  · exact hPos

theorem sysRead_confined_iff (u : Caller) (e : Env) : Confined u e .read ↔ ¬ Overruns u e := by
  constructor
  · rintro h ⟨f, ip, hf, hr, hip, hDev, hp, hNeg, hOff, hWrap⟩
    obtain ⟨p, hp⟩ := Option.ne_none_iff_exists'.mp hp
    have hPtr := argptr_eq_some hp
    -- the first byte of the transfer is already one too many
    have hMem : p ∈ touched u e .read := by
      have hArg : argptr u 1 (argint u 2) = some p := hp
      simp only [touched, sysRead, hf, hArg]
      exact mem_fileread_of_neg hNeg hr hip hDev hOff hWrap
    have := (h p hMem).2
    simp only [Asked, ← hPtr.1] at this
    omega
  · intro hOver
    simp only [Confined, touched, sysRead]
    split
    · next f p hf hp =>
      have hPtr := argptr_eq_some hp
      have hSz := u.sz_lt
      simp only [uaddrSz] at hSz
      refine asked_of_within hp (fun hn => ?_) fun hn => ?_
      · have := toInt_toNat (u.reg 2)
        exact fileread_within e f (by rw [argint] at *; omega)
      · rcases fileread_of_neg e f p hn with hNil | ⟨ip, hr, hip, hDev, hOff, hWrap⟩
        · exact hNil
        · exact absurd ⟨f, ip, hf, hr, hip, hDev, by rw [argint] at hp; simp [hp], hn, hOff, hWrap⟩ hOver
    · intro a ha
      cases ha

theorem sysWrite_confined (u : Caller) (e : Env) : Confined u e .write := by
  simp only [Confined, touched, sysWrite]
  split
  · next f p hf hp =>
    have hPtr := argptr_eq_some hp
    have hSz := u.sz_lt
    simp only [uaddrSz] at hSz
    refine asked_of_within hp (fun hn => ?_) fun hn => filewrite_of_neg e f p hn
    have := toInt_toNat (u.reg 2)
    exact filewrite_within e f (by rw [argint] at *; omega)
  · intro a ha
    cases ha

theorem argptr_object {n : Fin 4} {size p : Word} (h : argptr u n size = some p) (hSize : size.toNat ≤ 2 ^ 31) :
    p.toNat + size.toNat ≤ u.sz.toNat := by
  obtain ⟨-, hlt, hle⟩ := argptr_eq_some h
  have hSz := u.sz_lt
  simp only [uaddrSz] at hSz
  omega

/-- A field of `n` bytes at offset `k` of that object. -/
theorem field_within {k n hi : Nat} {p : Word} (h : p.toNat + (k + n) ≤ hi) (hHi : hi ≤ 2 ^ 31) :
    Within 0 hi (span (p + BitVec.ofNat 32 k) n) := by
  rcases Nat.eq_zero_or_pos n with rfl | hn
  · exact .nil
  · have := toNat_add (p := p) (n := k) (by omega)
    exact span_within (by omega) (by omega) (by omega)

theorem sysFstat_within (u : Caller) : Within 0 u.sz.toNat (sysFstat u) := by
  rw [sysFstat]
  split
  · next f st _ hp =>
    have hObj : st.toNat + 20 ≤ u.sz.toNat := argptr_object hp (by decide)
    rw [filestat]
    split
    · have hField (k n : Nat) (hk : k + n ≤ 20) := field_within (k := k) (n := n) (p := st) (by omega) (sz_le u)
      exact ((((hField 4 4 (by omega)).append (hField 8 4 (by omega))).append
        (span_within (by omega) (by omega) (by have := sz_le u; omega))).append
        (hField 12 2 (by omega))).append (hField 16 4 (by omega))
    · exact .nil
  · exact .nil

theorem sysPipe_within (u : Caller) (e : Env) : Within 0 u.sz.toNat (sysPipe u e) := by
  rw [sysPipe]
  split
  · next fd hp =>
    have hObj : fd.toNat + 8 ≤ u.sz.toNat := argptr_object hp (by decide)
    split
    · exact (span_within (by omega) (by omega) (by have := sz_le u; omega)).append
        (field_within (k := 4) (by omega) (sz_le u))
    · exact .nil
  · exact .nil

/-- For every caller and everything it may find, a call is confined to the caller's memory
and to the bytes it was asked to move unless it is a read that overruns. -/
theorem confined_iff (u : Caller) (e : Env) (c : Call) : Confined u e c ↔ ¬ (c = .read ∧ Overruns u e) := by
  cases c with
  | read => simpa using sysRead_confined_iff u e
  | write => simpa using sysWrite_confined u e
  | fstat => exact iff_of_true (fun a ha => (sysFstat_within u a ha).2) (by simp)
  | pipe => exact iff_of_true (fun a ha => (sysPipe_within u e a ha).2) (by simp)
  | exec => exact iff_of_true (fun a ha => (sysExec_within u e a ha).2) (by simp)

/-- A process of one page that has a file of 512 bytes open, and asks for -1 bytes at its last address. -/
def shortReader : Caller where
  sz := 4096
  sz_lt := by decide
  reg := ![0, 4095, -1, 0]
  mem _ := 0
  ofile fd := if fd = 0 then some ⟨.inode ⟨Fs.tFile, 0⟩, true, true⟩ else none

def atStart : Env := ⟨fun _ => 0, fun _ => 512, none, 0, [], true, 0, none, fun _ => false⟩

theorem negative_read_not_confined : ¬ Confined shortReader atStart .read := by
  rw [sysRead_confined_iff, not_not]
  exact ⟨_, ⟨Fs.tFile, 0⟩, rfl, rfl, rfl, by decide, by decide, by decide, by decide, by decide⟩

end Calls

end Xv6Rpi.Syscall
