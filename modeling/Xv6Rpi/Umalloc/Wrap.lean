import Xv6Rpi.Umalloc.Runs

/-! # Requests that wrap

`malloc` over the kernel's own sbrk, for every 32-bit request. The count of units wraps for the last
requests below `2 ^ 32`, and is 1 for them; from `2 ^ 31 - 15` on, the bytes that `morecore` asks for are
a negative number to `growproc`, or zero, and what it answers is taken for memory of that size. Each
call of `morecore` leaves a record of the break before it and after it, and of the block it has made.
-/

namespace Xv6Rpi.Umalloc

open Links

def asInt (n : Nat) : Int := (BitVec.ofNat 32 n).toInt

/-- `growproc` of a process of size `sz`: its new size, `none` for -1, and the size up to which it has
memory afterwards. `allocuvm` and `deallocuvm` are known by what they return; `answer` is whether
`allocuvm` finds the pages. -/
def growproc (sz : Nat) (n : Int) (answer : Bool) : Option Nat × Nat :=
  let newsz := ((sz + n) % 2 ^ 32).toNat
  if n > 0 then
    if newsz ≥ uaddrSz then (none, sz)
    else if newsz < sz then (some sz, sz)
    else if answer then (some newsz, newsz)
    else (none, sz)
  else if n < 0 then
    if newsz ≥ sz then (some sz, sz)
    -- 0 is the size of an empty process and the failure of deallocuvm as well
    else if newsz = 0 then (none, 0)
    else (some newsz, newsz)
  else (some sz, sz)

/-- What a call of `morecore` has done: the memory of the process before and after sbrk, and the bytes of
the block that has entered the free list. -/
structure Grant where
  before : Nat
  after : Nat
  block : Nat
  deriving DecidableEq

/-- `morecore` over `sys_sbrk`, which returns the break that was. The header is written there, whether
the process has the memory or would be killed for it. -/
def morecoreSys (h : Heap) (nu : Nat) (answers : List Bool) : Option (Nat × Heap × Grant) :=
  let nu := if nu < 4096 then 4096 else nu
  match growproc h.brk (asInt (nu * sizeofHeader % 2 ^ 32)) (answers.headD false) with
  | (none, left) => some (0, h, ⟨h.brk, left, 0⟩)
  | (some sz, left) =>
    match free (Heap.setSize { h with brk := sz } h.brk nu) (h.brk + sizeofHeader) with
    | none => none
    | some h' => some (h'.freep, h', ⟨h.brk, left, nu * sizeofHeader⟩)

def mallocLoopSys (nunits : Nat) : Nat → List Bool → Heap → Nat → Nat → Option (Nat × Heap × List Grant)
  | 0, _, _, _, _ => none
  | n + 1, answers, h, prevp, p =>
    if h.size p ≥ nunits then some ((carve h nunits prevp p).1, (carve h nunits prevp p).2, [])
    else if p = h.freep then
      match morecoreSys h nunits answers with
      | none => none
      | some (p, h, g) =>
        if p = 0 then some (0, h, [g])
        else (mallocLoopSys nunits n answers.tail h p (h.ptr p)).map fun r => (r.1, r.2.1, g :: r.2.2)
    else mallocLoopSys nunits n answers h p (h.ptr p)

def mallocSys (base nbytes : Nat) (answers : List Bool) (h : Heap) : Option (Nat × Heap × List Grant) :=
  let h := if h.freep = 0 then { (h.setPtr base base).setSize base 0 with freep := base } else h
  mallocLoopSys (units nbytes) (2 * uaddrSz) answers h h.freep (h.ptr h.freep)

/-! ## What a call should do -/

/-- The break has not moved down, and the block is no larger than the memory that was obtained. -/
def Grant.Ok (g : Grant) : Prop := g.before ≤ g.after ∧ g.block ≤ g.after - g.before

/-- The call ends, `morecore` has made nothing out of memory that is not there, and the call returns 0
or the address of so many bytes, which belong to a block of their own below the break. -/
def Served (L : Layout) (taken : List Nat) (nbytes : Nat) (o : Option (Nat × Heap × List Grant)) : Prop :=
  ∃ ap h' grants, o = some (ap, h', grants) ∧ (∀ g ∈ grants, g.Ok) ∧
    (ap = 0 ∨ sizeofHeader < ap ∧ Ordered L h' ((ap - sizeofHeader) :: taken) ∧
      ap + nbytes ≤ h'.stop (ap - sizeofHeader) ∧ h'.stop (ap - sizeofHeader) ≤ h'.brk)

/-- The kernel gives the memory that `morecore` asks for. -/
def granted (brk nunits : Nat) (answers : List Bool) : Bool :=
  answers.headD false && decide (brk + sizeofHeader * (if nunits < 4096 then 4096 else nunits) < uaddrSz)

section Sim

variable {L : Layout} {h h' : Heap} {rest taken : List Nat} {nunits nu n : Nat}

theorem join_brk (h : Heap) (a b : Nat) : (join h a b).brk = h.brk := by
  rw [join]
  split <;> rfl

theorem free_brk {ap : Nat} (hFree : free h ap = some h') : h'.brk = h.brk := by
  rw [free] at hFree
  dsimp only at hFree
  split at hFree
  · cases hFree
  · obtain rfl := Option.some.inj hFree
    exact (join_brk ..).trans (join_brk ..)

/-- A request below `2 ^ 31` bytes is the number it is, and a later one is negative. -/
theorem asInt_eq (hLt : n < 2 ^ 32) : asInt n = if n < 2 ^ 31 then (n : Int) else (n : Int) - 2 ^ 32 := by
  rw [asInt, BitVec.toInt_eq_toNat_cond, BitVec.toNat_ofNat, Nat.mod_eq_of_lt hLt]
  by_cases hSmall : n < 2 ^ 31
  · rw [if_pos (by omega), if_pos hSmall]
  · rw [if_neg (by omega), if_neg hSmall]
    norm_num

theorem growproc_of_pos {sz : Nat} (hPos : 0 < n) (hSz : sz ≤ uaddrSz) (hLt : n < 2 ^ 31) (answer : Bool) :
    growproc sz n answer = if answer && decide (sz + n < uaddrSz) then (some (sz + n), sz + n) else (none, sz) := by
  have hNew : (((sz : Int) + n) % 2 ^ 32).toNat = sz + n := by
    simp only [uaddrSz] at hSz
    omega
  rw [growproc, hNew, if_pos (by omega)]
  by_cases hFit : sz + n < uaddrSz
  · rw [if_neg (by omega), if_neg (by omega)]
    cases answer with
    | true => simp [hFit]
    | false => simp
  · rw [if_pos (by omega)]
    simp [hFit]

theorem morecoreSys_eq (hUnits : sizeofHeader * nunits < 2 ^ 31) (hBrk : h.brk ≤ uaddrSz) (answers tail : List Bool) :
    ∃ g : Grant, g.Ok ∧ morecoreSys h nunits answers =
      (morecore h nunits (granted h.brk nunits answers :: tail)).map fun r => (r.1, r.2, g) := by
  have hCeil : ∃ nu, (if nunits < 4096 then 4096 else nunits) = nu ∧ 0 < nu * sizeofHeader ∧
      nu * sizeofHeader < 2 ^ 31 := by
    refine ⟨_, rfl, ?_⟩
    simp only [sizeofHeader] at hUnits ⊢
    split
    · omega
    · omega
  obtain ⟨nu, hNu, hPos, hLt⟩ := hCeil
  have hMod : nu * sizeofHeader % 2 ^ 32 = nu * sizeofHeader := Nat.mod_eq_of_lt (by omega)
  have hInt : asInt (nu * sizeofHeader) = (nu * sizeofHeader : Nat) := by
    rw [asInt_eq (by omega), if_pos hLt]
  simp only [morecoreSys, morecore, granted, hNu, hMod, hInt, growproc_of_pos hPos hBrk hLt,
    Nat.mul_comm sizeofHeader nu]
  cases hAnswer : answers.headD false && decide (h.brk + nu * sizeofHeader < uaddrSz) with
  | false => exact ⟨⟨h.brk, h.brk, 0⟩, ⟨le_rfl, Nat.zero_le _⟩, rfl⟩
  | true =>
    refine ⟨⟨h.brk, h.brk + nu * sizeofHeader, nu * sizeofHeader⟩, ⟨Nat.le_add_right _ _, ?_⟩, ?_⟩
    · exact (Nat.add_sub_cancel_left ..).ge
    · rw [Bool.and_eq_true, decide_eq_true_eq] at hAnswer
      simp only [sbrk, if_pos hAnswer.2.le, if_true]
      cases hFree : free (Heap.setSize { h with brk := h.brk + nu * sizeofHeader } h.brk nu)
          (h.brk + sizeofHeader) with
      | none => rfl
      | some h' => rfl

theorem morecore_brk {os : List Bool} {p : Nat} (hBrk : h.brk ≤ uaddrSz)
    (hMore : morecore h nunits os = some (p, h')) : h'.brk ≤ uaddrSz := by
  rw [morecore] at hMore
  obtain hNone | ⟨hSome, hFit⟩ := sbrk_cases h ((if nunits < 4096 then 4096 else nunits) * sizeofHeader % 2 ^ 32) os
  · simp only [hNone, Option.some.injEq, Prod.mk.injEq] at hMore
    rwa [← hMore.2]
  · simp only [hSome] at hMore
    split at hMore
    · cases hMore
    · next h₁ hFree =>
      obtain ⟨-, rfl⟩ := Prod.mk.inj (Option.some.inj hMore)
      rw [free_brk hFree]
      exact hFit

/-- The same of the loop, by induction on its turns: what sbrk would be asked is answered as the kernel does. -/
theorem mallocLoopSys_eq (hUnits : sizeofHeader * nunits < 2 ^ 31) (hBrk : h.brk ≤ uaddrSz) (answers : List Bool)
    (prevp p : Nat) : ∃ (tail : List Bool) (grants : List Grant), (∀ g ∈ grants, g.Ok) ∧
      mallocLoopSys nunits n answers h prevp p =
        (mallocLoop nunits n (granted h.brk nunits answers :: tail) h prevp p).map
          fun r => (r.1, r.2, grants) := by
  induction n generalizing h prevp p answers with
  | zero => exact ⟨[], [], fun g hg => absurd hg List.not_mem_nil, rfl⟩
  | succ n ih =>
    simp only [mallocLoopSys, mallocLoop]
    by_cases hFit : h.size p ≥ nunits
    · simp only [if_pos hFit]
      exact ⟨[], [], fun g hg => absurd hg List.not_mem_nil, rfl⟩
    · simp only [if_neg hFit]
      by_cases hEntry : p = h.freep
      · simp only [if_pos hEntry, List.tail_cons]
        obtain ⟨g, hOk, hEq⟩ := morecoreSys_eq hUnits hBrk answers []
        -- no answer but the first matters to one call
        have hHead : ∀ tail, morecore h nunits (granted h.brk nunits answers :: tail) =
            morecore h nunits [granted h.brk nunits answers] := by
          intro tail
          simp only [morecore, sbrk]
          cases granted h.brk nunits answers with
          | false => rfl
          | true => rfl
        simp only [hEq, hHead]
        cases hMore : morecore h nunits [granted h.brk nunits answers] with
        | none => exact ⟨[], [], fun g hg => absurd hg List.not_mem_nil, rfl⟩
        | some r =>
          obtain ⟨q, h₁⟩ := r
          simp only [Option.map_some]
          by_cases hZero : q = 0
          · simp only [if_pos hZero]
            refine ⟨[], [g], ?_, rfl⟩
            intro g' hg'
            rwa [List.mem_singleton.mp hg']
          · simp only [if_neg hZero]
            obtain ⟨tail, grants, hOks, hLoop⟩ := ih (morecore_brk hBrk hMore) answers.tail q (h₁.ptr q)
            refine ⟨granted h₁.brk nunits answers.tail :: tail, g :: grants, ?_, ?_⟩
            · intro g' hg'
              obtain rfl | hg' := List.mem_cons.mp hg'
              · exact hOk
              · exact hOks g' hg'
            · rw [hLoop, Option.map_map]
              rfl
      · simp only [if_neg hEntry]
        exact ih hBrk answers p (h.ptr p)

end Sim

/-! ## The three kinds of requests -/

section Kinds

variable {L : Layout} {h : Heap} {rest taken : List Nat} {nbytes : Nat} {answers : List Bool}

theorem units_small (hBytes : nbytes + 15 < 2 ^ 31) :
    1 ≤ units nbytes ∧ sizeofHeader * units nbytes < 2 ^ 31 ∧ nbytes + sizeofHeader ≤ sizeofHeader * units nbytes := by
  simp only [units, sizeofHeader]
  omega

theorem units_wrapped (hFrom : 2 ^ 32 - 7 ≤ nbytes) (hTo : nbytes < 2 ^ 32) : units nbytes = 1 := by
  simp only [units, sizeofHeader]
  omega

theorem units_large (hFrom : 2 ^ 31 ≤ nbytes + 15) (hTo : nbytes < 2 ^ 32 - 7) :
    2 ^ 28 ≤ units nbytes ∧ units nbytes ≤ 2 ^ 29 := by
  simp only [units, sizeofHeader]
  omega

structure Ends (L : Layout) (h : Heap) (taken : List Nat) (nbytes : Nat) (answers : List Bool)
    (ap : Nat) (h' : Heap) (grants : List Grant) : Prop where
  run : mallocSys L.base nbytes answers h = some (ap, h', grants)
  ok : ∀ g ∈ grants, g.Ok
  loop : ∃ tail, mallocLoop (units nbytes) (2 * uaddrSz) (granted h.brk (units nbytes) answers :: tail)
    (h.entered L.base) (h.entered L.base).freep ((h.entered L.base).ptr (h.entered L.base).freep) = some (ap, h')
  given : ap = 0 ∨ Given L (h.entered L.base) h' (units nbytes) ap taken

theorem Ordered.ends (hOrdered : Ordered L h taken) (hPos : 1 ≤ units nbytes)
    (hUnits : sizeofHeader * units nbytes < 2 ^ 31) (answers : List Bool) :
    ∃ ap h' grants, Ends L h taken nbytes answers ap h' grants := by
  obtain ⟨rest, hInv, -, hBrk, -⟩ := hOrdered.entered
  obtain ⟨tail, grants, hOks, hSim⟩ := mallocLoopSys_eq hUnits hInv.brk_le answers (n := 2 * uaddrSz)
    (h.entered L.base).freep ((h.entered L.base).ptr (h.entered L.base).freep)
  rw [hBrk] at hSim
  obtain ⟨ap, h', hLoop, hCase⟩ := hInv.loop_spec hPos (by omega) (granted h.brk (units nbytes) answers :: tail)
  rw [hLoop, Option.map_some] at hSim
  exact ⟨ap, h', grants, hSim, hOks, ⟨tail, hLoop⟩, hCase.imp_left And.left⟩

theorem Ends.served_iff {ap : Nat} {h' : Heap} {grants : List Grant} (hEnds : Ends L h taken nbytes answers ap h' grants) :
    Served L taken nbytes (mallocSys L.base nbytes answers h) ↔
      ap = 0 ∨ nbytes + sizeofHeader ≤ sizeofHeader * units nbytes := by
  constructor
  · rintro ⟨ap', h₁, grants', hRun, -, hCase⟩
    rw [hEnds.run, Option.some.injEq, Prod.mk.injEq, Prod.mk.injEq] at hRun
    obtain ⟨rfl, rfl, rfl⟩ := hRun
    obtain hZero | hGiven := hEnds.given
    · exact .inl hZero
    · obtain hZero | ⟨-, -, hRoom, -⟩ := hCase
      · exact .inl hZero
      · have hHeader := hGiven.header
        rw [Heap.stop, hGiven.size] at hRoom
        omega
  · intro hRoom
    refine ⟨ap, h', grants, hEnds.run, hEnds.ok, ?_⟩
    obtain hZero | hGiven := hEnds.given
    · exact .inl hZero
    · have hHeader := hGiven.header
      obtain hZero | hRoom := hRoom
      · exact .inl hZero
      · obtain ⟨rest', hInv'⟩ := hGiven.inv
        have hStop := (hInv'.inside (ap - sizeofHeader) (List.mem_append_right _ List.mem_cons_self)).2.2
        refine .inr ⟨hHeader, .used hInv', ?_, hStop⟩
        rw [Heap.stop, hGiven.size]
        omega

theorem morecore_true {tail : List Bool} {p : Nat} {h' : Heap} (hRoom : h.brk + sizeofHeader * 4096 < uaddrSz)
    (hMore : morecore h 1 (true :: tail) = some (p, h')) : h'.brk = h.brk + sizeofHeader * 4096 := by
  have hBytes : 4096 * sizeofHeader % 2 ^ 32 = sizeofHeader * 4096 := rfl
  simp only [morecore, sbrk, if_pos Nat.one_lt_ofNat, hBytes, if_pos hRoom.le] at hMore
  split at hMore
  · cases hMore
  · next h₁ hFree =>
    obtain ⟨-, rfl⟩ := Prod.mk.inj (Option.some.inj hMore)
    exact free_brk hFree

/-- A request for one unit fails only where there is no free block and no memory to be got. -/
theorem Inv.loop_one (hInv : Inv L h rest taken) {o : Bool} {tail : List Bool} {ap : Nat} {h' : Heap}
    (hRoom : o = true → h.brk + sizeofHeader * 4096 < uaddrSz)
    (hLoop : mallocLoop 1 (2 * uaddrSz) (o :: tail) h h.freep (h.ptr h.freep) = some (ap, h')) :
    ap = 0 ↔ rest = [] ∧ o = false := by
  obtain ⟨r, q, hr, hPtr, hFit, hGo⟩ | ⟨hNone, m, r, hm, hGo⟩ :=
    hInv.loop_once (o :: tail) (n := 2 * uaddrSz) (by omega)
  · have hGiven := hInv.carve_spec le_rfl hFit hr hPtr
    have hCarve := Option.some.inj (hGo.symm.trans hLoop)
    rw [hCarve] at hGiven
    have hHeader := hGiven.header
    constructor
    · intro hZero
      omega
    · rintro ⟨rfl, -⟩
      -- the base leads to itself, and has no units
      obtain rfl := List.mem_singleton.mp hr
      have hSelf := hInv.ptr_eq (List.nil_append [L.base]).symm
      have hSize := hInv.base_size
      rw [List.headD_nil, hPtr] at hSelf
      rw [hSelf] at hFit
      omega
  · have hRest : rest = [] := by
      cases rest with
      | nil => rfl
      | cons q rest =>
        have hLess := hNone q (List.mem_cons_of_mem _ List.mem_cons_self)
        have hPos := (hInv.inside q (List.mem_append_left taken List.mem_cons_self)).2.1
        omega
    have hSmall := hNone h.freep hInv.entry
    rw [hGo, mallocLoop, if_neg (not_le.mpr hSmall), if_pos rfl] at hLoop
    cases o with
    | false =>
      have hFail : morecore h 1 (false :: tail) = some (0, h) := rfl
      rw [hFail] at hLoop
      obtain ⟨rfl, -⟩ := Prod.mk.inj (Option.some.inj hLoop)
      exact ⟨fun _ => ⟨hRest, rfl⟩, fun _ => rfl⟩
    | true =>
      refine ⟨fun hZero => ?_, fun hBoth => absurd hBoth.2.symm Bool.false_ne_true⟩
      obtain hFail | ⟨h₁, rest₁, hMore, hGrown⟩ := hInv.morecore_spec (show sizeofHeader * 1 < 2 ^ 32 by decide) (true :: tail)
      · exact absurd (morecore_true (hRoom rfl) hFail) (by simp only [sizeofHeader]; omega)
      · rw [hMore] at hLoop
        simp only [if_neg hGrown.inv.freep_ne] at hLoop
        obtain ⟨r₁, q₁, hr₁, hPtr₁, hFit₁, hGo₁⟩ | ⟨hNone₁, -⟩ :=
          hGrown.inv.loop_once tail (n := m) (by omega)
        · have hGiven := hGrown.inv.carve_spec le_rfl hFit₁ hr₁ hPtr₁
          have hHeader := hGiven.header
          have hCarve := Option.some.inj (hGo₁.symm.trans hLoop)
          rw [hCarve] at hHeader
          omega
        · obtain ⟨q, hq, hEnough⟩ := hGrown.room
          have hLess := hNone₁ q (List.mem_cons_of_mem _ hq)
          omega

/-! ## Requests of `2 ^ 31` bytes and more -/

theorem growproc_of_large {sz nu : Nat} (hPos : 0 < sz) (hFrom : 2 ^ 28 ≤ nu) (hTo : nu ≤ 2 ^ 29)
    (answer : Bool) {o : Option Nat} {left : Nat}
    (hGrow : growproc sz (asInt (nu * sizeofHeader % 2 ^ 32)) answer = (o, left)) :
    left ≤ sz ∧ (o = none → left < sz) := by
  have hInt : asInt (nu * sizeofHeader % 2 ^ 32) ≤ 0 := by
    have hMod : nu * sizeofHeader % 2 ^ 32 = 0 ∨
        2 ^ 31 ≤ nu * sizeofHeader % 2 ^ 32 ∧ nu * sizeofHeader % 2 ^ 32 < 2 ^ 32 := by
      simp only [sizeofHeader]
      omega
    obtain hZero | ⟨hHalf, hLt⟩ := hMod
    · rw [hZero]
      exact le_of_eq rfl
    · rw [asInt_eq hLt, if_neg (not_lt.mpr hHalf)]
      omega
  rw [growproc, if_neg (by omega)] at hGrow
  split at hGrow
  · split at hGrow
    · obtain ⟨rfl, rfl⟩ := Prod.mk.inj hGrow
      exact ⟨le_rfl, fun hNone => by cases hNone⟩
    · split at hGrow
      · obtain ⟨rfl, rfl⟩ := Prod.mk.inj hGrow
        exact ⟨Nat.zero_le _, fun _ => hPos⟩
      · obtain ⟨rfl, rfl⟩ := Prod.mk.inj hGrow
        exact ⟨by omega, fun hNone => by cases hNone⟩
  · obtain ⟨rfl, rfl⟩ := Prod.mk.inj hGrow
    exact ⟨le_rfl, fun hNone => by cases hNone⟩

theorem morecoreSys_large {nu : Nat} (hPos : 0 < h.brk) (hFrom : 2 ^ 28 ≤ nu)
    (hTo : nu ≤ 2 ^ 29) {p : Nat} {h' : Heap} {g : Grant} (hMore : morecoreSys h nu answers = some (p, h', g)) :
    ¬g.Ok := by
  have hCeil : (if nu < 4096 then 4096 else nu) = nu := if_neg (by omega)
  rw [morecoreSys] at hMore
  simp only [hCeil] at hMore
  split at hMore
  · next left hGrow =>
    obtain ⟨-, hLess⟩ := growproc_of_large hPos hFrom hTo _ hGrow
    obtain ⟨-, -, rfl⟩ := hMore
    rintro ⟨hLe, -⟩
    exact absurd hLe (not_le.mpr (hLess rfl))
  · next sz left hGrow =>
    obtain ⟨hLe, -⟩ := growproc_of_large hPos hFrom hTo _ hGrow
    split at hMore
    · cases hMore
    · obtain ⟨-, -, rfl⟩ := hMore
      rintro ⟨-, hBlock⟩
      simp only [sizeofHeader] at hBlock
      omega

/-- No block is so large, so the loop comes to `freep` and asks. -/
theorem loop_large {nunits n : Nat} {zs : List Nat} {p prevp : Nat} (hSeg : Seg h.ptr p zs h.freep)
    (hSmall : ∀ z, z ∈ zs ∨ z = h.freep → h.size z < nunits) (hTurns : zs.length < n) :
    ∃ m, mallocLoopSys nunits n answers h prevp p =
      match morecoreSys h nunits answers with
      | none => none
      | some (p, h, g) =>
        if p = 0 then some (0, h, [g])
        else (mallocLoopSys nunits m answers.tail h p (h.ptr p)).map fun r => (r.1, r.2.1, g :: r.2.2) := by
  induction zs generalizing p prevp n with
  | nil =>
    obtain rfl : p = h.freep := hSeg
    obtain ⟨m, rfl⟩ := Nat.exists_eq_succ_of_ne_zero (Nat.ne_of_gt hTurns)
    refine ⟨m, ?_⟩
    rw [mallocLoopSys, if_neg (not_le.mpr (hSmall _ (.inr rfl))), if_pos rfl]
  | cons z zs ih =>
    obtain ⟨rfl, hRest⟩ := hSeg
    obtain ⟨m, rfl⟩ := Nat.exists_eq_succ_of_ne_zero (Nat.ne_of_gt (Nat.zero_lt_of_lt hTurns))
    rw [mallocLoopSys, if_neg (not_le.mpr (hSmall _ (.inl List.mem_cons_self)))]
    by_cases hEntry : p = h.freep
    · rw [if_pos hEntry]
      exact ⟨m, rfl⟩
    · rw [if_neg hEntry]
      exact ih hRest (fun y hy => hSmall y (hy.imp_left (List.mem_cons_of_mem _))) (Nat.lt_of_succ_lt_succ hTurns)

theorem Ordered.not_served (hOrdered : Ordered L h taken) (hFrom : 2 ^ 31 ≤ nbytes + 15) (hTo : nbytes < 2 ^ 32 - 7)
    (answers : List Bool) : ¬Served L taken nbytes (mallocSys L.base nbytes answers h) := by
  obtain ⟨hLeast, hMost⟩ := units_large hFrom hTo
  obtain ⟨rest, hInv, -, -, -⟩ := hOrdered.entered
  obtain ⟨zs, hEntered⟩ := hInv.entered
  have hLength := hInv.length_le
  have hCount := hEntered.length_eq
  have hBrk := hInv.brk_le
  have hSmall : ∀ z, z ∈ zs ∨ z = (h.entered L.base).freep → (h.entered L.base).size z < units nbytes := by
    intro z hz
    obtain rfl | hz := List.mem_cons.mp ((hEntered.mem_iff z).mp hz)
    · rw [hInv.base_size]
      omega
    · have hStop := (hInv.inside z (List.mem_append_left taken hz)).2.2
      simp only [Heap.stop, sizeofHeader, uaddrSz] at hStop hBrk
      omega
  have hPos : 0 < (h.entered L.base).brk := by
    have hStart := hInv.start_le_brk
    have hBelow := L.base_lt
    simp only [sizeofHeader] at hBelow
    omega
  rintro ⟨ap, h', grants, hRun, hOks, -⟩
  obtain ⟨m, hLoop⟩ := @loop_large _ answers _ (2 * uaddrSz) _ _ (h.entered L.base).freep hEntered.seg hSmall (by omega)
  have hRun' := hLoop.symm.trans hRun
  split at hRun'
  · cases hRun'
  · next p h₁ g hMore =>
    have hBad := morecoreSys_large hPos hLeast hMost hMore
    split at hRun'
    · obtain ⟨-, -, rfl⟩ := hRun'
      exact hBad (hOks g List.mem_cons_self)
    · obtain ⟨r, -, hr⟩ := Option.map_eq_some_iff.mp hRun'
      obtain ⟨-, -, rfl⟩ := hr
      exact hBad (hOks g List.mem_cons_self)

/-! ## Which requests are served -/

/-- The requests that are served are those below `2 ^ 31 - 15`. The last seven, whose units wrap to one,
return at least no block where there is none to be found: nothing is free, and the kernel refuses. -/
theorem malloc_serves_iff (hOrdered : Ordered L h taken) (hBytes : nbytes < 2 ^ 32) (answers : List Bool) :
    Served L taken nbytes (mallocSys L.base nbytes answers h) ↔
      nbytes + 15 < 2 ^ 31 ∨
        2 ^ 32 - 7 ≤ nbytes ∧ (h.freep = 0 ∨ h.ptr L.base = L.base) ∧ granted h.brk 1 answers = false := by
  by_cases hSmall : nbytes + 15 < 2 ^ 31
  · obtain ⟨hPos, hUnits, hRoom⟩ := units_small hSmall
    obtain ⟨ap, h', grants, hEnds⟩ := hOrdered.ends hPos hUnits answers
    exact iff_of_true (hEnds.served_iff.mpr (.inr hRoom)) (.inl hSmall)
  by_cases hLarge : nbytes < 2 ^ 32 - 7
  · refine iff_of_false (hOrdered.not_served (not_lt.mp hSmall) hLarge answers) ?_
    rintro (hLess | ⟨hFrom, -⟩)
    · exact hSmall hLess
    · omega
  · have hFrom := not_lt.mp hLarge
    have hOne := units_wrapped hFrom hBytes
    obtain ⟨rest, hInv, -, hBrk, hFresh⟩ := hOrdered.entered
    obtain ⟨ap, h', grants, hEnds⟩ :=
      hOrdered.ends (by rw [hOne]) (show sizeofHeader * units nbytes < 2 ^ 31 by rw [hOne]; decide) answers
    obtain ⟨tail, hLoop⟩ := hEnds.loop
    rw [hOne] at hLoop
    have hRoom : granted h.brk 1 answers = true → (h.entered L.base).brk + sizeofHeader * 4096 < uaddrSz := by
      intro hGranted
      rw [granted, Bool.and_eq_true, decide_eq_true_eq, if_pos Nat.one_lt_ofNat] at hGranted
      rw [hBrk]
      exact hGranted.2
    have hShort : ¬nbytes + sizeofHeader ≤ sizeofHeader * units nbytes := by
      rw [hOne]
      simp only [sizeofHeader]
      omega
    rw [hEnds.served_iff, or_iff_left hShort, hInv.loop_one hRoom hLoop, hFresh, or_iff_right hSmall]
    exact (and_iff_right hFrom).symm

end Kinds

def freshHeap : Heap := ⟨fun _ => ⟨0, 0⟩, 0, exampleLayout.start⟩

theorem malloc_serves_iff_fresh :
    Served exampleLayout [] 100 (mallocSys exampleLayout.base 100 [true] freshHeap) ∧
      ¬Served exampleLayout [] (2 ^ 31) (mallocSys exampleLayout.base (2 ^ 31) [true] freshHeap) := by
  have hOrdered : Ordered exampleLayout freshHeap [] := .unused rfl rfl rfl
  constructor
  · exact (malloc_serves_iff hOrdered (by decide) [true]).mpr (.inl (by decide))
  · exact mt (malloc_serves_iff hOrdered (by decide) [true]).mp (by decide)

/-- For the largest request the program gets a header alone. Where the bytes are -2048 to `growproc`,
the break comes to lie below the data, and a block of nearly `2 ^ 32` bytes is made there. -/
theorem malloc_wraps :
    ¬Served exampleLayout [] (2 ^ 32 - 1) (mallocSys exampleLayout.base (2 ^ 32 - 1) [true] freshHeap) ∧
      ¬Served exampleLayout [] (2 ^ 32 - 2056) (mallocSys exampleLayout.base (2 ^ 32 - 2056) [true] freshHeap) := by
  constructor
  · have hRun : (mallocSys exampleLayout.base (2 ^ 32 - 1) [true] freshHeap).map
        (fun r => (r.1, r.2.1.stop (r.1 - sizeofHeader))) = some (36864, 36864) := by decide +kernel
    rintro ⟨ap, h', grants, hEq, -, hCase⟩
    rw [hEq, Option.map_some, Option.some.injEq, Prod.mk.injEq] at hRun
    obtain ⟨rfl, hStop⟩ := hRun
    obtain hZero | ⟨-, -, hRoom, -⟩ := hCase
    · exact absurd hZero (by decide)
    · rw [hStop] at hRoom
      exact absurd hRoom (by decide)
  · have hRun : (mallocSys exampleLayout.base (2 ^ 32 - 2056) [true] freshHeap).map (fun r => r.2.2) =
        some [⟨4096, 2048, 2 ^ 32 - 2048⟩] := by decide +kernel
    rintro ⟨ap, h', grants, hEq, hOks, -⟩
    rw [hEq, Option.map_some, Option.some.injEq] at hRun
    subst hRun
    exact absurd (hOks _ List.mem_cons_self).1 (by decide)

end Xv6Rpi.Umalloc
