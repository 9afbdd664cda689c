import Xv6Rpi.Uvm.Mem

/-! # Page directories of user processes

The functions of vm.c. A pointer to an entry is the address of its table with its index. A
loop takes the number of its turns at most, which its callers choose large enough.
-/

namespace Xv6Rpi.Uvm

/-- The entries of a page directory: user directories have `NUM_UPDE` of them. -/
def Mem.dirSize (m : Mem) (pgdir : Nat) : Nat := if pgdir = m.kernelPgtbl then 4096 else numUpde

def walkpgdir (pgdir va : Nat) (alloc : Bool) : UvmM (Option (Nat × Nat)) := do
  let m ← getM
  if m.dirSize pgdir ≤ pdeIdx va then panic .outside
  else if m.tab pgdir (pdeIdx va) &&& peTypes ≠ 0 then
    return some (p2v (ptAddr (m.tab pgdir (pdeIdx va))), pteIdx va)
  else if !alloc then return none
  else
    let pgtab ← kptAlloc
    modifyM fun m => m.setEntry pgdir (pdeIdx va) (v2p pgtab ||| updeType)
    return some (pgtab, pteIdx va)

def pteWord (pa ap : Nat) : Nat := pa ||| ((ap &&& 3) <<< 4) ||| peCache ||| peBuf ||| pteType

/-- The loop of `mappages` from address `a` on, with so many turns left. -/
def mapLoop (pgdir last ap : Nat) : Nat → Nat → Nat → UvmM Int
  | 0, _, _ => panic .unending
  | n + 1, a, pa => do
    match ← walkpgdir pgdir a true with
    | none => return -1
    | some (t, i) =>
      let m ← getM
      if m.tab t i &&& peTypes ≠ 0 then panic .remap
      else
        modifyM fun m => m.setEntry t i (pteWord pa ap)
        if a = last then return 0
        else mapLoop pgdir last ap n ((a + pteSz) % 2 ^ 32) ((pa + pteSz) % 2 ^ 32)

def mappages (pgdir va size pa ap : Nat) : UvmM Int :=
  let a := alignDn va pteSz
  let last := alignDn ((va + size + 2 ^ 32 - 1) % 2 ^ 32) pteSz
  mapLoop pgdir last ap ((last + 2 ^ 32 - a) % 2 ^ 32 / pteSz + 1) a pa

def deallocLoop (pgdir oldsz : Nat) : Nat → Nat → UvmM Unit
  | 0, _ => panic .unending
  | n + 1, a =>
    if oldsz ≤ a then return
    else do
      match ← walkpgdir pgdir a false with
      | none => deallocLoop pgdir oldsz n ((alignUp a pdeSz + pteSz) % 2 ^ 32)
      | some (t, i) =>
        let m ← getM
        if m.tab t i &&& peTypes = 0 then deallocLoop pgdir oldsz n ((a + pteSz) % 2 ^ 32)
        else if pteAddr (m.tab t i) = 0 then panic .deallocuvm
        else
          freePage (p2v (pteAddr (m.tab t i)))
          modifyM fun m => m.setEntry t i 0
          deallocLoop pgdir oldsz n ((a + pteSz) % 2 ^ 32)

def deallocuvm (pgdir oldsz newsz : Nat) : UvmM Nat :=
  if oldsz ≤ newsz then return oldsz
  else do
    deallocLoop pgdir oldsz (oldsz / pteSz + 2) (alignUp newsz pteSz)
    return newsz

def allocLoop (pgdir oldsz newsz : Nat) : Nat → Nat → UvmM Nat
  | 0, _ => panic .unending
  | n + 1, a =>
    if newsz ≤ a then return newsz
    else do
      let mem ← allocPage
      if mem = 0 then
        let _ ← deallocuvm pgdir newsz oldsz
        return 0
      else
        modifyM fun m => m.clear mem
        let _ ← mappages pgdir a pteSz (v2p mem) apKu
        allocLoop pgdir oldsz newsz n ((a + pteSz) % 2 ^ 32)

def allocuvm (pgdir oldsz newsz : Nat) : UvmM Nat :=
  if uaddrSz ≤ newsz then return 0
  else if newsz < oldsz then return oldsz
  else allocLoop pgdir oldsz newsz (newsz / pteSz + 2) (alignUp oldsz pteSz)

/-- The loop of `freevm` over the last `n` entries of the page directory. -/
def freeTables (pgdir : Nat) : Nat → UvmM Unit
  | 0 => return
  | n + 1 => do
    let m ← getM
    if m.tab pgdir (numUpde - (n + 1)) &&& peTypes ≠ 0 then
      kptFree (p2v (ptAddr (m.tab pgdir (numUpde - (n + 1)))))
    freeTables pgdir n

def freevm (pgdir : Nat) : UvmM Unit :=
  if pgdir = 0 then panic .freevmNoPgdir
  else do
    let _ ← deallocuvm pgdir uaddrSz 0
    freeTables pgdir numUpde
    kptFree pgdir

/-- The result of `alloc_page` is used as it is, also if it is 0. -/
def inituvm (pgdir : Nat) (init : List UInt8) : UvmM Unit :=
  if pteSz ≤ init.length then panic .inituvmSize
  else do
    let mem ← allocPage
    modifyM fun m => m.clear mem
    let _ ← mappages pgdir 0 pteSz (v2p mem) apKu
    modifyM fun m => m.store mem 0 init

def clearpteu (pgdir uva : Nat) : UvmM Unit := do
  match ← walkpgdir pgdir uva false with
  | none => panic .clearpteu
  | some (t, i) => modifyM fun m => m.setEntry t i ((m.tab t i &&& (2 ^ 32 - 1 - 3 <<< 4)) ||| apKo <<< 4)

/-- The loop of `copyuvm` from address `i` on, with so many pages left. -/
def copyLoop (d pgdir : Nat) : Nat → Nat → UvmM Nat
  | 0, _ => return d
  | n + 1, i => do
    match ← walkpgdir pgdir i false with
    | none => panic .copyuvmPte
    | some (t, j) =>
      let m ← getM
      if m.tab t j &&& peTypes = 0 then panic .copyuvmPage
      else
        let mem ← allocPage
        if mem = 0 then
          freevm d
          return 0
        else
          modifyM fun m' => m'.copyPage mem (p2v (pteAddr (m.tab t j)))
          let r ← mappages d i pteSz (v2p mem) (pteAp (m.tab t j))
          if r < 0 then
            freevm d
            return 0
          else copyLoop d pgdir n (i + pteSz)

/-- The loop has one turn for every page below `sz`. -/
def copyuvm (pgdir sz : Nat) : UvmM Nat := do
  let d ← kptAlloc
  copyLoop d pgdir ((sz + pteSz - 1) / pteSz) 0

/-- The kernel address of a user page, or 0. An entry that does not exist is read through a
null pointer. -/
def uva2ka (pgdir uva : Nat) : UvmM Nat := do
  match ← walkpgdir pgdir uva false with
  | none => panic .outside
  | some (t, i) =>
    let m ← getM
    if m.tab t i &&& peTypes = 0 then return 0
    else if pteAp (m.tab t i) ≠ apKu then return 0
    else return p2v (pteAddr (m.tab t i))

def copyoutLoop (pgdir : Nat) : Nat → Nat → List UInt8 → UvmM Int
  | 0, _, _ => return 0
  | n + 1, va, buf =>
    if buf.length = 0 then return 0
    else do
      let pa0 ← uva2ka pgdir (alignDn va pteSz)
      if pa0 = 0 then return -1
      else
        let k := min (pteSz - (va - alignDn va pteSz)) buf.length
        modifyM fun m => m.store pa0 (va - alignDn va pteSz) (buf.take k)
        copyoutLoop pgdir n ((alignDn va pteSz + pteSz) % 2 ^ 32) (buf.drop k)

/-- Every turn of the loop copies a byte or more. -/
def copyout (pgdir va : Nat) (buf : List UInt8) : UvmM Int := copyoutLoop pgdir buf.length va buf

end Xv6Rpi.Uvm
