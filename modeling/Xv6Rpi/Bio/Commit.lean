import Xv6Rpi.Bio.Pinned
import Xv6Rpi.Fs.Crash

/-! # What a commit leaves behind

From a state in which no transaction is open and no buffer is dirty, transactions run among
processes that read. The contents last given for a sector outside of the log follow the calls of
`log_write`, and what was given for the slots of the log follows the sectors that are logged there.
When no transaction is open again, no buffer is dirty, so that the disk has what was given.
-/

namespace Xv6Rpi.Bio

open Fs (Block Disk Log Write getWord logIndex logsize)

variable {P : Type}

namespace Trans

def logs (t : Trans P) : P × Op → List Write
  | (p, op) =>
    match t.m.pc p, op with
    | .client, .logWrite b => [((t.m.buf b).sector, (t.m.buf b).data)]
    | _, _ => []

/-- What a run passes to `log_write`, in order. -/
def logged [DecidableEq P] : Trans P → List (P × Op) → List Write
  | _, [] => []
  | t, x :: xs => t.logs x ++ (t.step x).elim [] fun t' => logged t' xs

structure Idle (t : Trans P) : Prop where
  inv : t.m.Inv
  owner : t.owner = none
  readers : ∀ q, (t.m.pc q).Reads
  empty : t.m.log.n = 0
  clean : ∀ b, (t.m.buf b).dirty = false

theorem Idle.boot (disk : Disk) (disksize : Nat) (sb : Fs.Superblock) : Idle (boot disk disksize sb : Trans P) where
  inv := .boot disk disksize (Fs.logOf sb)
  owner := rfl
  readers _ := trivial
  empty := rfl
  clean b := congrArg Buf.dirty (Cache.binit_buf b)

end Trans

/-! ## What was given, and what is still to do -/

/-- Every sector outside of the log was given what it is to hold. -/
def Home (H : Disk) (m : Machine P) : Prop := ∀ x, ¬m.log.Holds x → m.given x = H x

/-- Every slot was given what the sector logged there is to hold. -/
def Copied (H : Disk) (m : Machine P) : Prop := ∀ i < m.log.n, m.given (m.log.slot i) = H (m.log.sector i)

def Erased (m : Machine P) : Prop := getWord (m.given m.log.start) 0 = 0

structure Settled (H : Disk) (m : Machine P) : Prop where
  home : Home H m
  copied : Copied H m

structure Rest (H : Disk) (K : Prop) (m : Machine P) : Prop extends Settled H m where
  header : m.log.n = 0 → K → Erased m

/-- In `log_write(b)`, which logs its block as number `i`. -/
structure Logging (H : Disk) (m : Machine P) (b : Ref) (i : Nat) : Prop where
  room : i + 1 < m.log.size
  out : ¬m.log.Holds (m.buf b).sector
  fresh : i = m.log.n → ∀ j < m.log.n, m.log.sector j ≠ (m.buf b).sector
  data : (m.buf b).data = H (m.buf b).sector
  home : ∀ x, ¬m.log.Holds x → x ≠ (m.buf b).sector → m.given x = H x
  copied : ∀ j < m.log.n, j ≠ i → m.given (m.log.slot j) = H (m.log.sector j)

structure Committing (H : Disk) (m : Machine P) : Prop extends Settled H m where
  some : 0 < m.log.n

structure Erasing (H : Disk) (m : Machine P) : Prop where
  home : Home H m
  none : m.log.n = 0

def Heading (H : Disk) (m : Machine P) : Bool → Prop
  | true => Erasing H m
  | false => Committing H m

structure Installing (H : Disk) (m : Machine P) (tail : Nat) : Prop extends Committing H m where
  lt : tail < m.log.n

def Caller.Todo (H : Disk) (K : Prop) (m : Machine P) (sector : Nat) : Caller → Prop
  | .client => Rest H K m
  | .logWrite b i => Logging H m b i ∧ sector = m.log.slot i
  | .head erase => Heading H m erase ∧ sector = m.log.start
  | .logBuf tail => Installing H m tail ∧ sector = m.log.slot tail
  | .dstBuf lbuf tail => Installing H m tail ∧ (m.buf lbuf).sector = m.log.slot tail

def Writer.Todo (H : Disk) (m : Machine P) (b : Ref) : Writer → Prop
  | .client => False
  | .logWrite b' i => Logging H m b' i ∧ (m.buf b).sector = m.log.slot i ∧ (m.buf b).data = (m.buf b').data
  | .head erase => Heading H m erase ∧ (m.buf b).sector = m.log.start ∧ (erase = true → getWord (m.buf b).data 0 = 0)
  | .install _ tail => Installing H m tail ∧ (m.buf b).data = H (m.log.sector tail)

/-- What holds of the log at a place in the code of the process whose transaction is open. -/
def Pc.Todo (H : Disk) (K : Prop) (m : Machine P) : Pc → Prop
  | .client => Rest H K m
  | .bget _ sector k => k.Todo H K m sector
  | .asleep _ _ sector k => k.Todo H K m sector
  | .bread _ _ sector k => k.Todo H K m sector
  | .bwrite b k => k.Todo H m b
  | .logCopy b lbuf i => Logging H m b i ∧ (m.buf lbuf).sector = m.log.slot i
  | .logRelse b _ i => Logging H m b i ∧ m.given (m.log.slot i) = (m.buf b).data
  | .logMark b i => Logging H m b i ∧ m.given (m.log.slot i) = (m.buf b).data
  | .headCopy b erase => Heading H m erase ∧ (m.buf b).sector = m.log.start
  | .headRelse _ erase => Heading H m erase ∧ (erase = true → Erased m)
  | .install _ => Committing H m
  | .dst lbuf tail => Installing H m tail ∧ (m.buf lbuf).sector = m.log.slot tail
  | .copy lbuf _ tail => Installing H m tail ∧ (m.buf lbuf).sector = m.log.slot tail
  | .relseLog _ _ _ => Committing H m
  | .relseDst _ _ => Committing H m
  | .unlock => Rest H K m ∧ m.log.n = 0
  | .panic _ => True

/-- The logged blocks have homes of their own outside of the log. -/
structure Ordered (l : Log) : Prop where
  room : l.n = 0 ∨ l.n < l.size
  out : ∀ i < l.n, ¬l.Holds (l.sector i)
  inj : ∀ i < l.n, ∀ j < l.n, l.sector i = l.sector j → i = j

/-- A state of a run that has passed `ws` to `log_write`, from a disk `d` on; `Z` says that the
header counted no block then. -/
structure Trans.Carries (l : Log) (d : Disk) (Z : Prop) (ws : List Write) (t : Trans P) : Prop where
  start : t.m.log.start = l.start
  size : t.m.log.size = l.size
  ordered : Ordered t.m.log
  todo : ∀ p, t.owner = some p → (t.m.pc p).Todo (Writes.apply ws d) (Z ∨ ws ≠ []) t.m
  rest : t.owner = none → Rest (Writes.apply ws d) (Z ∨ ws ≠ []) t.m ∧ t.m.log.n = 0

theorem lt_of_lt_pushed {i n j : Nat} (h : j < if i = n then n + 1 else n) : j < n ∨ j = i := by
  split at h <;> omega

theorem Ordered.push {l : Log} (h : Ordered l) {i : Nat} (hLe : i ≤ l.n) (hRoom : i + 1 < l.size)
    (hOut : ¬l.Holds (l.sector i)) (hFresh : i = l.n → ∀ j < l.n, l.sector j ≠ l.sector i) :
    Ordered { l with n := if i = l.n then l.n + 1 else l.n } where
  room := by
    right
    dsimp only
    have := h.room
    split <;> omega
  out j hj := by
    obtain hOld | rfl := lt_of_lt_pushed hj
    · exact h.out j hOld
    · exact hOut
  inj j hj k hk he := by
    -- the sector of the block is that of no other
    have hApart (j : Nat) (hj : j < l.n) (he : l.sector j = l.sector i) : j = i := by
      by_cases hEnd : i = l.n
      · exact absurd he (hFresh hEnd j hj)
      · exact h.inj j hj i (by omega) he
    obtain hOldJ | rfl := lt_of_lt_pushed hj
    · obtain hOldK | rfl := lt_of_lt_pushed hk
      · exact h.inj j hOldJ k hOldK he
      · exact hApart j hOldJ he
    · obtain hOldK | rfl := lt_of_lt_pushed hk
      · exact (hApart k hOldK he.symm).symm
      · rfl

/-! ## Steps that give nothing -/

structure Spares (m m' : Machine P) : Prop where
  log : m'.log = m.log
  given : m'.given = m.given
  buf : ∀ b, (m.buf b).busy = true → (m.buf b).valid = true →
    (m'.buf b).sector = (m.buf b).sector ∧ (m'.buf b).data = (m.buf b).data

section Spared

variable {m m' : Machine P} {H : Disk} {K : Prop} {p q : P}

theorem Rest.congr (h : Rest H K m) (hLog : m'.log = m.log) (hGiven : m'.given = m.given) : Rest H K m' := by
  obtain ⟨⟨hHome, hCopied⟩, hHeader⟩ := h
  constructor
  · constructor
    · rwa [Home, hLog, hGiven]
    · rwa [Copied, hLog, hGiven]
  · rwa [Erased, hLog, hGiven]

theorem Committing.congr (h : Committing H m) (hLog : m'.log = m.log) (hGiven : m'.given = m.given) :
    Committing H m' := by
  obtain ⟨⟨hHome, hCopied⟩, hSome⟩ := h
  constructor
  · constructor
    · rwa [Home, hLog, hGiven]
    · rwa [Copied, hLog, hGiven]
  · rwa [hLog]

theorem Erasing.congr (h : Erasing H m) (hLog : m'.log = m.log) (hGiven : m'.given = m.given) : Erasing H m' := by
  obtain ⟨hHome, hNone⟩ := h
  constructor
  · rwa [Home, hLog, hGiven]
  · rwa [hLog]

theorem Heading.congr {erase : Bool} (h : Heading H m erase) (hLog : m'.log = m.log) (hGiven : m'.given = m.given) :
    Heading H m' erase := by
  cases erase with
  | false => exact Committing.congr h hLog hGiven
  | true => exact Erasing.congr h hLog hGiven

theorem Installing.congr {tail : Nat} (h : Installing H m tail) (hLog : m'.log = m.log)
    (hGiven : m'.given = m.given) : Installing H m' tail :=
  ⟨h.toCommitting.congr hLog hGiven, by rw [hLog]; exact h.lt⟩

theorem Logging.congr {b : Ref} {i : Nat} (h : Logging H m b i) (hLog : m'.log = m.log) (hGiven : m'.given = m.given)
    (hSector : (m'.buf b).sector = (m.buf b).sector) (hData : (m'.buf b).data = (m.buf b).data) :
    Logging H m' b i := by
  obtain ⟨hRoom, hOut, hFresh, hIs, hHome, hCopied⟩ := h
  constructor
  · rwa [hLog]
  · rwa [hLog, hSector]
  · rwa [hLog, hSector]
  · rwa [hData, hSector]
  · rwa [hLog, hSector, hGiven]
  · rwa [hLog, hGiven]

theorem Spares.caller (h : Spares m m') {sector : Nat} {k : Caller}
    (hUses : ∀ b ∈ k.uses, (m.buf b).busy = true ∧ (m.buf b).valid = true) (hk : k.Todo H K m sector) :
    k.Todo H K m' sector := by
  obtain ⟨hLog, hGiven, hBuf⟩ := h
  cases k with
  | client => exact Rest.congr hk hLog hGiven
  | logWrite b i =>
    obtain ⟨hSector, hData⟩ := hBuf b (hUses b List.mem_cons_self).1 (hUses b List.mem_cons_self).2
    exact ⟨hk.1.congr hLog hGiven hSector hData, by rw [hLog]; exact hk.2⟩
  | head erase => exact ⟨hk.1.congr hLog hGiven, by rw [hLog]; exact hk.2⟩
  | logBuf tail => exact ⟨hk.1.congr hLog hGiven, by rw [hLog]; exact hk.2⟩
  | dstBuf lbuf tail =>
    obtain ⟨hSector, -⟩ := hBuf lbuf (hUses lbuf List.mem_cons_self).1 (hUses lbuf List.mem_cons_self).2
    exact ⟨hk.1.congr hLog hGiven, by rw [hLog, hSector]; exact hk.2⟩

theorem Spares.writer (h : Spares m m') {b : Ref} {k : Writer}
    (hUses : ∀ c ∈ b :: k.uses, (m.buf c).busy = true ∧ (m.buf c).valid = true) (hk : k.Todo H m b) :
    k.Todo H m' b := by
  obtain ⟨hLog, hGiven, hBuf⟩ := h
  obtain ⟨hSector, hData⟩ := hBuf b (hUses b List.mem_cons_self).1 (hUses b List.mem_cons_self).2
  cases k with
  | client => exact hk
  | logWrite b' i =>
    have hb' : b' ∈ b :: (Writer.logWrite b' i).uses := by simp [Writer.uses]
    obtain ⟨hSector', hData'⟩ := hBuf b' (hUses b' hb').1 (hUses b' hb').2
    refine ⟨hk.1.congr hLog hGiven hSector' hData', ?_, ?_⟩
    · rw [hSector, hLog]
      exact hk.2.1
    · rw [hData, hData']
      exact hk.2.2
  | head erase =>
    refine ⟨hk.1.congr hLog hGiven, ?_, ?_⟩
    · rw [hSector, hLog]
      exact hk.2.1
    · rw [hData]
      exact hk.2.2
  | install lbuf tail => exact ⟨hk.1.congr hLog hGiven, by rw [hData, hLog]; exact hk.2⟩

theorem Spares.todo (h : Spares m m') (hInv : m.Inv) (hTodo : (m.pc p).Todo H K m) : (m.pc p).Todo H K m' := by
  obtain ⟨hNodup, hUses, -, hFilled, -⟩ := hInv.frame p
  generalize m.pc p = pc at hTodo hNodup hUses hFilled
  have hBuf (b : Ref) (hb : b ∈ pc.uses) (hFills : ¬pc.Fills b) :
      (m.buf b).busy = true ∧ (m.buf b).valid = true :=
    ⟨hInv.busy_of_held (hUses b hb), (hFilled b (hUses b hb)).resolve_right hFills⟩
  have hLog := h.log
  have hGiven := h.given
  cases pc with
  | client => exact Rest.congr hTodo hLog hGiven
  | bget dev sector k => exact h.caller (fun b hb => hBuf b hb id) hTodo
  | asleep b dev sector k => exact h.caller (fun b hb => hBuf b hb id) hTodo
  | bread b dev sector k =>
    refine h.caller (fun c hc => hBuf c (List.mem_cons_of_mem _ hc) ?_) hTodo
    rintro rfl
    exact (List.nodup_cons.mp hNodup).1 hc
  | bwrite b k => exact h.writer (fun c hc => hBuf c hc id) hTodo
  | logCopy b lbuf i =>
    obtain ⟨hb, hv⟩ := hBuf b List.mem_cons_self id
    obtain ⟨hl, hlv⟩ := hBuf lbuf (by simp [Pc.uses]) id
    refine ⟨hTodo.1.congr hLog hGiven (h.buf b hb hv).1 (h.buf b hb hv).2, ?_⟩
    rw [(h.buf lbuf hl hlv).1, hLog]
    exact hTodo.2
  | logRelse b lbuf i | logMark b i =>
    obtain ⟨hb, hv⟩ := hBuf b List.mem_cons_self id
    refine ⟨hTodo.1.congr hLog hGiven (h.buf b hb hv).1 (h.buf b hb hv).2, ?_⟩
    rw [hGiven, hLog, (h.buf b hb hv).2]
    exact hTodo.2
  | headCopy b erase =>
    obtain ⟨hb, hv⟩ := hBuf b List.mem_cons_self id
    exact ⟨hTodo.1.congr hLog hGiven, by rw [(h.buf b hb hv).1, hLog]; exact hTodo.2⟩
  | headRelse b erase => exact ⟨hTodo.1.congr hLog hGiven, by rw [Erased, hLog, hGiven]; exact hTodo.2⟩
  | install tail => exact Committing.congr hTodo hLog hGiven
  | dst lbuf tail | copy lbuf dbuf tail =>
    obtain ⟨hb, hv⟩ := hBuf lbuf List.mem_cons_self id
    exact ⟨hTodo.1.congr hLog hGiven, by rw [(h.buf lbuf hb hv).1, hLog]; exact hTodo.2⟩
  | relseLog | relseDst => exact Committing.congr hTodo hLog hGiven
  | unlock => exact ⟨hTodo.1.congr hLog hGiven, by rw [hLog]; exact hTodo.2⟩
  | panic => trivial

variable [DecidableEq P]

theorem spares_goto (m : Machine P) (p : P) (pc : Pc) : Spares m (m.goto p pc) := ⟨rfl, rfl, fun _ _ _ => ⟨rfl, rfl⟩⟩

theorem spares_take {b : Ref} (f : Buf → Buf) (pc : Pc) (hFree : (m.buf b).busy = false) :
    Spares m (m.take p b f pc) := by
  refine ⟨rfl, rfl, fun a ha _ => ?_⟩
  have hne : a ≠ b := by
    rintro rfl
    simp [hFree] at ha
  simp [Machine.buf, Machine.take, Machine.goto, Cache.set_buf_of_ne _ _ hne]

theorem spares_brelse (m : Machine P) (p : P) (b : Ref) (pc : Pc) : Spares m (m.brelse p b pc) := by
  rw [Machine.brelse]
  split
  · exact spares_goto m p _
  · refine ⟨rfl, rfl, fun a _ _ => ?_⟩
    simp only [Machine.buf, Machine.goto, Cache.brelse]
    rcases eq_or_ne a b with rfl | hne
    · rw [Cache.set_buf_self]
      exact ⟨rfl, rfl⟩
    · rw [Cache.set_buf_of_ne _ _ hne]
      exact ⟨rfl, rfl⟩

theorem spares_iderw (p : P) {b : Ref} (pc : Pc) (hClean : (m.buf b).dirty = false) : Spares m (m.iderw p b pc) := by
  rw [Machine.iderw]
  split
  · exact spares_goto m p _
  · next d x hi =>
    obtain ⟨-, -, ⟨hd, -, -⟩ | ⟨-, hv, -, -⟩⟩ := Machine.iderw_eq_ok hi
    · simp [hClean] at hd
    · dsimp only
      rw [if_neg (by simp [hClean])]
      refine ⟨rfl, rfl, fun a _ ha => ?_⟩
      have hne : a ≠ b := by
        rintro rfl
        simp [hv] at ha
      simp [Machine.buf, Machine.goto, Cache.set_buf_of_ne _ _ hne]

theorem spares_bget (hInv : m.Inv) {op : Op} {dev sector : Nat} {k : Caller} (hPc : m.pc p = .bget dev sector k)
    (hs : m.step p op = some m') : Spares m m' := by
  simp only [Machine.step, hPc] at hs
  rcases hInv.toSound.bget_cases dev sector with ⟨b, hGet, hFree, -⟩ | ⟨b, hGet⟩ | ⟨b, hGet, hFree, -⟩ | hGet
  · rw [hGet] at hs
    obtain rfl := Option.some.inj hs
    exact spares_take _ _ hFree
  · rw [hGet] at hs
    obtain rfl := Option.some.inj hs
    exact spares_goto m p _
  · rw [hGet] at hs
    obtain rfl := Option.some.inj hs
    exact spares_take _ _ hFree
  · rw [hGet] at hs
    obtain rfl := Option.some.inj hs
    exact spares_goto m p _

theorem spares_bread (hInv : m.Inv) {op : Op} {b : Ref} {dev sector : Nat} {k : Caller}
    (hPc : m.pc p = .bread b dev sector k) (hs : m.step p op = some m') : Spares m m' := by
  simp only [Machine.step, hPc] at hs
  split at hs
  · obtain rfl := Option.some.inj hs
    exact spares_goto m p _
  · next hv =>
    obtain rfl := Option.some.inj hs
    refine spares_iderw p _ ?_
    cases hd : (m.buf b).dirty with
    | false => rfl
    | true => exact absurd (hInv.valid b hd) hv

theorem spares_reader (hInv : m.Inv) {op : Op} {t : Trans P} (hm : t.m = m) (hReads : (m.pc p).Reads)
    (hp : t.owner ≠ some p) (hAllow : t.allows p op) (hBegin : m.pc p = .client → op ≠ .beginTrans)
    (hs : m.step p op = some m') : Spares m m' := by
  subst hm
  cases hPc : t.m.pc p with
  | client =>
    simp only [Trans.allows, hPc] at hAllow
    simp only [Machine.step, hPc] at hs
    cases op with
    | bread dev sector =>
      obtain rfl := Option.some.inj hs
      exact spares_goto t.m p _
    | brelse b =>
      obtain ⟨-, he⟩ := Option.ite_none_right_eq_some.mp hs
      obtain rfl := Option.some.inj he
      exact spares_brelse t.m p b _
    | bwrite b => exact hAllow.elim
    | beginTrans => exact absurd rfl (hBegin hPc)
    | modify | logWrite | commitTrans => exact absurd hAllow hp
  | bget dev sector k => exact spares_bget hInv hPc hs
  | bread b dev sector k => exact spares_bread hInv hPc hs
  | asleep | panic =>
    simp only [Machine.step, hPc] at hs
    cases hs
  | _ =>
    rw [hPc] at hReads
    exact hReads.elim

end Spared

/-! ## Steps that give a buffer -/

section Gives

variable {m m' : Machine P} {H : Disk} {K : Prop} {b : Ref}

/-- The contents of `b` are given; the buffers keep their sectors and contents, and the log is as it was. -/
structure Gives (m m' : Machine P) (b : Ref) : Prop where
  log : m'.log = m.log
  given : m'.given = Function.update m.given (m.buf b).sector (m.buf b).data
  sector : ∀ a, (m'.buf a).sector = (m.buf a).sector
  data : ∀ a, (m'.buf a).data = (m.buf a).data

theorem Gives.given_of_ne (h : Gives m m' b) {x : Nat} (hx : x ≠ (m.buf b).sector) : m'.given x = m.given x := by
  rw [h.given, Function.update_of_ne hx]

theorem Gives.given_self (h : Gives m m' b) : m'.given (m.buf b).sector = (m.buf b).data := by
  rw [h.given, Function.update_self]

theorem Gives.home (h : Gives m m' b) (hIn : m.log.Holds (m.buf b).sector) (hHome : Home H m) : Home H m' := by
  intro x hx
  rw [h.log] at hx
  have hNe : x ≠ (m.buf b).sector := fun he => hx (he ▸ hIn)
  rw [h.given_of_ne hNe]
  exact hHome x hx

theorem Gives.slot (h : Gives m m' b) {b' : Ref} {i : Nat} (hLog : Logging H m b' i)
    (hSector : (m.buf b).sector = m.log.slot i) (hData : (m.buf b).data = (m.buf b').data) :
    Logging H m' b' i ∧ m'.given (m'.log.slot i) = (m'.buf b').data := by
  obtain ⟨hRoom, hOut, hFresh, hIs, hHome, hCopied⟩ := hLog
  have hIn : m.log.Holds (m.buf b).sector := by
    rw [hSector]
    exact Fs.slot_holds hRoom
  constructor
  · constructor
    · rwa [h.log]
    · rwa [h.log, h.sector]
    · rwa [h.log, h.sector]
    · rwa [h.data, h.sector]
    · rw [h.log, h.sector]
      intro x hx hNe
      have hSlot : x ≠ (m.buf b).sector := fun he => hx (he ▸ hIn)
      rw [h.given_of_ne hSlot]
      exact hHome x hx hNe
    · rw [h.log]
      intro j hj hNe
      have hSlot : m.log.slot j ≠ (m.buf b).sector := by
        rw [hSector]
        simp only [Log.slot]
        omega
      rw [h.given_of_ne hSlot]
      exact hCopied j hj hNe
  · rw [h.log, ← hSector, h.given_self, h.data]
    exact hData

theorem Gives.header (h : Gives m m' b) {erase : Bool} (hHead : Heading H m erase)
    (hSector : (m.buf b).sector = m.log.start) : Heading H m' erase := by
  have hIn : m.log.Holds (m.buf b).sector := by
    rw [hSector]
    exact Fs.start_holds
  cases erase with
  | true =>
    obtain ⟨hHome, hNone⟩ : Erasing H m := hHead
    refine (⟨h.home hIn hHome, ?_⟩ : Erasing H m')
    rwa [h.log]
  | false =>
    obtain ⟨⟨hHome, hCopied⟩, hSome⟩ : Committing H m := hHead
    refine (⟨⟨h.home hIn hHome, ?_⟩, ?_⟩ : Committing H m')
    · rw [Copied, h.log]
      intro i hi
      rw [h.given_of_ne (by rw [hSector]; exact Fs.slot_ne_start i)]
      exact hCopied i hi
    · rwa [h.log]

theorem Gives.install (h : Gives m m' b) {tail : Nat} (hOrd : Ordered m.log) (hInst : Installing H m tail)
    (hSector : (m.buf b).sector = m.log.sector tail) (hData : (m.buf b).data = H (m.log.sector tail)) :
    Committing H m' := by
  obtain ⟨⟨⟨hHome, hCopied⟩, hSome⟩, hLt⟩ := hInst
  have hOut := hOrd.out tail hLt
  have hSame : m'.given = m.given := by
    rw [h.given, hSector, hData, ← hHome _ hOut, Function.update_eq_self]
  exact (⟨⟨hHome, hCopied⟩, hSome⟩ : Committing H m).congr h.log hSame

variable [DecidableEq P]

/-- A valid buffer goes through `iderw`: the kernel panics, or its contents are given. -/
theorem gives_iderw (m : Machine P) (p : P) {b : Ref} (pc : Pc) (hv : (m.buf b).valid = true) :
    (∃ e, (m.iderw p b pc).pc p = .panic e) ∨ (m.iderw p b pc).pc p = pc ∧ Gives m (m.iderw p b pc) b := by
  rw [Machine.iderw]
  split
  · next e hi => exact .inl ⟨e, Machine.goto_pc_self _ p _⟩
  · next d x hi =>
    obtain ⟨-, -, ⟨hd, -, rfl⟩ | ⟨-, hn, -, -⟩⟩ := Machine.iderw_eq_ok hi
    · rw [if_pos hd]
      refine .inr ⟨Machine.goto_pc_self _ p _, rfl, rfl, fun a => ?_, fun a => ?_⟩
      · rcases eq_or_ne a b with rfl | hne
        · simp [Machine.buf, Machine.goto]
        · simp [Machine.buf, Machine.goto, Cache.set_buf_of_ne _ _ hne]
      · rcases eq_or_ne a b with rfl | hne
        · simp [Machine.buf, Machine.goto]
        · simp [Machine.buf, Machine.goto, Cache.set_buf_of_ne _ _ hne]
    · simp [hn] at hv

theorem rewrite_bufs (m : Machine P) (p : P) {b : Ref} (data : Block) (k : Writer) (hBusy : (m.buf b).busy = true) :
    ((m.store b data).bwrite p b k).given = m.given ∧
      (((m.store b data).bwrite p b k).buf b).data = data ∧
      (∀ a, (((m.store b data).bwrite p b k).buf a).sector = (m.buf a).sector) ∧
      ∀ a, a ≠ b → (((m.store b data).bwrite p b k).buf a).data = (m.buf a).data := by
  have hStill : ((m.store b data).buf b).busy = true := by
    rw [Machine.buf, Machine.store, Cache.set_buf_self]
    exact hBusy
  rw [Machine.bwrite, hStill]
  refine ⟨rfl, by simp [Machine.buf, Machine.goto, Machine.store], fun a => ?_, fun a hne => ?_⟩
  · rcases eq_or_ne a b with rfl | hne
    · simp [Machine.buf, Machine.goto, Machine.store]
    · simp [Machine.buf, Machine.goto, Machine.store, Cache.set_buf_of_ne _ _ hne]
  · simp [Machine.buf, Machine.goto, Machine.store, Cache.set_buf_of_ne _ _ hne]

end Gives

namespace Trans

variable [DecidableEq P] {t : Trans P} {m' : Machine P} {p : P} {op : Op} {l : Log} {d : Disk} {Z : Prop}
  {ws : List Write}

/-! ## Steps of the owner -/

omit [DecidableEq P] in
theorem logs_eq_nil (h : t.m.pc p = .client → ∀ b, op ≠ .logWrite b) : t.logs (p, op) = [] := by
  simp only [logs]
  split
  · next hPc => exact absurd rfl (h hPc _)
  · rfl

omit [DecidableEq P] in
theorem logs_of_not_client (hPc : t.m.pc p ≠ .client) : t.logs (p, op) = [] :=
  logs_eq_nil fun hClient => absurd hClient hPc

omit [DecidableEq P] in
theorem Carries.same (h : Carries l d Z ws t) (hp : t.owner = some p) (hLog : m'.log = t.m.log)
    (hTodo : (m'.pc p).Todo (Writes.apply ws d) (Z ∨ ws ≠ []) m') : Carries l d Z ws ⟨m', t.owner⟩ where
  start := by
    rw [hLog]
    exact h.start
  size := by
    rw [hLog]
    exact h.size
  ordered := by
    rw [hLog]
    exact h.ordered
  todo q hq := by
    obtain rfl := Option.some.inj (hp.symm.trans hq)
    exact hTodo
  rest hNone := absurd (hp.symm.trans hNone) (Option.some_ne_none _)

omit [DecidableEq P] in
/-- `bread` returns a buffer of the sector it was asked for. -/
theorem todo_pc {m : Machine P} {H : Disk} {K : Prop} {sector : Nat} {b : Ref} {k : Caller}
    (h : k.Todo H K m sector) (hb : (m.buf b).sector = sector) : (k.pc b).Todo H K m := by
  subst hb
  cases k with
  | client | logWrite | head | logBuf | dstBuf => exact h

theorem Carries.bread (h : Carries l d Z ws t) (hInv : t.m.Inv) (hp : t.owner = some p) {b : Ref} {dev sector : Nat}
    {k : Caller} (hPc : t.m.pc p = .bread b dev sector k) (hs : t.m.step p op = some m') :
    Carries l d Z ws ⟨m', t.owner⟩ := by
  have hSpares := spares_bread hInv hPc hs
  have hTodo := hSpares.todo hInv (h.todo p hp)
  rw [hPc] at hTodo
  obtain ⟨-, hUses, -, -, hWanted⟩ := hInv.frame p
  have hHeld : t.m.held p b = true := hUses b (by rw [hPc]; exact List.mem_cons_self)
  have hSector : (m'.buf b).sector = sector :=
    (hInv.kept hs b (.inr (hInv.busy_of_held hHeld))).2.trans (hWanted b dev sector k hPc).2
  refine h.same hp hSpares.log ?_
  simp only [Machine.step, hPc] at hs
  split at hs
  · obtain rfl := Option.some.inj hs
    rw [Machine.goto_pc_self]
    exact todo_pc hTodo hSector
  · obtain rfl := Option.some.inj hs
    obtain ⟨e, hNew, -⟩ | ⟨hNew, -⟩ := iderw_pc t.m p b (k.pc b)
    · rw [hNew]
      trivial
    · rw [hNew]
      exact todo_pc hTodo hSector

theorem Carries.bget (h : Carries l d Z ws t) (hInv : t.m.Inv) (hp : t.owner = some p) {dev sector : Nat}
    {k : Caller} (hPc : t.m.pc p = .bget dev sector k) (hs : t.m.step p op = some m') :
    Carries l d Z ws ⟨m', t.owner⟩ := by
  have hSpares := spares_bget hInv hPc hs
  have hTodo := hSpares.todo hInv (h.todo p hp)
  rw [hPc] at hTodo
  refine h.same hp hSpares.log ?_
  obtain ⟨-, -, ⟨b, hNew⟩ | ⟨b, hNew⟩ | hFull⟩ := bget_step hInv hPc hs
  · rw [hNew]
    exact hTodo
  · rw [hNew]
    exact hTodo
  · rw [bget_full hPc hs hFull]
    trivial

theorem Carries.bwrite (h : Carries l d Z ws t) (hPins : Pins t) (hInv : t.m.Inv) (hp : t.owner = some p) {b : Ref}
    {k : Writer} (hPc : t.m.pc p = .bwrite b k) (hs : t.m.step p op = some m') : Carries l d Z ws ⟨m', t.owner⟩ := by
  obtain ⟨-, hUses, -, hFilled, -⟩ := hInv.frame p
  rw [hPc] at hUses hFilled
  have hTodo := h.todo p hp
  have hFacts := hPins.facts p hp
  rw [hPc] at hTodo hFacts
  have hv : (t.m.buf b).valid = true := (hFilled b (hUses b List.mem_cons_self)).resolve_right id
  simp only [Machine.step, hPc] at hs
  obtain rfl := Option.some.inj hs
  refine h.same hp (iderw_log _ _ _ _) ?_
  obtain ⟨e, hNew⟩ | ⟨hNew, hGives⟩ := gives_iderw t.m p (k.pc b) hv
  · rw [hNew]
    trivial
  · rw [hNew]
    cases k with
    | client => exact hTodo.elim
    | logWrite b' i =>
      obtain ⟨hLogging, hSector, hData⟩ := hTodo
      exact hGives.slot hLogging hSector hData
    | head erase =>
      obtain ⟨hHead, hSector, hZero⟩ := hTodo
      refine ⟨hGives.header hHead hSector, fun hErase => ?_⟩
      rw [Erased, hGives.log, ← hSector, hGives.given_self]
      exact hZero hErase
    | install lbuf tail =>
      obtain ⟨hInst, hData⟩ := hTodo
      exact hGives.install h.ordered hInst hFacts hData

theorem Carries.rewrite (h : Carries l d Z ws t) (hInv : t.m.Inv) (hp : t.owner = some p) {b : Ref} {data : Block}
    {k : Writer} (hb : t.m.held p b = true)
    (hTodo : k.Todo (Writes.apply ws d) ((t.m.store b data).bwrite p b k) b) :
    Carries l d Z ws ⟨(t.m.store b data).bwrite p b k, t.owner⟩ := by
  refine h.same hp (rewrite_log _ _ _ _ _) ?_
  rw [rewrite_pc (hInv.busy_of_held hb)]
  exact hTodo

theorem Carries.copies (h : Carries l d Z ws t) (hInv : t.m.Inv) (hp : t.owner = some p)
    (hPc : (∃ b lbuf i, t.m.pc p = .logCopy b lbuf i) ∨ (∃ b erase, t.m.pc p = .headCopy b erase) ∨
      ∃ lbuf dbuf tail, t.m.pc p = .copy lbuf dbuf tail) (hs : t.m.step p op = some m') :
    Carries l d Z ws ⟨m', t.owner⟩ := by
  obtain ⟨hNodup, hUses, hClean, hFilled, -⟩ := hInv.frame p
  have hTodo := h.todo p hp
  obtain ⟨b, lbuf, i, hPc⟩ | ⟨b, erase, hPc⟩ | ⟨lbuf, dbuf, tail, hPc⟩ := hPc
  · rw [hPc] at hTodo hUses hNodup
    have hl : t.m.held p lbuf = true := hUses lbuf (by simp [Pc.uses])
    simp only [Machine.step, hPc] at hs
    obtain rfl := Option.some.inj hs
    refine h.rewrite hInv hp hl ?_
    have hne : b ≠ lbuf := by
      rintro rfl
      exact (List.nodup_cons.mp hNodup).1 List.mem_cons_self
    have hLog := rewrite_log t.m p lbuf (t.m.buf b).data (.logWrite b i)
    obtain ⟨hGiven, hNew, hSector, hData⟩ :=
      rewrite_bufs t.m p (t.m.buf b).data (.logWrite b i) (hInv.busy_of_held hl)
    refine ⟨hTodo.1.congr hLog hGiven (hSector b) (hData b hne), ?_, ?_⟩
    · rw [hSector, hLog]
      exact hTodo.2
    · rw [hNew, hData b hne]
  · rw [hPc] at hTodo hUses
    have hb : t.m.held p b = true := hUses b List.mem_cons_self
    simp only [Machine.step, hPc] at hs
    obtain rfl := Option.some.inj hs
    refine h.rewrite hInv hp hb ?_
    have hLog := rewrite_log t.m p b
      (Fs.putSectors (Fs.setWord (t.m.buf b).data 0 t.m.log.n) t.m.log.sector t.m.log.n) (.head erase)
    obtain ⟨hGiven, hNew, hSector, -⟩ := rewrite_bufs t.m p
      (Fs.putSectors (Fs.setWord (t.m.buf b).data 0 t.m.log.n) t.m.log.sector t.m.log.n) (.head erase)
      (hInv.busy_of_held hb)
    refine ⟨hTodo.1.congr hLog hGiven, ?_, ?_⟩
    · rw [hSector, hLog]
      exact hTodo.2
    · rintro rfl
      have hNone : t.m.log.n = 0 := Erasing.none hTodo.1
      rw [hNew, Fs.getWord_putSectors_zero, Fs.getWord_setWord_self, hNone, Nat.zero_mod]
  · rw [hPc] at hTodo hUses hNodup hClean hFilled
    have hl : t.m.held p lbuf = true := hUses lbuf List.mem_cons_self
    have hb : t.m.held p dbuf = true := hUses dbuf (by simp [Pc.uses])
    simp only [Machine.step, hPc] at hs
    obtain rfl := Option.some.inj hs
    refine h.rewrite hInv hp hb ?_
    have hLog := rewrite_log t.m p dbuf (t.m.buf lbuf).data (.install lbuf tail)
    obtain ⟨hGiven, hNew, -, -⟩ :=
      rewrite_bufs t.m p (t.m.buf lbuf).data (.install lbuf tail) (hInv.busy_of_held hb)
    refine ⟨hTodo.1.congr hLog hGiven, ?_⟩
    -- the buffer of the slot has what was given for it
    have hCurrent := hInv.current lbuf ((hFilled lbuf hl).resolve_right id) (hClean lbuf List.mem_cons_self)
    rw [hNew, hLog, hCurrent, hTodo.2]
    exact hTodo.1.copied tail hTodo.1.lt

/-- `log_write` marks its buffer, whose contents are given then. -/
theorem Carries.mark (h : Carries l d Z ws t) (hPins : Pins t) (hp : t.owner = some p) {b : Ref} {i : Nat}
    (hPc : t.m.pc p = .logMark b i) (hs : t.m.step p op = some m') : Carries l d Z ws ⟨m', t.owner⟩ := by
  have hTodo := h.todo p hp
  have hFacts := hPins.facts p hp
  rw [hPc] at hTodo hFacts
  obtain ⟨⟨hRoom, hOut, hFresh, hData, hHome, hCopied⟩, hSlot⟩ := hTodo
  obtain ⟨hLe, hAt⟩ : LogsAt t.m b i := hFacts
  have hPush := h.ordered.push hLe hRoom (by rwa [hAt]) (by rwa [hAt])
  simp only [Machine.step, hPc] at hs
  obtain rfl := Option.some.inj hs
  refine ⟨h.start, h.size, hPush, fun q hq => ?_, fun hNone => absurd (hp.symm.trans hNone) (Option.some_ne_none _)⟩
  obtain rfl := Option.some.inj (hp.symm.trans hq)
  dsimp only
  rw [Machine.goto_pc_self]
  refine ⟨⟨fun x hx => ?_, fun j hj => ?_⟩, fun hZero => ?_⟩
  · change Function.update t.m.given (t.m.buf b).sector (t.m.buf b).data x = _
    rcases eq_or_ne x (t.m.buf b).sector with rfl | hne
    · rw [Function.update_self]
      exact hData
    · rw [Function.update_of_ne hne]
      exact hHome x hx hne
  · change Function.update t.m.given (t.m.buf b).sector (t.m.buf b).data (t.m.log.slot j) =
      Writes.apply ws d (t.m.log.sector j)
    obtain hOld := lt_of_lt_pushed hj
    have hIn : t.m.log.Holds (t.m.log.slot j) := by
      have := h.ordered.room
      exact Fs.slot_holds (by omega)
    have hne : t.m.log.slot j ≠ (t.m.buf b).sector := by
      intro he
      rw [he] at hIn
      exact hOut hIn
    rw [Function.update_of_ne hne]
    rcases eq_or_ne j i with rfl | hne
    · rw [hSlot, hData, ← hAt]
    · exact hCopied j (hOld.resolve_right hne) hne
  · change (if i = t.m.log.n then t.m.log.n + 1 else t.m.log.n) = 0 at hZero
    split at hZero <;> omega

theorem Carries.logWrite (h : Carries l d Z ws t) (hp : t.owner = some p) (hPc : t.m.pc p = .client) {b : Ref}
    (hs : t.m.step p (.logWrite b) = some m') (hOut : ¬l.Holds (t.m.buf b).sector) :
    Carries l d Z (ws ++ [((t.m.buf b).sector, (t.m.buf b).data)]) ⟨m', t.owner⟩ := by
  have hRest := h.todo p hp
  rw [hPc] at hRest
  simp only [Machine.step, hPc] at hs
  obtain ⟨-, he⟩ := Option.ite_none_right_eq_some.mp hs
  obtain rfl := Option.some.inj he
  have hPanic (e : Panic) (hEq : t.m.logWrite p b = t.m.goto p (.panic e)) :
      Carries l d Z (ws ++ [((t.m.buf b).sector, (t.m.buf b).data)]) ⟨t.m.logWrite p b, t.owner⟩ := by
    rw [hEq]
    refine ⟨h.start, h.size, h.ordered, fun q hq => ?_, fun hNone => absurd (hp.symm.trans hNone) (Option.some_ne_none _)⟩
    obtain rfl := Option.some.inj (hp.symm.trans hq)
    dsimp only
    rw [Machine.goto_pc_self]
    trivial
  by_cases hBig : logsize ≤ t.m.log.n ∨ t.m.log.size ≤ t.m.log.n + 1
  · exact hPanic .tooBigTrans (if_pos hBig)
  · cases hOpen : t.m.log.busy with
    | false => exact hPanic .outsideTrans (by rw [Machine.logWrite, if_neg hBig, hOpen]; rfl)
    | true =>
      set i := logIndex t.m.log (t.m.buf b).sector with hi
      obtain ⟨hLe, hSame⟩ := logAt_logWrite t.m.log (t.m.buf b).sector
      rw [← hi] at hLe hSame
      have hEq : t.m.logWrite p b = ({ t.m with log := { t.m.log with
          sector := Function.update t.m.log.sector i (t.m.buf b).sector } }).goto p
            (.bget (t.m.buf b).dev (t.m.log.slot i) (.logWrite b i)) := by
        rw [Machine.logWrite, if_neg hBig, hOpen, Bool.not_true, if_neg Bool.false_ne_true]
      -- another block of the log is that of another sector
      have hOther (j : Nat) (hj : j < t.m.log.n) (hne : j ≠ i) : t.m.log.sector j ≠ (t.m.buf b).sector := by
        intro hSec
        obtain ⟨hLt, hFound⟩ := Fs.logIndex_of_mem ⟨j, hj, hSec⟩
        exact hne (h.ordered.inj j hj i hLt (hSec.trans hFound.symm))
      have hOut' : ¬t.m.log.Holds (t.m.buf b).sector := by
        rwa [Log.Holds, h.start, h.size]
      have hSize : t.m.log.n + 1 < t.m.log.size := Nat.lt_of_not_le fun hle => hBig (.inr hle)
      rw [hEq]
      refine ⟨h.start, h.size, ⟨h.ordered.room, fun j hj => ?_, fun j hj k hk he => ?_⟩, fun q hq => ?_,
        fun hNone => absurd (hp.symm.trans hNone) (Option.some_ne_none _)⟩
      · change ¬t.m.log.Holds (Function.update t.m.log.sector i (t.m.buf b).sector j)
        rw [hSame j hj]
        exact h.ordered.out j hj
      · refine h.ordered.inj j hj k hk ?_
        rw [← hSame j hj, ← hSame k hk]
        exact he
      · obtain rfl := Option.some.inj (hp.symm.trans hq)
        dsimp only
        rw [Machine.goto_pc_self, Writes.apply_concat]
        refine ⟨⟨?_, hOut', fun hEnd j hj => ?_, ?_, fun x hx hne => ?_, fun j hj hne => ?_⟩, rfl⟩
        · exact Nat.lt_of_le_of_lt (Nat.succ_le_succ hLe) hSize
        · change Function.update t.m.log.sector i (t.m.buf b).sector j ≠ (t.m.buf b).sector
          rw [hSame j hj]
          exact hOther j hj (by rw [show i = t.m.log.n from hEnd]; exact Nat.ne_of_lt hj)
        · exact (Function.update_self (t.m.buf b).sector (t.m.buf b).data (Writes.apply ws d)).symm
        · have hNe : x ≠ (t.m.buf b).sector := hne
          exact (hRest.home x hx).trans (Function.update_of_ne hNe (t.m.buf b).data (Writes.apply ws d)).symm
        · change t.m.given (t.m.log.slot j) = Function.update (Writes.apply ws d) (t.m.buf b).sector (t.m.buf b).data
            (Function.update t.m.log.sector i (t.m.buf b).sector j)
          rw [hSame j hj, Function.update_of_ne (hOther j hj hne)]
          exact hRest.copied j hj

theorem Carries.release (h : Carries l d Z ws t) (hInv : t.m.Inv) (hp : t.owner = some p) {b : Ref} {pc : Pc}
    (hb : t.m.held p b = true) (hTodo : (t.m.pc p).Todo (Writes.apply ws d) (Z ∨ ws ≠ []) (t.m.brelse p b pc) →
      pc.Todo (Writes.apply ws d) (Z ∨ ws ≠ []) (t.m.brelse p b pc)) :
    Carries l d Z ws ⟨t.m.brelse p b pc, t.owner⟩ := by
  refine h.same hp (brelse_log _ _ _ _) ?_
  rw [brelse_pc pc (hInv.busy_of_held hb)]
  exact hTodo ((spares_brelse t.m p b pc).todo hInv (h.todo p hp))

theorem Carries.goes (h : Carries l d Z ws t) (hInv : t.m.Inv) (hp : t.owner = some p) {pc : Pc}
    (hTodo : (t.m.pc p).Todo (Writes.apply ws d) (Z ∨ ws ≠ []) (t.m.goto p pc) →
      pc.Todo (Writes.apply ws d) (Z ∨ ws ≠ []) (t.m.goto p pc)) : Carries l d Z ws ⟨t.m.goto p pc, t.owner⟩ := by
  refine h.same hp rfl ?_
  rw [Machine.goto_pc_self]
  exact hTodo ((spares_goto t.m p pc).todo hInv (h.todo p hp))

theorem Carries.own (h : Carries l d Z ws t) (hPins : Pins t) (hInv : t.m.Inv) (hp : t.owner = some p)
    (hAllow : t.allows p op) (hOpen : t.m.pc p ≠ .unlock) (hs : t.m.step p op = some m')
    (hOut : ∀ w ∈ t.logs (p, op), ¬l.Holds w.1) : Carries l d Z (ws ++ t.logs (p, op)) ⟨m', t.owner⟩ := by
  have hTodo := h.todo p hp
  have hUses := (hInv.frame p).uses
  cases hPc : t.m.pc p with
  | client =>
    rw [hPc] at hTodo
    by_cases hLog : ∃ b, op = .logWrite b
    · obtain ⟨b, rfl⟩ := hLog
      have hLogs : t.logs (p, .logWrite b) = [((t.m.buf b).sector, (t.m.buf b).data)] := by simp only [logs, hPc]
      rw [hLogs]
      exact h.logWrite hp hPc hs (hOut _ (by rw [hLogs]; exact List.mem_singleton_self _))
    · rw [logs_eq_nil fun _ b hb => hLog ⟨b, hb⟩, List.append_nil]
      simp only [Machine.step, hPc] at hs
      have hCall (hPc' : m'.pc p = .client) (hLog : m'.log = t.m.log) (hGiven : m'.given = t.m.given) :
          Carries l d Z ws ⟨m', t.owner⟩ := by
        refine h.same hp hLog ?_
        rw [hPc']
        exact Rest.congr hTodo hLog hGiven
      cases op with
      | bread dev sector =>
        obtain rfl := Option.some.inj hs
        exact h.goes hInv hp fun hNow => by rw [hPc] at hNow; exact hNow
      | modify b data =>
        obtain ⟨-, he⟩ := Option.ite_none_right_eq_some.mp hs
        obtain rfl := Option.some.inj he
        exact hCall hPc rfl rfl
      | bwrite b => simp only [allows, hPc] at hAllow
      | logWrite b => exact absurd ⟨b, rfl⟩ hLog
      | brelse b =>
        obtain ⟨⟨hb, -⟩, he⟩ := Option.ite_none_right_eq_some.mp hs
        obtain rfl := Option.some.inj he
        exact hCall (brelse_pc .client (hInv.busy_of_held hb)) (brelse_log _ _ _ _) (spares_brelse t.m p b _).given
      | beginTrans =>
        obtain ⟨hNot, -⟩ := Option.ite_none_left_eq_some.mp hs
        exact absurd (hPins.flag p hp) hNot
      | commitTrans =>
        obtain rfl := Option.some.inj hs
        split
        · next hSome =>
          refine h.goes hInv hp fun hNow => ?_
          rw [hPc] at hNow
          exact ⟨Committing.mk hNow.toSettled hSome, rfl⟩
        · next hNone =>
          refine h.goes hInv hp fun hNow => ?_
          rw [hPc] at hNow
          exact ⟨hNow, Nat.eq_zero_of_not_pos hNone⟩
  | unlock => exact absurd hPc hOpen
  | asleep | panic =>
    simp only [Machine.step, hPc] at hs
    cases hs
  | bget dev sector k =>
    rw [logs_of_not_client (by simp [hPc]), List.append_nil]
    exact h.bget hInv hp hPc hs
  | bread b dev sector k =>
    rw [logs_of_not_client (by simp [hPc]), List.append_nil]
    exact h.bread hInv hp hPc hs
  | bwrite b k =>
    rw [logs_of_not_client (by simp [hPc]), List.append_nil]
    exact h.bwrite hPins hInv hp hPc hs
  | logCopy b lbuf i =>
    rw [logs_of_not_client (by simp [hPc]), List.append_nil]
    exact h.copies hInv hp (.inl ⟨b, lbuf, i, hPc⟩) hs
  | headCopy b erase =>
    rw [logs_of_not_client (by simp [hPc]), List.append_nil]
    exact h.copies hInv hp (.inr (.inl ⟨b, erase, hPc⟩)) hs
  | copy lbuf dbuf tail =>
    rw [logs_of_not_client (by simp [hPc]), List.append_nil]
    exact h.copies hInv hp (.inr (.inr ⟨lbuf, dbuf, tail, hPc⟩)) hs
  | logMark b i =>
    rw [logs_of_not_client (by simp [hPc]), List.append_nil]
    exact h.mark hPins hp hPc hs
  | logRelse b lbuf i =>
    rw [logs_of_not_client (by simp [hPc]), List.append_nil]
    rw [hPc] at hUses
    simp only [Machine.step, hPc] at hs
    obtain rfl := Option.some.inj hs
    exact h.release hInv hp (hUses lbuf (by simp [Pc.uses])) fun hNow => by rw [hPc] at hNow; exact hNow
  | headRelse b erase =>
    rw [logs_of_not_client (by simp [hPc]), List.append_nil]
    rw [hPc] at hUses
    simp only [Machine.step, hPc] at hs
    obtain rfl := Option.some.inj hs
    refine h.release hInv hp (hUses b List.mem_cons_self) fun hNow => ?_
    rw [hPc] at hNow
    cases erase with
    | false => exact hNow.1
    | true =>
      obtain ⟨⟨hHome, hNone⟩, hErased⟩ := hNow
      refine ⟨⟨⟨hHome, fun i hi => ?_⟩, fun _ _ => hErased rfl⟩, hNone⟩
      rw [hNone] at hi
      exact absurd hi (Nat.not_lt_zero i)
  | relseLog lbuf dbuf tail =>
    rw [logs_of_not_client (by simp [hPc]), List.append_nil]
    rw [hPc] at hUses
    simp only [Machine.step, hPc] at hs
    obtain rfl := Option.some.inj hs
    exact h.release hInv hp (hUses lbuf List.mem_cons_self) fun hNow => by rw [hPc] at hNow; exact hNow
  | relseDst dbuf tail =>
    rw [logs_of_not_client (by simp [hPc]), List.append_nil]
    rw [hPc] at hUses
    simp only [Machine.step, hPc] at hs
    obtain rfl := Option.some.inj hs
    exact h.release hInv hp (hUses dbuf List.mem_cons_self) fun hNow => by rw [hPc] at hNow; exact hNow
  | dst lbuf tail =>
    rw [logs_of_not_client (by simp [hPc]), List.append_nil]
    simp only [Machine.step, hPc] at hs
    obtain rfl := Option.some.inj hs
    exact h.goes hInv hp fun hNow => by rw [hPc] at hNow; exact hNow
  | install tail =>
    rw [logs_of_not_client (by simp [hPc]), List.append_nil]
    rw [hPc] at hTodo
    simp only [Machine.step, hPc] at hs
    split at hs
    · next hLt =>
      obtain rfl := Option.some.inj hs
      refine h.goes hInv hp fun hNow => ?_
      rw [hPc] at hNow
      exact ⟨⟨hNow, hLt⟩, rfl⟩
    · obtain rfl := Option.some.inj hs
      refine ⟨h.start, h.size, ⟨.inl rfl, fun i hi => absurd hi (Nat.not_lt_zero i),
        fun i hi => absurd hi (Nat.not_lt_zero i)⟩, fun q hq => ?_, fun hNone => absurd (hp.symm.trans hNone) (Option.some_ne_none _)⟩
      obtain rfl := Option.some.inj (hp.symm.trans hq)
      dsimp only
      rw [Machine.goto_pc_self]
      exact ⟨Erasing.mk (fun x hx => hTodo.home x hx) rfl, rfl⟩

/-! ## Runs -/

omit [DecidableEq P] in
theorem todo_wake {H : Disk} {K : Prop} {m : Machine P} (b : Ref) (pc : Pc) :
    (pc.wake b).Todo H K m = pc.Todo H K m := by
  cases pc with
  | asleep b' dev sector k =>
    simp only [Pc.wake]
    split <;> rfl
  | _ => rfl

theorem Carries.read (h : Carries l d Z ws t) (hPins : Pins t) (hInv : t.m.Inv) (hp : t.owner ≠ some p)
    (hAllow : t.allows p op) (hBegin : t.m.pc p = .client → op ≠ .beginTrans) (hs : t.m.step p op = some m') :
    Carries l d Z ws ⟨m', t.owner⟩ := by
  have hSpares := spares_reader hInv rfl (hPins.readers p hp) hp hAllow hBegin hs
  have hOthers := others_step hs
  refine ⟨?_, ?_, ?_, fun q hq => ?_, fun hNone => ?_⟩
  · rw [hSpares.log]
    exact h.start
  · rw [hSpares.log]
    exact h.size
  · rw [hSpares.log]
    exact h.ordered
  · have hne : q ≠ p := by
      rintro rfl
      exact hp hq
    have hSame := hSpares.todo hInv (h.todo q hq)
    dsimp only
    obtain he | ⟨b, he⟩ := hOthers.pc q hne
    · rw [he]
      exact hSame
    · rw [he, todo_wake]
      exact hSame
  · obtain ⟨hRest, hZero⟩ := h.rest hNone
    refine ⟨hRest.congr hSpares.log hSpares.given, ?_⟩
    rw [hSpares.log]
    exact hZero

theorem Carries.begin (h : Carries l d Z ws t) (hPins : Pins t) (hPc : t.m.pc p = .client)
    (hs : t.m.step p .beginTrans = some m') : Carries l d Z ws ⟨m', some p⟩ := by
  simp only [Machine.step, hPc] at hs
  obtain ⟨hFree, he⟩ := Option.ite_none_left_eq_some.mp hs
  obtain rfl := Option.some.inj he
  have hNone : t.owner = none := by
    cases ho : t.owner with
    | none => rfl
    | some q => exact absurd (hPins.flag q ho) hFree
  obtain ⟨⟨⟨hHome, hCopied⟩, hHeader⟩, -⟩ := h.rest hNone
  refine ⟨h.start, h.size, ⟨h.ordered.room, h.ordered.out, h.ordered.inj⟩, fun q hq => ?_, fun hNone => absurd hNone (Option.some_ne_none _)⟩
  obtain rfl := Option.some.inj hq
  dsimp only
  rw [hPc]
  exact ⟨⟨hHome, hCopied⟩, hHeader⟩

theorem Carries.unlock (h : Carries l d Z ws t) (hp : t.owner = some p) (hPc : t.m.pc p = .unlock)
    (hs : t.m.step p op = some m') : Carries l d Z ws ⟨m', none⟩ := by
  have hTodo := h.todo p hp
  rw [hPc] at hTodo
  simp only [Machine.step, hPc] at hs
  obtain rfl := Option.some.inj hs
  obtain ⟨⟨⟨hHome, hCopied⟩, hHeader⟩, hZero⟩ := hTodo
  exact ⟨h.start, h.size, ⟨h.ordered.room, h.ordered.out, h.ordered.inj⟩, fun q hq => absurd hq.symm (Option.some_ne_none _),
    fun _ => ⟨⟨⟨hHome, hCopied⟩, hHeader⟩, hZero⟩⟩

theorem Carries.step (h : Carries l d Z ws t) (hPins : Pins t) (hInv : t.m.Inv) {x : P × Op} {t' : Trans P}
    (hs : t.step x = some t') (hOut : ∀ w ∈ t.logs x, ¬l.Holds w.1) : Carries l d Z (ws ++ t.logs x) t' := by
  obtain ⟨p, op⟩ := x
  obtain ⟨hAllow, hMap⟩ := Option.ite_none_right_eq_some.mp hs
  obtain ⟨m', hMachine, rfl⟩ := Option.map_eq_some_iff.mp hMap
  by_cases hp : t.owner = some p
  · by_cases hUnlock : t.m.pc p = .unlock
    · have hNone : t.ownerAfter p op = none := by simp only [ownerAfter, hUnlock]
      rw [hNone, logs_of_not_client (by simp [hUnlock]), List.append_nil]
      exact h.unlock hp hUnlock hMachine
    · rw [ownerAfter_eq (fun _ _ => hp) hUnlock]
      exact h.own hPins hInv hp hAllow hUnlock hMachine hOut
  · have hLogs : t.logs (p, op) = [] := by
      refine logs_eq_nil fun hPc b hb => hp ?_
      subst hb
      simpa only [allows, hPc] using hAllow
    rw [hLogs, List.append_nil]
    by_cases hBegin : t.m.pc p = .client ∧ op = .beginTrans
    · obtain ⟨hPc, rfl⟩ := hBegin
      have hNew : t.ownerAfter p .beginTrans = some p := by simp only [ownerAfter, hPc]
      rw [hNew]
      exact h.begin hPins hPc hMachine
    · have hUnlock : t.m.pc p ≠ .unlock := fun hPc => by
        have := hPins.readers p hp
        rw [hPc] at this
        exact this
      rw [ownerAfter_eq (fun hPc hOp => (hBegin ⟨hPc, hOp⟩).elim) hUnlock]
      exact h.read hPins hInv hp hAllow (fun hPc hOp => hBegin ⟨hPc, hOp⟩) hMachine

theorem panic_stays {x : P × Op} {t' : Trans P} (hs : t.step x = some t') {q : P} {e : Panic}
    (hq : t.m.pc q = .panic e) : t'.m.pc q = .panic e := by
  obtain ⟨p, op⟩ := x
  obtain ⟨-, hMap⟩ := Option.ite_none_right_eq_some.mp hs
  obtain ⟨m', hMachine, rfl⟩ := Option.map_eq_some_iff.mp hMap
  have hne : q ≠ p := by
    rintro rfl
    simp only [Machine.step, hq] at hMachine
    cases hMachine
  obtain he | ⟨b, he⟩ := (others_step hMachine).pc q hne
  · exact he.trans hq
  · rw [he, hq]
    rfl

theorem panic_stays_run {xs : List (P × Op)} {t' : Trans P} (hRun : execute step t xs = some t') {q : P} {e : Panic}
    (hq : t.m.pc q = .panic e) : t'.m.pc q = .panic e :=
  execute_keeps (I := fun t => t.m.pc q = .panic e) (fun _ _ _ hs h => panic_stays hs h) hRun hq

/-- The run lemma: what is given follows what is passed to `log_write`. -/
theorem Carries.run {xs : List (P × Op)} {t' : Trans P} (h : Carries l d Z ws t) (hPins : Pins t) (hInv : t.m.Inv)
    (hRun : execute Trans.step t xs = some t') (hFound : ∀ q, t'.m.pc q ≠ .panic .bgetNoBuffers)
    (hOut : ∀ w ∈ logged t xs, ¬l.Holds w.1) : Carries l d Z (ws ++ logged t xs) t' ∧ Pins t' ∧ t'.m.Inv := by
  induction xs generalizing t ws with
  | nil =>
    obtain rfl := Option.some.inj hRun
    rw [logged, List.append_nil]
    exact ⟨h, hPins, hInv⟩
  | cons x xs ih =>
    obtain ⟨t₁, hs, hRun⟩ := Option.bind_eq_some_iff.mp hRun
    have hLogged : logged t (x :: xs) = t.logs x ++ logged t₁ xs := by rw [logged, hs, Option.elim]
    rw [hLogged] at hOut ⊢
    have hFound₁ : t₁.m.pc x.1 ≠ .panic .bgetNoBuffers := fun he => hFound x.1 (panic_stays_run hRun he)
    have hStep := h.step hPins hInv hs fun w hw => hOut w (List.mem_append_left _ hw)
    have hInv₁ : t₁.m.Inv := by
      obtain ⟨-, hMap⟩ := Option.ite_none_right_eq_some.mp hs
      obtain ⟨m', hMachine, rfl⟩ := Option.map_eq_some_iff.mp hMap
      exact hInv.step hMachine
    rw [← List.append_assoc]
    exact ih hStep (hPins.next hInv hs hFound₁) hInv₁ hRun fun w hw => hOut w (List.mem_append_right _ hw)

/-! ## Between transactions -/

omit [DecidableEq P] in
theorem Idle.given (h : t.Idle) : t.m.given = t.m.disk := by
  funext x
  refine (h.inv.disk x fun b hb => ?_).symm
  rw [h.clean b] at hb
  cases hb

omit [DecidableEq P] in
theorem Idle.pins (h : t.Idle) (hFound : ∀ q, t.m.pc q ≠ .panic .bgetNoBuffers) : Pins t where
  flag _ hp := absurd (h.owner.symm.trans hp).symm (Option.some_ne_none _)
  readers q _ := h.readers q
  dirty b hb := absurd ((h.clean b).symm.trans hb) Bool.false_ne_true
  facts _ hp := absurd (h.owner.symm.trans hp).symm (Option.some_ne_none _)
  found := hFound

omit [DecidableEq P] in
theorem Idle.carries (h : t.Idle) : Carries t.m.log t.m.disk (getWord (t.m.disk t.m.log.start) 0 = 0) [] t where
  start := rfl
  size := rfl
  ordered := by
    refine ⟨.inl h.empty, fun i hi => ?_, fun i hi => ?_⟩
    · rw [h.empty] at hi
      exact absurd hi (Nat.not_lt_zero i)
    · rw [h.empty] at hi
      exact absurd hi (Nat.not_lt_zero i)
  todo _ hp := absurd (h.owner.symm.trans hp).symm (Option.some_ne_none _)
  rest _ := by
    refine ⟨⟨⟨fun x _ => ?_, fun i hi => ?_⟩, fun _ hZ => ?_⟩, h.empty⟩
    · rw [h.given]
      rfl
    · rw [h.empty] at hi
      exact absurd hi (Nat.not_lt_zero i)
    · rw [Erased, h.given]
      exact hZ.resolve_right fun hNe => hNe rfl

omit [DecidableEq P] in
theorem Carries.idle (h : Carries l d Z ws t) (hPins : Pins t) (hInv : t.m.Inv) (hEnd : t.owner = none) : t.Idle where
  inv := hInv
  owner := hEnd
  readers q := hPins.readers q (by rw [hEnd]; exact (Option.some_ne_none _).symm)
  empty := (h.rest hEnd).2
  clean b := by
    -- a dirty buffer would be logged, and nothing is
    cases hd : (t.m.buf b).dirty with
    | false => rfl
    | true =>
      obtain ⟨i, -, hn, -⟩ | ⟨q, hq, -⟩ := hPins.dirty b hd
      · rw [(h.rest hEnd).2] at hn
        exact absurd hn (Nat.not_lt_zero i)
      · exact absurd (hEnd.symm.trans hq).symm (Option.some_ne_none _)

/-- From a state without a transaction and without dirty buffers, in any interleaving of
transactions with processes that read: when no transaction is open any more, the disk outside of
the log is what the calls of `log_write` make of it, the header on it counts no block, nothing is
logged in memory, and no buffer is dirty. -/
theorem commit_installs {xs : List (P × Op)} {t' : Trans P} (hIdle : t.Idle) (hRun : execute step t xs = some t')
    (hEnd : t'.owner = none) (hFound : ∀ q, t'.m.pc q ≠ .panic .bgetNoBuffers)
    (hHome : ∀ w ∈ logged t xs, ¬t.m.log.Holds w.1) :
    (∀ x, ¬t.m.log.Holds x → t'.m.disk x = Writes.apply (logged t xs) t.m.disk x) ∧
      (getWord (t.m.disk t.m.log.start) 0 = 0 ∨ logged t xs ≠ [] → getWord (t'.m.disk t.m.log.start) 0 = 0) ∧
      t'.m.log.n = 0 ∧ (∀ b, (t'.m.buf b).dirty = false) ∧ t'.Idle := by
  have hPins := hIdle.pins fun q hq => hFound q (panic_stays_run hRun hq)
  obtain ⟨h, hPins', hInv'⟩ := hIdle.carries.run hPins hIdle.inv hRun hFound hHome
  have hIdle' := h.idle hPins' hInv' hEnd
  obtain ⟨hRest, hZero⟩ := h.rest hEnd
  rw [List.nil_append] at hRest
  refine ⟨fun x hx => ?_, fun hSome => ?_, hZero, hIdle'.clean, hIdle'⟩
  · rw [← hIdle'.given]
    refine hRest.home x ?_
    rwa [Log.Holds, h.start, h.size]
  · have hErased := hRest.header hZero hSome
    rwa [Erased, hIdle'.given, h.start] at hErased

theorem commit_installs_smallTrans :
    ∃ t' : Trans (Fin 4), execute step (boot (fun _ => Fs.zeroBlock) 1024 ⟨1024, 985, 200, 10⟩) smallTrans = some t' ∧
      t'.m.disk 40 0 = 1 ∧ getWord (t'.m.disk 1014) 0 = 0 ∧ ∀ b, (t'.m.buf b).dirty = false := by
  have hRun : ((execute step (boot (fun _ => Fs.zeroBlock) 1024 ⟨1024, 985, 200, 10⟩ : Trans (Fin 4)) smallTrans).any
      fun t => t.owner.isNone && (List.finRange 4).all fun q => !Pc.foundNone (t.m.pc q)) = true := by
    decide +kernel
  obtain ⟨t', ht, hEnd⟩ := (Option.any_eq_true _ _).mp hRun
  simp only [Bool.and_eq_true, Option.isNone_iff_eq_none, List.all_eq_true, Bool.not_eq_true'] at hEnd
  have hFound (q : Fin 4) : t'.m.pc q ≠ .panic .bgetNoBuffers := fun hq => by
    have := hEnd.2 q (List.mem_finRange q)
    rw [(Pc.foundNone_iff _).mpr hq] at this
    cases this
  obtain ⟨hDisk, hHeader, -, hClean, -⟩ := commit_installs (Idle.boot (fun _ => Fs.zeroBlock) 1024 ⟨1024, 985, 200, 10⟩)
    ht hEnd.1 hFound (by simp only [Log.Holds]; decide +kernel)
  refine ⟨t', ht, ?_, ?_, hClean⟩
  · rw [hDisk 40 (by simp only [Log.Holds]; decide +kernel)]
    decide +kernel
  · exact hHeader (.inl (by decide +kernel))

end Trans

end Xv6Rpi.Bio
