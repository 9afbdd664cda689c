import Xv6Rpi.Buddy.Lists

/-! # The free lists over whole runs

From the heap that `kmem_init2` builds, every allowed call succeeds and leaves every
list intact, as long as the indices it stores fit the 16-bit links. With at most
`0xFFFF` marks in every order they always do.
-/

namespace Xv6Rpi.Buddy

open DLinked

section Unending

theorem markBlk_sameLayout {k k' : Kmem} {o id : Nat} (h : markBlk k o id = .ok k') :
    SameLayout k k' := by
  simp only [markBlk] at h
  split at h
  · cases h
  split at h
  · obtain rfl := Except.ok.inj h
    exact (sameLayout_setMark ..).trans (sameLayout_linkMark ..)
  · obtain rfl := Except.ok.inj h
    exact sameLayout_setMark ..

theorem kfree_maxOrd_sameLayout {k k' : Kmem} {mem : Nat} (h : kfree k mem maxOrd = .ok k') :
    SameLayout k k' := by
  rw [kfree] at h
  split at h
  · cases h
  rw [_kfree] at h
  simp only [if_neg (Nat.lt_irrefl maxOrd)] at h
  split at h
  · cases h
  split at h
  · exact markBlk_sameLayout h
  · exact markBlk_sameLayout h

/-- The loop of `kmem_init2` compares a page address with the end of the region; past
the last page of the address space there is none to stop at. -/
theorem freeHeap_ne_ok {k k' : Kmem} {i fuel : Nat} (hStop : 2 ^ 32 - 2 ^ maxOrd < k.stop)
    (hi : i % 2 ^ maxOrd = 0) (hLt : i < 2 ^ 32) : freeHeap fuel k i ≠ .ok k' := by
  induction fuel generalizing k i with
  | zero =>
    intro h
    cases h
  | succ fuel ih =>
    rw [freeHeap, if_pos (by simp only [maxOrd] at *; omega)]
    split
    · intro h
      cases h
    · rename_i k₁ hk₁
      apply ih
      · rw [(kfree_maxOrd_sameLayout hk₁).stop]
        exact hStop
      · simp only [maxOrd, Nat.shiftLeft_eq] at *
        omega
      · exact Nat.mod_lt _ (by decide)

theorem Reach.region {vstart vend : Nat} {s : Heap} (hs : vstart < 2 ^ 32)
    (hWrap : vstart + numMarks vstart vend * (2 ^ nOrd - 1) * 8 + (2 ^ maxOrd - 1) < 2 ^ 32)
    (h : Reach vstart vend s) : Region vstart vend := by
  refine ⟨hs, ?_, hWrap⟩
  by_contra hStop
  obtain ⟨k₀, k, hk, _⟩ := h
  rw [kmemInit2_eq k₀ hWrap] at hk
  refine freeHeap_ne_ok ?_ ?_ ?_ hk
  · exact Nat.lt_of_not_le hStop
  · exact Nat.mul_mod_left _ _
  · simp only [heapStart, maxOrd] at *
    omega

end Unending

section Runs

variable {s : Heap} {n : Nat} {L : List (Nat × Nat)}

/-- The call stores no index of the smallest order that its links cannot hold. -/
def LinkSafe (s : Heap) : Call → Prop
  | .kmalloc order => order = minOrd → SplitFits s.kmem minOrd
  | .kfree mem order => order = minOrd →
      (s.kmem.getMark minOrd (mem2blkid s.kmem minOrd mem / 32)).bitmap = 0#32 →
      LinkFits s.kmem minOrd (mem2blkid s.kmem minOrd mem / 32)

theorem IsOrd.eq_or_lt {o : Nat} (h : IsOrd o) : o = minOrd ∨ minOrd < o :=
  (Nat.eq_or_lt_of_le h.1).imp_left Eq.symm

theorem exec_kmalloc {order : Nat} (h : HeapInv s n L) (hLs : Lists s.kmem n)
    (hSmall : ∀ o, IsOrd o → minOrd < o → nmarks n o ≤ nil) (ho : IsOrd order)
    (hSafe : nmarks n minOrd ≤ nil ∨ LinkSafe s (.kmalloc order)) :
    ∃ s', exec s (.kmalloc order) = .ok s' ∧ Lists s'.kmem n := by
  have hFit : nmarks n order ≤ nil ∨ SplitFits s.kmem order := by
    rcases ho.eq_or_lt with rfl | hlt
    · exact hSafe.imp_right fun h => h rfl
    · exact Or.inl (hSmall order ho hlt)
  obtain ⟨r, hr, hLs', _⟩ := hLs.kmallocUnlocked h.inv ho hFit
    (fun o' ho' hlt => hSmall o' ho' (ho.1.trans_lt hlt))
  refine ⟨⟨r.2, if r.1 = 0 then s.live else (r.1, order) :: s.live⟩, ?_, hLs'⟩
  rw [exec, kmalloc_eq ho, hr]
  rfl

theorem exec_kfree {mem order : Nat} (h : HeapInv s n L) (hLs : Lists s.kmem n)
    (hSmall : ∀ o, IsOrd o → minOrd < o → nmarks n o ≤ nil) (hLive : (mem, order) ∈ s.live)
    (hSafe : nmarks n minOrd ≤ nil ∨ LinkSafe s (.kfree mem order)) :
    ∃ s', exec s (.kfree mem order) = .ok s' ∧ Lists s'.kmem n := by
  rw [h.live] at hLive
  obtain ⟨⟨o, id⟩, hb, hEq⟩ := List.mem_map.mp hLive
  obtain ⟨rfl, rfl⟩ := Prod.mk.inj hEq
  have hInv := h.inv_erase hb
  have hIn := hInv.held
  have hOrd : IsOrd o := hIn.1
  have hFit : (s.kmem.getMark o (id / 32)).bitmap = 0#32 → LinkFits s.kmem o (id / 32) := by
    intro hZero
    obtain ⟨l, hl⟩ := hLs o hOrd
    have hLt := (hIn.hasBit hInv.layout).2
    rcases hOrd.eq_or_lt with hEq | hlt
    · rcases hSafe with hSafe | hSafe
      · exact hl.linkFits (hEq ▸ hSafe) hLt
      · have hId := mem2blkid_addr hInv.layout hIn
        have := hSafe hEq
        rw [← hEq, hId] at this
        exact this hZero
    · exact hl.linkFits (hSmall o hOrd hlt) hLt
  obtain ⟨k', hk', hLs', _⟩ := hLs.kfreeUnlocked hInv h.nodup.not_mem_erase hFit
    (fun o' ho' hlt => hSmall o' ho' (hOrd.1.trans_lt hlt))
  refine ⟨⟨k', s.live.erase (addr s.kmem (o, id), o)⟩, ?_, hLs'⟩
  rw [exec, kfree_eq hInv.layout rfl hIn, hk']
  rfl

theorem exec_lists (h : HeapInv s n L) (hLs : Lists s.kmem n)
    (hSmall : ∀ o, IsOrd o → minOrd < o → nmarks n o ≤ nil) (c : Call) (hAllowed : Allowed s c)
    (hSafe : nmarks n minOrd ≤ nil ∨ LinkSafe s c) :
    ∃ s', exec s c = .ok s' ∧ Lists s'.kmem n := by
  cases c with
  | kmalloc order => exact exec_kmalloc h hLs hSmall hAllowed hSafe
  | kfree mem order => exact exec_kfree h hLs hSmall hAllowed hSafe

theorem lists_emptyHeap (k : Kmem) {vstart vend : Nat} :
    Lists (emptyHeap k vstart vend) (numMarks vstart vend) := by
  intro o ho
  refine ⟨[], List.nodup_nil, ?_, ?_, ?_, Or.inr (Nat.zero_le 1)⟩
  · rw [Chain, emptyHeap_ord k ho]
    rfl
  · intro i
    constructor
    · intro hi
      cases hi
    · rintro ⟨hi, hbit⟩
      rw [emptyHeap_getMark k ho hi] at hbit
      exact absurd rfl hbit
  · intro i hi _
    rw [emptyHeap_getMark k ho hi]
    rfl

theorem nmarks_maxOrd_le (vstart vend : Nat) : nmarks (numMarks vstart vend) maxOrd ≤ nil := by
  have := numMarks_le vstart vend
  simp only [nmarks, nil, Nat.sub_self, Nat.pow_zero, Nat.mul_one]
  omega

theorem kmemInit2_lists (k₀ : Kmem) {vstart vend : Nat} (h : Region vstart vend) :
    ∃ k, kmemInit2 k₀ vstart vend = .ok k ∧ Lists k (numMarks vstart vend) := by
  obtain ⟨k, hk, _, _, _, _, hLs⟩ := kmemInit2_rule k₀ h
    (fun _ k => Lists k (numMarks vstart vend)) (lists_emptyHeap k₀) (by
      intro p k' hF hStart hStop hp hLs k'' hk''
      have hBit := (inHeap_of_lt_pages (k := k') (p := p) (by rwa [hStart, hStop])).hasBit hF.layout
      have hNot : ¬Avail k' maxOrd p := fun hA => Nat.lt_irrefl p ((hF.avail _ _ hBit).mp hA).2
      obtain ⟨l, hl⟩ := hLs maxOrd isOrd_maxOrd
      obtain ⟨k₂, hk₂, hOnly, l', hl'⟩ := hl.markBlk hF.layout hF.links hBit hNot
        (fun _ => hl.linkFits (nmarks_maxOrd_le vstart vend) hBit.2)
      obtain rfl : k₂ = k'' := Except.ok.inj (hk₂.symm.trans hk'')
      exact hOnly.lists hLs hl')
  exact ⟨k, hk, hLs⟩

/-- Runs whose steps are all allowed and meet a condition under which calls are safe. -/
theorem lists_run {vstart vend : Nat} (hR : Region vstart vend) (Safe : Heap → Call → Prop)
    (hSmall : ∀ o, IsOrd o → minOrd < o → nmarks (numMarks vstart vend) o ≤ nil)
    (hSafe : ∀ s c, Safe s c → nmarks (numMarks vstart vend) minOrd ≤ nil ∨ LinkSafe s c)
    {k₀ k : Kmem} (hk : kmemInit2 k₀ vstart vend = .ok k) {s : Heap}
    (hRun : Relation.ReflTransGen
      (fun s s' => ∃ c, Allowed s c ∧ Safe s c ∧ exec s c = .ok s') ⟨k, []⟩ s) :
    Lists s.kmem (numMarks vstart vend) ∧
      ∀ c, Allowed s c → Safe s c → ∃ s', exec s c = .ok s' := by
  obtain ⟨k', hk', hLs⟩ := kmemInit2_lists k₀ hR
  obtain rfl : k' = k := Except.ok.inj (hk'.symm.trans hk)
  obtain ⟨k'', hk'', _, _, hInv⟩ := kmemInit2_inv k₀ hR
  obtain rfl : k'' = k' := Except.ok.inj (hk''.symm.trans hk)
  have hBoth : Lists s.kmem (numMarks vstart vend) ∧ ∃ L, HeapInv s (numMarks vstart vend) L := by
    induction hRun with
    | refl => exact ⟨hLs, [], hInv⟩
    | tail _ hStep ih =>
      obtain ⟨hLs', L, hInv'⟩ := ih
      obtain ⟨c, hAllowed, hC, hExec⟩ := hStep
      obtain ⟨s', hs', hLs''⟩ := exec_lists hInv' hLs' hSmall c hAllowed (hSafe _ c hC)
      obtain rfl := Except.ok.inj (hs'.symm.trans hExec)
      exact ⟨hLs'', (hInv'.step ⟨c, hAllowed, hExec⟩).2⟩
  obtain ⟨hLs', L, hInv'⟩ := hBoth
  refine ⟨hLs', fun c hAllowed hC => ?_⟩
  obtain ⟨s', hs', _⟩ := exec_lists hInv' hLs' hSmall c hAllowed (hSafe s c hC)
  exact ⟨s', hs'⟩

/-- With at most `0xFFFF` marks in every order all lists are intact and no call panics. -/
theorem Reach.lists {vstart vend : Nat} {s : Heap} (hR : Region vstart vend)
    (hMarks : ∀ o, IsOrd o → nmarks (numMarks vstart vend) o ≤ nil) (h : Reach vstart vend s) :
    Lists s.kmem (numMarks vstart vend) ∧ ∀ c, Allowed s c → ∃ s', exec s c = .ok s' := by
  obtain ⟨k₀, k, hk, hRun⟩ := h
  have hRun' : Relation.ReflTransGen
      (fun s s' => ∃ c, Allowed s c ∧ True ∧ exec s c = .ok s') ⟨k, []⟩ s :=
    Relation.ReflTransGen.mono (fun _ _ ⟨c, h1, h2⟩ => ⟨c, h1, trivial, h2⟩) _ _ hRun
  have hAll := lists_run hR (fun _ _ => True) (fun o ho _ => hMarks o ho)
    (fun _ _ _ => Or.inl (hMarks minOrd ⟨le_rfl, by decide⟩)) hk hRun'
  exact ⟨hAll.1, fun c hc => hAll.2 c hc trivial⟩

end Runs

/-- With at most `0xFFFF` marks in every order, each order's links visit exactly its
marks with available blocks, and no call panics. -/
theorem free_lists_intact {vstart vend : Nat} (hs : vstart < 2 ^ 32)
    (hWrap : vstart + numMarks vstart vend * (2 ^ nOrd - 1) * 8 + (2 ^ maxOrd - 1) < 2 ^ 32)
    (hMarks : ∀ o, IsOrd o → nmarks (numMarks vstart vend) o ≤ 0xFFFF)
    {s : Heap} (hReach : Reach vstart vend s) :
    (∀ o, IsOrd o → ∃ l : List Nat, l.Nodup ∧
      (∀ i, i ∈ l ↔ i < nmarks (numMarks vstart vend) o ∧ (s.kmem.getMark o i).bitmap ≠ 0#32) ∧
      Linked nil (fun i => preLnk (s.kmem.getMark o i).lnks) (fun i => nextLnk (s.kmem.getMark o i).lnks)
        nil (s.kmem.ord o).head l ∧
      ∀ i < nmarks (numMarks vstart vend) o, (s.kmem.getMark o i).bitmap = 0#32 →
        (s.kmem.getMark o i).lnks = mkLnks nil nil) ∧
    ∀ c, Allowed s c → ∃ s', exec s c = .ok s' := by
  obtain ⟨hLists, hCalls⟩ := hReach.lists (hReach.region hs hWrap) hMarks
  refine ⟨fun o ho => ?_, hCalls⟩
  obtain ⟨l, hl⟩ := hLists o ho
  exact ⟨l, hl.nodup, hl.mem, hl.chain, hl.empty⟩

theorem free_lists_intact_two_blocks :
    ∃ s, Reach 0x10000 0x18000 s ∧ s.live = [(0x11040, 6), (0x11000, 6)] ∧
      ((∀ o, IsOrd o → ∃ l : List Nat, l.Nodup ∧
        (∀ i, i ∈ l ↔ i < nmarks (numMarks 0x10000 0x18000) o ∧ (s.kmem.getMark o i).bitmap ≠ 0#32) ∧
        Linked nil (fun i => preLnk (s.kmem.getMark o i).lnks) (fun i => nextLnk (s.kmem.getMark o i).lnks)
          nil (s.kmem.ord o).head l ∧
        ∀ i < nmarks (numMarks 0x10000 0x18000) o, (s.kmem.getMark o i).bitmap = 0#32 →
          (s.kmem.getMark o i).lnks = mkLnks nil nil) ∧
      ∀ c, Allowed s c → ∃ s', exec s c = .ok s') := by
  have hRun : liveAfter 0x10000 0x18000 [.kmalloc 6, .kmalloc 6] =
      some [(0x11040, 6), (0x11000, 6)] := by
    decide +kernel
  obtain ⟨s, hReach, hLive⟩ := reach_liveAfter hRun
  have hMarks : ∀ o, IsOrd o → nmarks (numMarks 0x10000 0x18000) o ≤ 0xFFFF := by
    intro o ho
    have hOne : numMarks 0x10000 0x18000 = 1 := by decide +kernel
    have hPow : 2 ^ (maxOrd - o) ≤ 2 ^ maxOrd := Nat.pow_le_pow_right (by decide) (Nat.sub_le _ _)
    simp only [nmarks, hOne, maxOrd] at *
    omega
  exact ⟨s, hReach, hLive, free_lists_intact (by decide) (by decide +kernel) hMarks hReach⟩

end Xv6Rpi.Buddy
