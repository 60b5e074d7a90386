import I370Linux.SwapAccount

/-! # Swap slots over whole runs

What `sys_swapon` sets up is well formed (`Setup.area`), and entering it keeps the list of areas
chained.  `Ledger` records beside the areas how often each slot was taken and freed; the two
differ by the count of the slot as long as that never reached `SWAP_MAP_MAX`. -/

namespace I370Linux.SwapMap

open PageTable Runs Links Function
open PageFault (swpType swpOffset swpEntry swpEntry_spec)

/-! ### The headers -/

/-- What the loop over the bits of an old header knows after the bits below `n`. -/
structure BitsSeen (bits : ℕ → Bool) (n : ℕ) (r : Setup) : Prop where
  max_eq : r.max = r.highestBit + 1
  max_le : r.max ≤ n
  low_le : r.lowestBit ≤ r.highestBit
  none_yet : r.lowestBit = 0 → ∀ o, 0 < o → o < n → bits o = false
  within : ∀ o, 0 < o → o < n → bits o = true → r.lowestBit ≤ o ∧ o ≤ r.highestBit
  count : r.nrGoodPages = ∑ o ∈ Finset.range n, if 0 < o ∧ bits o = true then 1 else 0

variable {bits : ℕ → Bool} {n : ℕ} {r : Setup} {header : Header} {s s' : Swap} {p : SwapInfo}
  {swapFlags : BitVec 32} {c : Call}

theorem BitsSeen.turn (hn : 0 < n) (h : BitsSeen bits n r) : BitsSeen bits (n + 1) (bitTurn bits r n) := by
  obtain ⟨hmaxeq, hmax, hlow, hnone, hin, hcount⟩ := h
  have hsum := Finset.sum_range_succ (fun o => if 0 < o ∧ bits o = true then (1 : ℤ) else 0) n
  unfold bitTurn
  by_cases hbit : bits n = true
  · rw [if_pos hbit]
    refine ⟨rfl, le_rfl, ?_, ?_, ?_, ?_⟩
    · simp only
      split_ifs <;> omega
    · intro hzero
      simp only at hzero
      split_ifs at hzero <;> omega
    · intro o hpos hlt hset
      simp only
      have hle : o ≤ n := by omega
      refine ⟨?_, hle⟩
      by_cases hzero : r.lowestBit = 0
      · rw [if_pos hzero]
        by_contra hbelow
        rw [hnone hzero o hpos (by omega)] at hset
        exact Bool.false_ne_true hset
      · rw [if_neg hzero]
        obtain hlt' | rfl := Nat.lt_or_eq_of_le hle
        · exact (hin o hpos hlt' hset).1
        · omega
    · simp only
      rw [hsum, hcount, if_pos ⟨hn, hbit⟩]
  · rw [if_neg hbit]
    have hne : ∀ o, o < n + 1 → bits o = true → o < n := by
      intro o hlt hset
      obtain hlt' | rfl := Nat.lt_succ_iff_lt_or_eq.mp hlt
      · exact hlt'
      · exact absurd hset hbit
    refine ⟨hmaxeq, Nat.le_succ_of_le hmax, hlow, ?_, ?_, ?_⟩
    · intro hzero o hpos hlt
      by_contra hset
      rw [Bool.not_eq_false] at hset
      rw [hnone hzero o hpos (hne o hlt hset)] at hset
      exact Bool.false_ne_true hset
    · exact fun o hpos hlt hset => hin o hpos (hne o hlt hset) hset
    · rw [hsum, hcount, if_neg fun h => hbit h.2, add_zero]

theorem bitsSeen (bits : ℕ → Bool) : ∀ n, BitsSeen bits (n + 1) (bitLoop bits n)
  | 0 => by
    refine ⟨rfl, le_rfl, le_rfl, ?_, ?_, ?_⟩
    · intro _ o hpos hlt
      omega
    · intro o hpos hlt
      omega
    · rfl
  | n + 1 => by
    rw [bitLoop, List.range'_1_concat, List.foldl_append, Nat.add_comm 1 n]
    exact (bitsSeen bits n).turn (Nat.succ_pos n)

theorem area_header (r : Setup) (prio : ℤ) (clusterNext : ℕ) :
    (r.area prio clusterNext).swapMap 0 = SWAP_MAP_BAD := by
  simp only [Setup.area, update_self]

theorem header_le (r : Setup) (prio : ℤ) (clusterNext : ℕ) :
    SWAP_MAP_MAX ≤ (r.area prio clusterNext).swapMap 0 := by
  rw [area_header]
  decide

theorem withBits_free {prio : ℤ} {clusterNext o : ℕ} :
    ((r.withBits bits).area prio clusterNext).swapMap o = 0 ↔ 0 < o ∧ bits o = true := by
  simp only [Setup.area, Setup.withBits]
  obtain rfl | hzero := eq_or_ne o 0
  · simp
  · rw [update_of_ne hzero]
    cases bits o <;> simp [Nat.pos_of_ne_zero hzero]

theorem BitsSeen.area (h : BitsSeen bits n r) (hn : n < 2 ^ 20) (prio : ℤ) (clusterNext : ℕ) :
    Area ((r.withBits bits).area prio clusterNext) := by
  have hmaxeq := h.max_eq
  refine ⟨rfl, header_le .., ?_, h.max_le.trans_lt hn, ?_⟩
  · change r.highestBit < r.max
    omega
  · intro o hlt hfree
    obtain ⟨hpos, hset⟩ := withBits_free.mp hfree
    exact h.within o hpos (lt_of_lt_of_le hlt h.max_le) hset

theorem Header.area (h : header.setup = some r) (hne : r.nrGoodPages ≠ 0)
    (prio : ℤ) (clusterNext : ℕ) : Area (r.area prio clusterNext) := by
  cases header with
  | version1 bits =>
    cases h
    exact (bitsSeen bits _).area (by decide) prio clusterNext
  | version2 lastPage badpages =>
    simp only [setup] at h
    split_ifs at h with hlen hlast hbad
    cases h
    have hpos : 0 < lastPage := by
      -- with no page at all there is no bad one, and the file is refused as empty
      by_contra hzero
      obtain rfl : lastPage = 0 := by omega
      cases badpages with
      | nil => exact hne rfl
      | cons page rest => simp at hbad
    refine ⟨rfl, header_le .., ?_, ?_, ?_⟩
    · simp only [Setup.area]
      omega
    · simp only [Setup.area]
      omega
    · intro o hlt hfree
      have hzero : o ≠ 0 := by
        rintro rfl
        cases hfree
      simp only [Setup.area] at hlt ⊢
      omega

/-- The condition on a header: of the bad pages of a new one exactly one is listed a second time, which makes up for slot 0.
-/
def Header.exact : Header → Bool
  | version1 _ => true
  | version2 _ badpages => badpages.length = badpages.dedup.length + 1

theorem BitsSeen.freeSlots (h : BitsSeen bits n r) (prio : ℤ) (clusterNext : ℕ) :
    ((r.withBits bits).area prio clusterNext).freeSlots = (r.withBits bits).nrGoodPages := by
  change _ = r.nrGoodPages
  rw [h.count, SwapInfo.freeSlots]
  simp only [withBits_free]
  refine Finset.sum_subset (Finset.range_mono h.max_le) fun o hlt hmax => if_neg fun ho => hmax ?_
  have hmaxeq := h.max_eq
  have := (h.within o ho.1 (Finset.mem_range.mp hlt) ho.2).2
  rw [Finset.mem_range]
  change o < r.max
  omega

theorem foldl_bad (badpages : List ℕ) (map : ℕ → ℕ) (o : ℕ) :
    badpages.foldl (fun map page => update map page SWAP_MAP_BAD) map o =
      if o ∈ badpages then SWAP_MAP_BAD else map o := by
  induction badpages generalizing map with
  | nil => rfl
  | cons page l ih =>
    rw [List.foldl_cons, ih, update_apply]
    by_cases hl : o ∈ l <;> by_cases hp : o = page <;> simp [hl, hp]

theorem Header.freeSlots (h : header.setup = some r) (hne : r.nrGoodPages ≠ 0) (hexact : header.exact = true)
    (prio : ℤ) (clusterNext : ℕ) : (r.area prio clusterNext).freeSlots = r.nrGoodPages := by
  cases header with
  | version1 bits =>
    cases h
    exact (bitsSeen bits _).freeSlots prio clusterNext
  | version2 lastPage badpages =>
    simp only [setup] at h
    split_ifs at h with hlen hlast hbad
    cases h
    rw [Header.exact, decide_eq_true_eq] at hexact
    have hpages : ∀ page ∈ badpages, page ≠ 0 ∧ page < lastPage := by
      intro page hpage
      simp only [List.any_eq_true, decide_eq_true_eq, not_exists, not_and] at hbad
      have := hbad page hpage
      omega
    -- the slots of the bad pages and slot 0 are not free
    have hfree : ∀ o, update (badpages.foldl (fun map page => update map page SWAP_MAP_BAD) fun _ => 0) 0 SWAP_MAP_BAD o
        = 0 ↔ o ∉ insert 0 badpages.toFinset := by
      intro o
      rw [update_apply, foldl_bad, Finset.mem_insert, List.mem_toFinset]
      by_cases h0 : o = 0 <;> by_cases hb : o ∈ badpages <;> simp [h0, hb]
    have hsub : insert 0 badpages.toFinset ⊆ Finset.range lastPage := by
      intro o ho
      rw [Finset.mem_insert, List.mem_toFinset] at ho
      rw [Finset.mem_range]
      obtain rfl | ho := ho
      · cases badpages with
        | nil => exact absurd hexact (by simp)
        | cons page l => exact Nat.zero_lt_of_lt (hpages page List.mem_cons_self).2
      · exact (hpages o ho).2
    have hcard : (insert 0 badpages.toFinset).card = badpages.length := by
      rw [Finset.card_insert_of_notMem, List.card_toFinset, hexact]
      rw [List.mem_toFinset]
      exact fun h0 => (hpages 0 h0).1 rfl
    have hle := Finset.card_le_card hsub
    rw [hcard, Finset.card_range] at hle
    rw [SwapInfo.freeSlots]
    simp only [Setup.area, hfree]
    rw [Finset.sum_boole, ← Finset.sdiff_eq_filter, Finset.card_sdiff_of_subset hsub, hcard, Finset.card_range,
      Nat.cast_sub hle]

/-! ### Entering an area -/

theorem insertPoint_spec {s : Swap} {prio : ℤ} : ∀ (l : List ℕ) (fuel : ℕ) (prev i : Option ℕ),
    Linked (fun t => (s.swapInfo t).next) i l → l.length ≤ fuel →
    ∃ l₁ l₂, l = l₁ ++ l₂ ∧ (insertPoint s prio fuel prev i).2 = l₂.head? ∧
      (insertPoint s prio fuel prev i).1 = l₁.getLast?.or prev
  | [], fuel, prev, i, h, _ => by
    subst h
    refine ⟨[], [], rfl, ?_⟩
    cases fuel <;> exact ⟨rfl, rfl⟩
  | a :: l, 0, prev, i, h, hlen => absurd hlen (Nat.not_succ_le_zero _)
  | a :: l, fuel + 1, prev, i, h, hlen => by
    obtain ⟨rfl, hrest⟩ := h
    unfold insertPoint
    by_cases hprio : (s.swapInfo a).prio ≤ prio
    · rw [if_pos hprio]
      exact ⟨[], a :: l, rfl, rfl, rfl⟩
    rw [if_neg hprio]
    obtain ⟨l₁, l₂, hl, h₂, h₁⟩ := insertPoint_spec l fuel (some a) _ hrest (Nat.le_of_succ_le_succ hlen)
    refine ⟨a :: l₁, l₂, by rw [hl, List.cons_append], h₂, h₁.trans ?_⟩
    rw [List.getLast?_cons]
    cases l₁.getLast? <;> rfl

theorem next_update (f : ℕ → SwapInfo) (type : ℕ) (p : SwapInfo) :
    (fun t => (update f type p t).next) = update (fun t => (f t).next) type p.next :=
  Function.comp_update SwapInfo.next f type p

theorem Chained.insertArea (h : Chained s) (hs' : s' = insertArea s s.nrSwapfiles p) :
    Chained { s' with nrSwapfiles := s.nrSwapfiles + 1 } ∧
      s' = { s with swapInfo := s'.swapInfo, head := s'.head, next := s'.next } ∧
      (∃ i, s'.swapInfo s.nrSwapfiles = { p with next := i }) ∧
      ∀ t < s.nrSwapfiles, ∃ i, s'.swapInfo t = { s.swapInfo t with next := i } := by
  obtain ⟨l, hl, hmem⟩ := h.list
  have hnew : s.nrSwapfiles ∉ l := fun hin => lt_irrefl _ ((hmem _).mp hin)
  have hlen : l.length ≤ s.nrSwapfiles := by
    have hsub : l ⊆ List.range s.nrSwapfiles := fun t ht => List.mem_range.mpr ((hmem t).mp ht)
    simpa using (hl.nodup.subperm hsub).length_le
  obtain ⟨l₁, l₂, rfl, h₂, h₁⟩ := @insertPoint_spec s p.prio l s.nrSwapfiles none s.head hl hlen
  unfold SwapMap.insertArea at hs'
  generalize insertPoint s p.prio s.nrSwapfiles none s.head = r at h₁ h₂ hs'
  obtain ⟨prev, i⟩ := r
  simp only at h₁ h₂
  cases l₁ using List.reverseRecOn with
  | nil =>
    -- before every area: the new one is the head
    obtain rfl : prev = none := h₁
    have hi : i = s.head := h₂.trans hl.head?.symm
    simp only [Swap.setInfo] at hs'
    subst hs'
    refine ⟨⟨⟨s.nrSwapfiles :: l₂, ?_, fun t => ?_⟩, .inr ⟨s.nrSwapfiles, Nat.lt_succ_self _, rfl⟩⟩,
      rfl, ⟨i, update_self ..⟩, fun t ht => ⟨(s.swapInfo t).next, ?_⟩⟩
    · simp only [next_update]
      rw [hi]
      exact hl.push hnew
    · simp only [List.mem_cons]
      rw [show t < s.nrSwapfiles + 1 ↔ t = s.nrSwapfiles ∨ t < s.nrSwapfiles by omega, ← hmem t,
        List.nil_append]
    · exact update_of_ne (Nat.ne_of_lt ht) ..
  | append_singleton l₀ a _ =>
    have hprev : prev = some a := by
      rw [h₁, List.getLast?_concat]
      rfl
    subst hprev
    have hchain : l₀ ++ [a] ++ l₂ = l₀ ++ a :: l₂ := by
      rw [List.append_assoc, List.singleton_append]
    rw [hchain] at hl hnew
    have hi : i = (s.swapInfo a).next := h₂.trans hl.of_append.2.head?.symm
    have ha : a < s.nrSwapfiles := (hmem a).mp (by simp)
    simp only [Swap.setInfo] at hs'
    subst hs'
    refine ⟨⟨⟨l₀ ++ a :: s.nrSwapfiles :: l₂, ?_, fun t => ?_⟩, .inr ?_⟩, rfl, ⟨i, ?_⟩, fun t ht => ?_⟩
    · simp only [next_update]
      rw [hi]
      exact hl.insert hnew
    · rw [show t < s.nrSwapfiles + 1 ↔ t = s.nrSwapfiles ∨ t < s.nrSwapfiles by omega, ← hmem t]
      simp only [List.mem_append, List.mem_cons]
      tauto
    · obtain ⟨hzero, -⟩ | ⟨t, ht, hnext⟩ := h.cursor
      · omega
      · exact ⟨t, Nat.lt_succ_of_lt ht, hnext⟩
    · simp only
      rw [update_of_ne (Nat.ne_of_gt ha), update_self]
    · obtain rfl | hta := eq_or_ne t a
      · exact ⟨_, update_self ..⟩
      · refine ⟨(s.swapInfo t).next, ?_⟩
        simp only
        rw [update_of_ne hta, update_of_ne (Nat.ne_of_lt ht)]

theorem Accounts.unusedType (h : Accounts s) : unusedType s = s.nrSwapfiles := by
  unfold SwapMap.unusedType
  rw [List.find?_eq_none.mpr]
  · rfl
  · intro t ht
    rw [List.mem_range] at ht
    rw [(h.areas t ht).flags]
    decide

theorem Area.setNext (h : Area p) (i : Option ℕ) : Area { p with next := i } :=
  { h with }

/-- A successful `sys_swapon`: the area of the header becomes the next one, and of the others only
links change. -/
theorem Accounts.sysSwapon_spec (h : Accounts s) (hs' : SwapMap.sysSwapon s swapFlags header = some s') :
    ∃ r prio clusterNext, header.setup = some r ∧ r.nrGoodPages ≠ 0 ∧ s.nrSwapfiles < maxSwapfiles ∧
      Chained s' ∧ s'.nrSwapfiles = s.nrSwapfiles + 1 ∧
      s'.nrSwapPages = s.nrSwapPages + r.nrGoodPages ∧
      (∃ i, s'.swapInfo s.nrSwapfiles = { r.area prio clusterNext with next := i }) ∧
      ∀ t < s.nrSwapfiles, ∃ i, s'.swapInfo t = { s.swapInfo t with next := i } := by
  unfold SwapMap.sysSwapon at hs'
  rw [h.unusedType] at hs'
  cases hset : header.setup with
  | none =>
    simp only [hset] at hs'
    split_ifs at hs'
  | some r =>
    simp only [hset] at hs'
    by_cases hfew : maxSwapfiles ≤ s.nrSwapfiles
    · rw [if_pos hfew] at hs'
      cases hs'
    by_cases hgood : r.nrGoodPages = 0
    · rw [if_neg hfew, if_pos hgood] at hs'
      cases hs'
    rw [if_neg hfew, if_neg hgood] at hs'
    generalize hprio : (if swapFlags &&& 0x8000 ≠ 0 then _ else _ : ℤ) = prio at hs'
    obtain ⟨hchain, heq, hnew, hold⟩ := h.chained.insertArea
      (p := r.area prio (s.swapInfo s.nrSwapfiles).clusterNext) rfl
    generalize SwapMap.insertArea s s.nrSwapfiles
      (r.area prio (s.swapInfo s.nrSwapfiles).clusterNext) = s₁ at hs' hchain heq hnew hold
    have hnr : s₁.nrSwapfiles = s.nrSwapfiles := by rw [heq]
    have hpages : s₁.nrSwapPages = s.nrSwapPages := by rw [heq]
    rw [hnr, if_pos le_rfl, hpages, Option.some.injEq] at hs'
    subst hs'
    exact ⟨r, prio, _, rfl, hgood, Nat.lt_of_not_le hfew, ⟨hchain.list, hchain.cursor⟩, rfl, rfl, hnew, hold⟩

theorem Accounts.sysSwapon (h : Accounts s) (hexact : header.exact = true)
    (hs' : SwapMap.sysSwapon s swapFlags header = some s') : Accounts s' := by
  obtain ⟨r, prio, clusterNext, hset, hgood, hfew, hchain, hnr, hpages, ⟨i, hi⟩, hold⟩ := h.sysSwapon_spec hs'
  refine ⟨fun t ht => ?_, hchain, ?_, ?_⟩
  · rw [hnr] at ht
    obtain hlt | rfl := Nat.lt_succ_iff_lt_or_eq.mp ht
    · obtain ⟨j, hj⟩ := hold t hlt
      rw [hj]
      exact (h.areas t hlt).setNext j
    · rw [hi]
      exact (Header.area hset hgood _ _).setNext i
  · rw [hnr]
    exact Nat.succ_le_of_lt hfew
  · rw [hnr, hpages, Finset.sum_range_succ, hi, h.count, ← Header.freeSlots hset hgood hexact prio clusterNext]
    congr 1
    refine Finset.sum_congr rfl fun t ht => ?_
    obtain ⟨j, hj⟩ := hold t (Finset.mem_range.mp ht)
    rw [hj]
    rfl

/-! ### Runs -/

/-- The condition on a call, on the header and on the areas before. -/
def sound (s : Swap) : Call → Bool
  | .swapon _ header => header.exact
  | .getSwapPage => (List.range s.nrSwapfiles).all fun t => !(s.swapInfo t).passes
  | _ => true

theorem Accounts.step (h : Accounts s) (c : Call) (hsound : sound s c = true)
    (hstep : step s c = some s') : Accounts s' := by
  cases c with
  | swapon swapFlags header => exact h.sysSwapon hsound hstep
  | getSwapPage =>
    obtain ⟨r, hr, ho⟩ := h.getSwapPage
    simp only [SwapMap.step, hr, Option.map_some, Option.some.injEq] at hstep
    subst hstep
    apply h.outcome ho
    simpa [sound] using hsound
  | swapDuplicate entry =>
    cases hstep
    exact h.swapDuplicate entry
  | swapFree entry =>
    cases hstep
    exact h.swapFree entry
  | setLock type offset locked =>
    cases hstep
    exact h.setLock type offset locked

theorem Accounts.empty : Accounts Swap.empty := by
  refine ⟨?_, ⟨⟨[], rfl, ?_⟩, .inl ⟨rfl, rfl⟩⟩, by decide, rfl⟩
  · intro t ht
    exact absurd ht (Nat.not_lt_zero t)
  · intro t
    exact ⟨fun h => absurd h List.not_mem_nil, fun h => absurd h (Nat.not_lt_zero t)⟩

def Call.takes (s : Swap) : Call → Option (ℕ × ℕ)
  | .getSwapPage => (SwapMap.getSwapPage s).bind fun r => if r.1 = 0 then none else some (slot r.1)
  | .swapDuplicate entry => if (SwapMap.swapDuplicate s entry).1 = 1 then some (slot entry) else none
  | _ => none

/-- The slot from which a call takes a reference; a call on a slot without one is an error. -/
def Call.frees (s : Swap) : Call → Option (ℕ × ℕ)
  | .swapFree entry =>
    if valid s entry && (s.swapInfo (slot entry).1).swapMap (slot entry).2 ≠ 0 then some (slot entry)
    else none
  | _ => none

open Call (takes frees)

def Swap.count (s : Swap) (k : ℕ × ℕ) : ℕ := (s.swapInfo k.1).swapMap k.2

def Swap.Active (s : Swap) (k : ℕ × ℕ) : Prop :=
  k.1 < s.nrSwapfiles ∧ k.2 < (s.swapInfo k.1).max

/-- What a call does to the count of a slot that it takes or frees or does neither to. -/
inductive Moves : Bool → Bool → ℕ → ℕ → Prop
  | alloc : Moves true false 0 1
  | duplicate {n : ℕ} (h : n ≠ 0) :
      Moves true false n (if n < SWAP_MAP_MAX then n + 1 else SWAP_MAP_MAX)
  | free {n : ℕ} (h : n ≠ 0) : Moves false true n (if n < SWAP_MAP_MAX then n - 1 else n)
  | keep {n : ℕ} : Moves false false n n

theorem count_update {s s' : Swap} {type offset n : ℕ}
    (hself : (s'.swapInfo type).swapMap = update (s.swapInfo type).swapMap offset n)
    (hrest : ∀ t, t ≠ type → (s'.swapInfo t).swapMap = (s.swapInfo t).swapMap) (k : ℕ × ℕ) :
    s'.count k = if k = (type, offset) then n else s.count k := by
  obtain ⟨t, o⟩ := k
  unfold Swap.count
  obtain rfl | ht := eq_or_ne t type
  · rw [hself]
    obtain rfl | ho := eq_or_ne o offset
    · rw [if_pos rfl]
      exact update_self ..
    · rw [if_neg fun h => ho (congrArg Prod.snd h)]
      exact update_of_ne ho ..
  · rw [if_neg fun h => ht (congrArg Prod.fst h)]
    simp only [hrest t ht]

theorem count_setInfo {s s' : Swap} {type offset n : ℕ} {p : SwapInfo} (hs : s'.swapInfo = update s.swapInfo type p)
    (hp : p.swapMap = update (s.swapInfo type).swapMap offset n) (k : ℕ × ℕ) :
    s'.count k = if k = (type, offset) then n else s.count k :=
  count_update (by rw [hs, update_self, hp]) (fun t ht => by rw [hs, update_of_ne ht]) k

theorem Accounts.moves_getSwapPage (h : Accounts s)
    (hstep : SwapMap.step s .getSwapPage = some s') (k : ℕ × ℕ) :
    Moves (takes s .getSwapPage = some k) (frees s .getSwapPage = some k)
      (s.count k) (s'.count k) := by
  obtain ⟨r, hr, ho⟩ := h.getSwapPage
  simp only [SwapMap.step, hr, Option.map_some, Option.some.injEq] at hstep
  subst hstep
  cases ho with
  | @took type offset s' ht htook hrest heq hcursor =>
    obtain ⟨hslot, hne⟩ := h.slot_of_took ht htook
    have hcount := @count_update s s' type offset 1
      (by obtain ⟨lowest, nr, hsi, -⟩ := htook.eq; rw [hsi]; rfl)
      (fun t htt => by rw [hrest t htt]) k
    simp only [takes, hr, Option.bind_some, if_neg hne, hslot, frees, reduceCtorEq, decide_false]
    rcases eq_or_ne k (type, offset) with rfl | hk
    · rw [hcount, if_pos rfl, decide_eq_true rfl,
        show s.count (type, offset) = 0 from free_of_usable htook.usable]
      exact Moves.alloc
    · rw [hcount, if_neg hk, decide_eq_false fun h => hk (Option.some.inj h).symm]
      exact Moves.keep
  | @full s' hkept heq hfull =>
    have hcount : s'.count k = s.count k := by
      unfold Swap.count
      rw [hkept k.1]
    simp only [takes, hr, Option.bind_some, if_true, frees, reduceCtorEq, decide_false, hcount]
    exact Moves.keep

theorem moves_swapDuplicate (s : Swap) (entry : Pte) (k : ℕ × ℕ) :
    Moves (takes s (.swapDuplicate entry) = some k) (frees s (.swapDuplicate entry) = some k)
      (s.count k) ((swapDuplicate s entry).2.count k) := by
  obtain ⟨type, offset, hslot⟩ : ∃ type offset, slot entry = (type, offset) := ⟨_, _, rfl⟩
  simp only [takes, frees, reduceCtorEq, decide_false]
  obtain heq | ⟨ht, ho, hmap, heq⟩ := swapDuplicate_spec s entry hslot rfl
  · simp only [heq, reduceCtorEq]
    exact Moves.keep
  rw [count_setInfo (congrArg (·.2.swapInfo) heq) rfl k]
  simp only [heq, if_true, hslot]
  rcases eq_or_ne k (type, offset) with rfl | hk
  · rw [if_pos rfl, decide_eq_true rfl]
    exact Moves.duplicate hmap
  · rw [if_neg hk, decide_eq_false fun h => hk (Option.some.inj h).symm]
    exact Moves.keep

theorem moves_swapFree (s : Swap) (entry : Pte) (k : ℕ × ℕ) :
    Moves (takes s (.swapFree entry) = some k) (frees s (.swapFree entry) = some k)
      (s.count k) ((swapFree s entry).count k) := by
  obtain ⟨type, offset, hslot⟩ : ∃ type offset, slot entry = (type, offset) := ⟨_, _, rfl⟩
  simp only [takes, frees, reduceCtorEq, decide_false]
  obtain ⟨hvalid, heq⟩ | ⟨hvalid, ht, ho, heq⟩ := swapFree_spec s entry hslot rfl
  · have hcount : (swapFree s entry).count k = s.count k := by
      obtain heq | heq := heq <;> rw [heq]
      rfl
    simp only [hvalid, Bool.false_and, Bool.false_eq_true, if_false, reduceCtorEq, decide_false, hcount]
    exact Moves.keep
  · rw [count_setInfo (congrArg (·.swapInfo) heq) rfl k]
    simp only [hvalid, Bool.true_and, hslot, decide_eq_true_eq]
    by_cases hzero : (s.swapInfo type).swapMap offset = 0
    · -- a slot without a reference: nothing is counted, and the count stays 0
      simp only [hzero, ne_eq, not_true_eq_false, if_false, reduceCtorEq, decide_false]
      rcases eq_or_ne k (type, offset) with rfl | hk
      · rw [if_pos rfl, show s.count (type, offset) = 0 from hzero]
        exact Moves.keep
      · rw [if_neg hk]
        exact Moves.keep
    · simp only [ne_eq, hzero, not_false_eq_true, if_true]
      rcases eq_or_ne k (type, offset) with rfl | hk
      · rw [if_pos rfl, decide_eq_true rfl]
        exact Moves.free hzero
      · rw [if_neg hk, decide_eq_false fun h => hk (Option.some.inj h).symm]
        exact Moves.keep

theorem Accounts.lt_of_takes (h : Accounts s) {k : ℕ × ℕ}
    (hk : c.takes s = some k ∨ c.frees s = some k) : k.1 < s.nrSwapfiles := by
  cases c with
  | swapon swapFlags header | setLock type offset locked => simp [takes, frees] at hk
  | getSwapPage =>
    obtain ⟨r, hr, ho⟩ := h.getSwapPage
    simp only [takes, hr, Option.bind_some, frees, reduceCtorEq, or_false] at hk
    split_ifs at hk with hzero
    cases hk
    cases ho with
    | took ht htook hrest heq hcursor =>
      rw [(h.slot_of_took ht htook).1]
      exact ht
    | full hkept heq hfull => exact absurd rfl hzero
  | swapDuplicate entry =>
    simp only [takes, frees, reduceCtorEq, or_false] at hk
    split_ifs at hk with hone
    cases hk
    obtain heq | ⟨ht, -⟩ := swapDuplicate_spec s entry rfl rfl
    · rw [heq] at hone
      exact absurd hone zero_ne_one
    · exact ht
  | swapFree entry =>
    simp only [takes, frees, reduceCtorEq, false_or] at hk
    split_ifs at hk with hvalid
    cases hk
    rw [Bool.and_eq_true] at hvalid
    obtain ⟨hinvalid, -⟩ | ⟨-, ht, -⟩ := swapFree_spec s entry rfl rfl
    · rw [hinvalid] at hvalid
      exact absurd hvalid.1 Bool.false_ne_true
    · exact ht

/-! ### The ledger -/

/-- The areas with the references that were added to each slot and taken from it, and whether its
count ever reached `SWAP_MAP_MAX`. -/
structure Ledger where
  swap : Swap
  taken : ℕ × ℕ → ℕ
  freed : ℕ × ℕ → ℕ
  capped : ℕ × ℕ → Bool

namespace Ledger

def empty : Ledger := ⟨Swap.empty, fun _ => 0, fun _ => 0, fun _ => false⟩

def step (L : Ledger) (c : Call) : Option Ledger :=
  (SwapMap.step L.swap c).map fun s =>
    { swap := s
      taken := fun k => L.taken k + if c.takes L.swap = some k then 1 else 0
      freed := fun k => L.freed k + if c.frees L.swap = some k then 1 else 0
      capped := fun k => L.capped k || (k.1 < s.nrSwapfiles && SWAP_MAP_MAX ≤ s.count k) }

/-- The books of one slot: its count is what was added and not taken away, until it reaches the
maximum and stays there. -/
def Recorded (L : Ledger) (k : ℕ × ℕ) : Prop :=
  if L.capped k = true then SWAP_MAP_MAX ≤ L.swap.count k
  else L.swap.count k < SWAP_MAP_MAX ∧ L.taken k = L.freed k + L.swap.count k

theorem recorded_move {cap : Bool} {taken freed n n' : ℕ} {t f : Bool} (hm : Moves t f n n')
    (h : if cap = true then SWAP_MAP_MAX ≤ n else n < SWAP_MAP_MAX ∧ taken = freed + n) :
    if (cap || decide (SWAP_MAP_MAX ≤ n')) = true then SWAP_MAP_MAX ≤ n'
    else n' < SWAP_MAP_MAX ∧ taken + (if t then 1 else 0) = freed + (if f then 1 else 0) + n' := by
  by_cases hn' : SWAP_MAP_MAX ≤ n'
  · rw [decide_eq_true hn', Bool.or_true, if_pos rfl]
    exact hn'
  rw [decide_eq_false hn', Bool.or_false]
  have hlt' := Nat.lt_of_not_le hn'
  cases cap with
  | true =>
    -- a count at the maximum does not come down
    rw [if_pos rfl] at h ⊢
    cases hm with
    | alloc => omega
    | duplicate hne => rw [if_neg (Nat.not_lt.mpr h)]
    | free hne =>
      rw [if_neg (Nat.not_lt.mpr h)]
      exact h
    | keep => exact h
  | false =>
    refine ⟨hlt', ?_⟩
    cases hm with
    | alloc | keep => simp [h.2]
    | duplicate hne | free hne =>
      rw [if_pos h.1]
      simp [h.2]
      omega

end Ledger

theorem Header.free_or_bad (h : header.setup = some r) (prio : ℤ)
    (clusterNext o : ℕ) : (r.area prio clusterNext).swapMap o = 0 ∨
      (r.area prio clusterNext).swapMap o = SWAP_MAP_BAD := by
  obtain rfl | hzero := eq_or_ne o 0
  · exact .inr (area_header r prio clusterNext)
  simp only [Setup.area, update_of_ne hzero]
  cases header with
  | version1 bits =>
    cases h
    simp only [Setup.withBits]
    split_ifs
    · exact .inl rfl
    · exact .inr rfl
  | version2 lastPage badpages =>
    simp only [setup] at h
    split_ifs at h
    cases h
    simp only [foldl_bad]
    split_ifs
    · exact .inr rfl
    · exact .inl rfl

/-- The calls other than `sys_swapon` move the count of each slot by the reference they take or
give, and leave the areas as many as they are. -/
theorem Accounts.moves (h : Accounts s)
    (hc : ∀ swapFlags header, c ≠ .swapon swapFlags header) (hstep : SwapMap.step s c = some s') :
    s'.nrSwapfiles = s.nrSwapfiles ∧
      ∀ k, Moves (c.takes s = some k) (c.frees s = some k) (s.count k) (s'.count k) := by
  cases c with
  | swapon swapFlags header => exact absurd rfl (hc swapFlags header)
  | getSwapPage =>
    refine ⟨?_, h.moves_getSwapPage hstep⟩
    obtain ⟨r, hr, ho⟩ := h.getSwapPage
    simp only [SwapMap.step, hr, Option.map_some, Option.some.injEq] at hstep
    subst hstep
    cases ho with
    | took ht htook hrest heq hcursor | full hkept heq hfull => rw [heq]
  | swapDuplicate entry =>
    cases hstep
    refine ⟨?_, moves_swapDuplicate s entry⟩
    obtain heq | ⟨-, -, -, heq⟩ := swapDuplicate_spec s entry rfl rfl <;> rw [heq]
    rfl
  | swapFree entry =>
    cases hstep
    refine ⟨?_, moves_swapFree s entry⟩
    obtain ⟨-, heq | heq⟩ | ⟨-, -, -, heq⟩ := swapFree_spec s entry rfl rfl <;> rw [heq]
    rfl
  | setLock type offset locked =>
    cases hstep
    refine ⟨rfl, fun k => ?_⟩
    have hcount : (SwapMap.setLock s type offset locked).count k = s.count k := by
      unfold Swap.count SwapMap.setLock Swap.setInfo
      by_cases hk : k.1 = type
      · rw [hk]
        simp only [update_self]
      · simp only [update_of_ne hk]
    simp only [takes, frees, reduceCtorEq, decide_false, hcount]
    exact Moves.keep

/-- The accounts of the areas with the books of every slot; nothing is booked on areas to come. -/
structure Ledger.Books (L : Ledger) : Prop where
  accounts : Accounts L.swap
  fresh : ∀ k : ℕ × ℕ, L.swap.nrSwapfiles ≤ k.1 →
    L.taken k = 0 ∧ L.freed k = 0 ∧ L.capped k = false
  slots : ∀ k : ℕ × ℕ, k.1 < L.swap.nrSwapfiles → L.Recorded k

theorem Ledger.Books.step {L L' : Ledger} (h : L.Books) (c : Call) (hsound : sound L.swap c = true)
    (hstep : L.step c = some L') : L'.Books := by
  obtain ⟨s', hs', rfl⟩ := Option.map_eq_some_iff.mp hstep
  have hacc := h.accounts.step c hsound hs'
  have hfresh : L.swap.nrSwapfiles ≤ s'.nrSwapfiles → ∀ k : ℕ × ℕ, s'.nrSwapfiles ≤ k.1 →
      (L.taken k + if c.takes L.swap = some k then 1 else 0) = 0 ∧
      (L.freed k + if c.frees L.swap = some k then 1 else 0) = 0 ∧
      (L.capped k || (k.1 < s'.nrSwapfiles && SWAP_MAP_MAX ≤ s'.count k)) = false := by
    intro hnr k hk
    obtain ⟨htaken, hfreed, hcapped⟩ := h.fresh k (hnr.trans hk)
    rw [if_neg fun ht => absurd (h.accounts.lt_of_takes (.inl ht)) (Nat.not_lt_of_le (hnr.trans hk)),
      if_neg fun hf => absurd (h.accounts.lt_of_takes (.inr hf)) (Nat.not_lt_of_le (hnr.trans hk)),
      hcapped, decide_eq_false (Nat.not_lt_of_le hk)]
    exact ⟨htaken, hfreed, rfl⟩
  by_cases hc : ∀ swapFlags header, c ≠ .swapon swapFlags header
  · obtain ⟨hnr, hmoves⟩ := h.accounts.moves hc hs'
    refine ⟨hacc, hfresh hnr.ge, fun k hk => ?_⟩
    simp only [hnr] at hk
    have hrec := Ledger.recorded_move (hmoves k) (h.slots k hk)
    simpa only [Ledger.Recorded, hnr, decide_eq_true hk, Bool.true_and, decide_eq_true_eq] using hrec
  · simp only [ne_eq, not_forall, not_not] at hc
    obtain ⟨swapFlags, header, rfl⟩ := hc
    obtain ⟨r, prio, clusterNext, hset, -, -, -, hnr, -, ⟨i, hi⟩, hold⟩ := h.accounts.sysSwapon_spec hs'
    refine ⟨hacc, hfresh (hnr ▸ Nat.le_succ _), fun k hk => ?_⟩
    simp only [hnr] at hk
    simp only [Ledger.Recorded, hnr, decide_eq_true hk, Bool.true_and, takes, frees, reduceCtorEq, if_false,
      add_zero]
    obtain hlt | hnew := Nat.lt_succ_iff_lt_or_eq.mp hk
    · have hcount : s'.count k = L.swap.count k := by
        obtain ⟨j, hj⟩ := hold k.1 hlt
        unfold Swap.count
        rw [hj]
      have hrec := Ledger.recorded_move Moves.keep (h.slots k hlt)
      simpa only [hcount, Bool.false_eq_true, if_false, add_zero] using hrec
    · obtain ⟨htaken, hfreed, hcapped⟩ := h.fresh k hnew.ge
      rw [htaken, hfreed, hcapped, Bool.false_or]
      have hcount : s'.count k = 0 ∨ s'.count k = SWAP_MAP_BAD := by
        unfold Swap.count
        rw [hnew, hi]
        exact Header.free_or_bad hset prio clusterNext k.2
      obtain hzero | hbad := hcount
      · rw [hzero]
        decide
      · rw [hbad]
        decide

theorem Ledger.Books.empty : Ledger.empty.Books :=
  ⟨Accounts.empty, fun _ _ => ⟨rfl, rfl, rfl⟩, fun k hk => absurd hk (Nat.not_lt_zero k.1)⟩

/-- **The accounting of swap slots.** In every state of a run whose calls are all sound, `nr_swap_pages` is the number of
free slots, each lies between the bounds of its area, `get_swap_page` returns 0 only where every free slot is locked and
otherwise a free slot, and a slot whose count never reached the maximum is free exactly when it was freed as often as taken.
-/
theorem swap_accounts {L : Ledger}
    (hr : ReachesBy Ledger.step (fun L c => sound L.swap c = true) Ledger.empty L) :
    L.swap.nrSwapPages = ∑ t ∈ Finset.range L.swap.nrSwapfiles, (L.swap.swapInfo t).freeSlots ∧
    (∀ k, L.swap.Active k → L.swap.count k = 0 →
      (L.swap.swapInfo k.1).lowestBit ≤ k.2 ∧ k.2 ≤ (L.swap.swapInfo k.1).highestBit) ∧
    (∃ r, getSwapPage L.swap = some r ∧
      (r.1 = 0 → ∀ k, L.swap.Active k → L.swap.count k = 0 →
        (L.swap.swapInfo k.1).swapLockmap k.2 = true) ∧
      (r.1 ≠ 0 → L.swap.Active (slot r.1) ∧ L.swap.count (slot r.1) = 0)) ∧
    ∀ k, L.swap.Active k → L.capped k = false → (L.swap.count k = 0 ↔ L.freed k = L.taken k) := by
  have h : L.Books := hr.invariant Ledger.Books.empty fun L c L' hL hc hs => hL.step c hc hs
  refine ⟨h.accounts.count, fun k hk hfree => ?_, ?_, fun k hk hcap => ?_⟩
  · exact (h.accounts.areas k.1 hk.1).within k.2 hk.2 hfree
  · obtain ⟨r, hget, ho⟩ := h.accounts.getSwapPage
    refine ⟨r, hget, ?_, ?_⟩
    · intro hzero k hk hfree
      cases ho with
      | took ht htook hrest heq hcursor =>
        exact absurd hzero (h.accounts.slot_of_took ht htook).2
      | full hkept heq hfull => exact hfull k.1 hk.1 k.2 hk.2 hfree
    · intro hne
      cases ho with
      | took ht htook hrest heq hcursor =>
        simp only [(h.accounts.slot_of_took ht htook).1]
        exact ⟨⟨ht, (h.accounts.areas _ ht).lt_max htook⟩, free_of_usable htook.usable⟩
      | full hkept heq hfull => exact absurd rfl hne
  · have hrec := h.slots k hk.1
    rw [Ledger.Recorded, hcap, if_neg Bool.false_ne_true] at hrec
    omega

/-- A slot allocated, duplicated and freed twice. -/
theorem swap_accounts_twice : ∃ L : Ledger,
    ReachesBy Ledger.step (fun L c => sound L.swap c = true) Ledger.empty L ∧
      L.taken (0, 1) = 2 ∧ L.swap.nrSwapPages = 2 ∧
      L.swap.nrSwapPages = ∑ t ∈ Finset.range L.swap.nrSwapfiles, (L.swap.swapInfo t).freeSlots :=
  (ReachesBy.exists_of_exec (P := fun L => L.taken (0, 1) = 2 ∧ L.swap.nrSwapPages = 2)
    [.swapon 0 (.version2 4 [3, 3]), .getSwapPage, .swapDuplicate (swpEntry 0 1), .swapFree (swpEntry 0 1),
      .swapFree (swpEntry 0 1)] (by decide +kernel)).imp
    fun _ ⟨hr, htaken, hpages⟩ => ⟨hr, htaken, hpages, (swap_accounts hr).1⟩

/-- A new header without bad pages counts slot 0 as free; and a slot that was locked while the next
one was given out stays below `lowest_bit` and is not found again. -/
theorem swap_miscounted :
    (∃ L : Ledger, Reaches Ledger.step Ledger.empty L ∧ L.swap.nrSwapPages = 2 ∧
      ∑ t ∈ Finset.range L.swap.nrSwapfiles, (L.swap.swapInfo t).freeSlots = 1) ∧
    ∃ L : Ledger, Reaches Ledger.step Ledger.empty L ∧ L.swap.Active (0, 1) ∧
      L.swap.count (0, 1) = 0 ∧ (L.swap.swapInfo 0).swapLockmap 1 = false ∧
      (L.swap.swapInfo 0).lowestBit = 2 ∧ (getSwapPage L.swap).map Prod.fst = some 0 := by
  constructor
  · exact Reaches.exists_of_exec [.swapon 0 (.version2 2 [])] (by decide +kernel)
  · unfold Swap.Active
    exact Reaches.exists_of_exec [.swapon 0 (.version2 4 [3, 3]), .setLock 0 1 true, .getSwapPage, .setLock 0 1 false]
      (by decide +kernel)

end I370Linux.SwapMap
