import I370Linux.Census
import I370Linux.SwapMap

/-! # The accounting of swap slots

`Area` says what holds of one swap area: the free slots lie between `lowest_bit` and `highest_bit`.
A scan takes a slot (`Took`) or finds the area exhausted, and the loop of `get_swap_page` over the
chained areas ends with one of the two (`Outcome`): its first pass ends with the areas of one
priority, and its second reaches all of them.  `Accounts` adds that `nr_swap_pages` counts the free
slots; every call keeps it, but for a scan in an area that `passes` a free slot: the loop from
`lowest_bit` on skips locked slots and then moves the bound behind them. -/

namespace I370Linux.SwapMap

open PageTable Runs Links Function List
open BitVec (ofNat)
open PageFault (swpType swpOffset swpEntry swpEntry_spec)

/-! ### The scan of one area -/

/-- The areas differ at most in the cursor of the cluster. -/
def Kept (si si' : SwapInfo) : Prop :=
  si' = { si with clusterNext := si'.clusterNext, clusterNr := si'.clusterNr }

/-- No slot between the bounds of the area is usable. -/
def SwapInfo.Exhausted (si : SwapInfo) : Prop :=
  ∀ offset, si.lowestBit ≤ offset → offset ≤ si.highestBit → si.usable offset = false

/-- The slot `offset` was taken: by the loop over the cluster, or by the loop from `lowest_bit` on,
which moves that bound to the slot. -/
structure Took (si : SwapInfo) (offset : ℕ) (si' : SwapInfo) : Prop where
  usable : si.usable offset = true
  le : offset ≤ si.highestBit
  eq : ∃ lowest nr, si' = { si with lowestBit := lowest, clusterNr := nr }.gotPage offset ∧
    (lowest = si.lowestBit ∨
      si.clusterSlot = none ∧ si.firstUsable si.lowestBit = some offset ∧ lowest = offset)

theorem Kept.refl (si : SwapInfo) : Kept si si := rfl

variable {p si : SwapInfo} {offset start type : ℕ}

theorem Kept.trans {si' si'' : SwapInfo} (h : Kept si si') (h' : Kept si' si'') : Kept si si'' := by
  unfold Kept at *
  rw [h', h]

theorem firstUsable_eq_some (h : si.firstUsable start = some offset) :
    si.usable offset = true ∧ start ≤ offset ∧ offset ≤ si.highestBit ∧
      ∀ o, start ≤ o → o < offset → si.usable o = false := by
  obtain ⟨husable, hmem, hbefore⟩ := List.find?_range'_eq_some.mp h
  rw [mem_range'_1] at hmem
  refine ⟨husable, hmem.1, by omega, fun o hlo hlt => ?_⟩
  simpa using hbefore o hlo hlt

theorem firstUsable_eq_none (h : si.firstUsable start = none) :
    ∀ o, start ≤ o → o ≤ si.highestBit → si.usable o = false := by
  intro o hlo hhi
  have := List.find?_range'_eq_none.mp h o hlo (by omega)
  simpa using this

theorem scanSwapMap_spec (si : SwapInfo) (nr : ℤ) :
    (∃ offset si', scanSwapMap si nr = (offset, si', nr - 1) ∧ Took si offset si') ∨
      ∃ si', scanSwapMap si nr = (0, si', nr) ∧ Kept si si' ∧ si.Exhausted := by
  unfold scanSwapMap
  cases hc : si.clusterSlot with
  | some offset =>
    have hfound : si.firstUsable si.clusterNext = some offset := by
      unfold SwapInfo.clusterSlot at hc
      split_ifs at hc
      exact hc
    obtain ⟨husable, -, hle, -⟩ := firstUsable_eq_some hfound
    exact .inl ⟨offset, _, rfl, husable, hle, si.lowestBit, si.clusterNr - 1, rfl, .inl rfl⟩
  | none =>
    have hsame : ∀ n m, SwapInfo.firstUsable { si with clusterNext := n, clusterNr := m } si.lowestBit =
      si.firstUsable si.lowestBit := fun _ _ => rfl
    dsimp only
    rw [hsame]
    cases hf : si.firstUsable si.lowestBit with
    | some offset =>
      obtain ⟨husable, -, hle, -⟩ := firstUsable_eq_some hf
      exact .inl ⟨offset, { si with lowestBit := offset, clusterNr := swapfileCluster }.gotPage
        offset, rfl, husable, hle, offset, swapfileCluster, rfl, .inr ⟨hc, hf, rfl⟩⟩
    | none => exact .inr ⟨_, rfl, rfl, firstUsable_eq_none hf⟩

/-! ### Areas -/

def SwapInfo.freeSlots (p : SwapInfo) : ℤ :=
  ∑ offset ∈ Finset.range p.max, if p.swapMap offset = 0 then 1 else 0

/-- The area is in use, slot 0 is not for pages, and the free slots lie between the bounds. -/
structure Area (p : SwapInfo) : Prop where
  flags : p.flags = SWP_WRITEOK
  header : SWAP_MAP_MAX ≤ p.swapMap 0
  top : p.highestBit < p.max
  bound : p.max < 2 ^ 20
  within : ∀ offset < p.max, p.swapMap offset = 0 →
    p.lowestBit ≤ offset ∧ offset ≤ p.highestBit

/-- The cluster has no usable slot, and between the bounds a free slot that is locked lies before a usable one: the loop from
`lowest_bit` on will pass it. -/
def SwapInfo.passes (si : SwapInfo) : Bool :=
  si.clusterSlot = none &&
    (List.range' si.lowestBit (si.highestBit + 1 - si.lowestBit)).any fun o =>
      si.swapMap o = 0 && si.swapLockmap o && (List.range' o (si.highestBit + 1 - o)).any si.usable

theorem free_of_usable (h : si.usable offset = true) : si.swapMap offset = 0 := by
  simp only [SwapInfo.usable, Bool.and_eq_true, decide_eq_true_eq] at h
  exact h.1

theorem passes_eq_false (h : si.passes = false) (hc : si.clusterSlot = none)
    (hf : si.firstUsable si.lowestBit = some offset) :
    ∀ o, si.lowestBit ≤ o → o < offset → si.swapMap o ≠ 0 := by
  intro o hlo hlt hzero
  obtain ⟨husable, -, hle, hbefore⟩ := firstUsable_eq_some hf
  have hlocked : si.swapLockmap o = true := by
    simpa [SwapInfo.usable, hzero] using hbefore o hlo hlt
  rw [SwapInfo.passes, decide_eq_true hc, Bool.true_and, any_eq_false] at h
  refine h o (mem_range'_1.mpr ⟨hlo, by omega⟩) ?_
  rw [hlocked, decide_eq_true hzero, Bool.and_true, Bool.true_and, any_eq_true]
  exact ⟨offset, mem_range'_1.mpr ⟨hlt.le, by omega⟩, husable⟩

theorem freeSlots_setCount (h : offset < p.max) (count : ℕ) :
    SwapInfo.freeSlots { p with swapMap := update p.swapMap offset count } =
      p.freeSlots - (if p.swapMap offset = 0 then 1 else 0) + (if count = 0 then 1 else 0) :=
  sum_update (fun n : ℕ => if n = 0 then (1 : ℤ) else 0) p.swapMap (Finset.mem_range.mpr h) count

namespace Area

variable {p' : SwapInfo}

section

variable (h : Area p)
include h

theorem kept (hk : Kept p p') : Area p' := by
  rw [hk]
  exact { h with }

theorem lt_max (ht : Took p offset p') : offset < p.max :=
  ht.le.trans_lt h.top

theorem pos_of_took (ht : Took p offset p') : offset ≠ 0 := by
  rintro rfl
  have hheader := h.header
  rw [free_of_usable ht.usable] at hheader
  cases hheader

/-- An area whose free slots lie between the bounds and are all locked or taken has no slot to
give. -/
theorem not_took_of_exhausted (he : p.Exhausted) : ¬ Took p offset p' := by
  intro ht
  obtain ⟨hlo, hhi⟩ := h.within offset (h.lt_max ht) (free_of_usable ht.usable)
  have husable := ht.usable
  rw [he offset hlo hhi] at husable
  exact Bool.false_ne_true husable

theorem locked (he : p.Exhausted) : ∀ offset < p.max, p.swapMap offset = 0 →
    p.swapLockmap offset = true := by
  intro offset hlt hfree
  obtain ⟨hlo, hhi⟩ := h.within offset hlt hfree
  simpa [SwapInfo.usable, hfree] using he offset hlo hhi

theorem took (ht : Took p offset p') (hp : p.passes = false) : Area p' := by
  have hpos := h.pos_of_took ht
  have htop := h.top
  have hbound := h.bound
  obtain ⟨lowest, nr, rfl, hlow⟩ := ht.eq
  refine ⟨h.flags, ?_, ?_, h.bound, ?_⟩
  · simp only [SwapInfo.gotPage]
    rw [update_of_ne (Ne.symm hpos)]
    exact h.header
  · simp only [SwapInfo.gotPage]
    split_ifs <;> omega
  · intro o ho hfree
    simp only [SwapInfo.gotPage] at ho hfree ⊢
    have hne : o ≠ offset := by
      rintro rfl
      rw [update_self] at hfree
      exact one_ne_zero hfree
    rw [update_of_ne hne] at hfree
    obtain ⟨hlo, hhi⟩ := h.within o ho hfree
    constructor
    · obtain rfl | ⟨hc, hf, rfl⟩ := hlow
      · exact hlo
      · by_contra hlt'
        exact passes_eq_false hp hc hf o hlo (by omega) hfree
    · split_ifs <;> omega

theorem widen (ho : offset < p.max) : Area (p.widen offset) ∧
    (p.widen offset).lowestBit ≤ offset ∧ offset ≤ (p.widen offset).highestBit := by
  have htop := h.top
  refine ⟨⟨h.flags, h.header, ?_, h.bound, ?_⟩, ?_, ?_⟩
  · simp only [SwapInfo.widen]
    split_ifs <;> omega
  · intro o hlt hfree
    obtain ⟨hlo, hhi⟩ := h.within o hlt hfree
    simp only [SwapInfo.widen]
    constructor <;> split_ifs <;> omega
  · simp only [SwapInfo.widen]
    split_ifs <;> omega
  · simp only [SwapInfo.widen]
    split_ifs <;> omega

theorem setCount {count : ℕ} (hzero : offset = 0 → SWAP_MAP_MAX ≤ count)
    (hin : count = 0 → p.lowestBit ≤ offset ∧ offset ≤ p.highestBit) :
    Area { p with swapMap := update p.swapMap offset count } := by
  refine ⟨h.flags, ?_, h.top, h.bound, ?_⟩
  · obtain rfl | h0 := eq_or_ne 0 offset
    · simpa using hzero rfl
    · simp only
      rw [update_of_ne h0]
      exact h.header
  · intro o hlt hfree
    simp only at hlt hfree ⊢
    obtain ⟨rfl, h0⟩ | ⟨-, h0⟩ := of_update hfree
    · exact hin h0
    · exact h.within o hlt h0

end

end Area

/-! ### The loop over the areas -/

/-- `swap_list` chains all areas, and its cursor stands at one of them. -/
structure Chained (s : Swap) : Prop where
  list : ∃ l, Linked (fun t => (s.swapInfo t).next) s.head l ∧ ∀ t, t ∈ l ↔ t < s.nrSwapfiles
  cursor : s.nrSwapfiles = 0 ∧ s.next = none ∨ ∃ t < s.nrSwapfiles, s.next = some t

/-- The loop has come from `s` to `s₁` and every area that it looked at was exhausted. -/
structure Tried (s s₁ : Swap) : Prop where
  eq : s₁ = { s with swapInfo := s₁.swapInfo }
  each : ∀ t, s₁.swapInfo t = s.swapInfo t ∨
    Kept (s.swapInfo t) (s₁.swapInfo t) ∧ (s.swapInfo t).Exhausted

/-- What `get_swap_page` can do: take a slot of one area, or find every free slot locked. -/
inductive Outcome (s : Swap) : Pte × Swap → Prop
  | took {type offset : ℕ} {s' : Swap} (ht : type < s.nrSwapfiles)
      (htook : Took (s.swapInfo type) offset (s'.swapInfo type))
      (hrest : ∀ t, t ≠ type → Kept (s.swapInfo t) (s'.swapInfo t))
      (heq : s' = { s with
        swapInfo := s'.swapInfo, next := s'.next, nrSwapPages := s.nrSwapPages - 1 })
      (hcursor : ∃ t < s.nrSwapfiles, s'.next = some t) :
      Outcome s (swpEntry (ofNat 32 type) (ofNat 32 offset), s')
  | full {s' : Swap} (hkept : ∀ t, Kept (s.swapInfo t) (s'.swapInfo t))
      (heq : s' = { s with swapInfo := s'.swapInfo })
      (hfull : ∀ t < s.nrSwapfiles, ∀ offset < (s.swapInfo t).max,
        (s.swapInfo t).swapMap offset = 0 → (s.swapInfo t).swapLockmap offset = true) :
      Outcome s (0, s')

section Loop

variable {s s₁ : Swap}

namespace Chained

theorem suffix (h : Chained s) (ht : type < s.nrSwapfiles) :
    ∃ l, Linked (fun t => (s.swapInfo t).next) (some type) (type :: l) ∧
      (∀ t ∈ type :: l, t < s.nrSwapfiles) ∧ l.length < s.nrSwapfiles := by
  obtain ⟨l, hl, hmem⟩ := h.list
  have hlen : l.length ≤ s.nrSwapfiles := by
    have hsub : l ⊆ List.range s.nrSwapfiles := fun t ht => mem_range.mpr ((hmem t).mp ht)
    simpa using (hl.nodup.subperm hsub).length_le
  obtain ⟨l₁, l₂, rfl⟩ := append_of_mem ((hmem type).mpr ht)
  refine ⟨l₂, hl.of_append, fun t htm => (hmem t).mp (mem_append_right _ htm), ?_⟩
  simp only [length_append, length_cons] at hlen
  omega

theorem head_chain (h : Chained s) (hpos : 0 < s.nrSwapfiles) :
    ∃ hd l, s.head = some hd ∧ Linked (fun t => (s.swapInfo t).next) (some hd) (hd :: l) ∧
      (∀ t, t ∈ hd :: l ↔ t < s.nrSwapfiles) ∧ l.length < s.nrSwapfiles := by
  obtain ⟨l, hl, hmem⟩ := h.list
  cases l with
  | nil => exact absurd ((hmem 0).mpr hpos) not_mem_nil
  | cons hd l =>
    obtain ⟨hhd, hrest⟩ := hl
    obtain ⟨l', hl', -, hlen⟩ := h.suffix ((hmem hd).mp mem_cons_self)
    have heq : hd :: l = hd :: l' :=
      (show Linked (fun t => (s.swapInfo t).next) (some hd) (hd :: l) from ⟨rfl, hrest⟩).unique hl'
    rw [List.cons.injEq] at heq
    exact ⟨hd, l, hhd, ⟨rfl, hrest⟩, hmem, heq.2 ▸ hlen⟩

theorem next_lt (h : Chained s) (ht : type < s.nrSwapfiles) {n : ℕ}
    (hn : (s.swapInfo type).next = some n) : n < s.nrSwapfiles := by
  obtain ⟨l, hl, hin, -⟩ := h.suffix ht
  have hrest : Linked (fun t => (s.swapInfo t).next) (some n) l := hn ▸ hl.2
  cases l with
  | nil => cases hrest
  | cons b l =>
    rw [Option.some.inj hrest.1]
    exact hin b (by simp)

end Chained

theorem Tried.refl (s : Swap) : Tried s s := ⟨rfl, fun _ => Or.inl rfl⟩

theorem Tried.kept (h : Tried s s₁) (t : ℕ) : Kept (s.swapInfo t) (s₁.swapInfo t) := by
  obtain heq | ⟨hk, -⟩ := h.each t
  · rw [heq]
    exact Kept.refl _
  · exact hk

theorem Tried.next (h : Tried s s₁) (t : ℕ) : (s₁.swapInfo t).next = (s.swapInfo t).next := by
  rw [h.kept t]

theorem Tried.tryArea (ha : ∀ t < s.nrSwapfiles, Area (s.swapInfo t)) (h : Tried s s₁)
    (ht : type < s.nrSwapfiles) :
    (∃ offset si', tryArea s₁ type =
        (offset, { s₁ with
          swapInfo := update s₁.swapInfo type si', nrSwapPages := s.nrSwapPages - 1 }) ∧
        Took (s.swapInfo type) offset si') ∨
      ∃ s₂, tryArea s₁ type = (0, s₂) ∧ Tried s s₂ ∧ (s.swapInfo type).Exhausted := by
  have harea := ha type ht
  have hkept := h.kept type
  have hflags : (s₁.swapInfo type).flags = SWP_WRITEOK := by
    rw [hkept]
    exact harea.flags
  have hnr : s₁.nrSwapPages = s.nrSwapPages := by
    rw [h.eq]
  unfold SwapMap.tryArea
  rw [hflags, if_pos (by decide), hnr]
  obtain ⟨offset, si', hscan, htook⟩ | ⟨si', hscan, hk, hex⟩ :=
    scanSwapMap_spec (s₁.swapInfo type) s.nrSwapPages
  · rw [hscan]
    obtain heq | ⟨-, hex⟩ := h.each type
    · rw [heq] at htook
      exact .inl ⟨offset, si', rfl, htook⟩
    -- an area tried before has nothing to give
    have hex' : (s₁.swapInfo type).Exhausted := by
      rw [hkept]
      exact hex
    exact absurd htook ((harea.kept hkept).not_took_of_exhausted hex')
  · rw [hscan]
    have hex' : (s.swapInfo type).Exhausted := by
      rw [hkept] at hex
      exact hex
    refine .inr ⟨_, rfl, ⟨?_, fun t => ?_⟩, hex'⟩
    · rw [h.eq]
    · obtain rfl | htt := eq_or_ne t type
      · simp only [update_self]
        exact .inr ⟨hkept.trans hk, hex'⟩
      · simp only [update_of_ne htt]
        exact h.each t

theorem Outcome.of_took (hc : Chained s) (h : Tried s s₁) (ht : type < s.nrSwapfiles) {offset : ℕ}
    {si' : SwapInfo} (htook : Took (s.swapInfo type) offset si') {s₂ : Swap}
    (h₂ : s₂ = { s₁ with
      swapInfo := update s₁.swapInfo type si', nrSwapPages := s.nrSwapPages - 1 }) :
    Outcome s (swpEntry (ofNat 32 type) (ofNat 32 offset),
      { s₂ with next := cursorAfter s₂ (s₁.swapInfo type) }) := by
  have hself : s₂.swapInfo type = si' := by
    rw [h₂]
    exact update_self ..
  have hother : ∀ t, t ≠ type → s₂.swapInfo t = s₁.swapInfo t := by
    intro t htt
    rw [h₂]
    exact update_of_ne htt ..
  have hhead : s₂.head = s.head := by
    rw [h₂, h.eq]
  refine Outcome.took ht ?_ (fun t htt => ?_) ?_ ?_
  · rw [hself]
    exact htook
  · rw [hother t htt]
    exact h.kept t
  · rw [h₂, h.eq]
  · -- the cursor goes to the head or to the next area, both in the chain
    have hcase : cursorAfter s₂ (s₁.swapInfo type) = s.head ∨
        ∃ n, (s.swapInfo type).next = some n ∧ cursorAfter s₂ (s₁.swapInfo type) = some n := by
      unfold cursorAfter
      rw [h.next type, hhead]
      cases (s.swapInfo type).next with
      | none => exact .inl rfl
      | some n =>
        simp only
        split_ifs
        · exact .inl rfl
        · exact .inr ⟨n, rfl, rfl⟩
    obtain hcur | ⟨n, hn, hcur⟩ := hcase
    · obtain ⟨hd, l, hhd, -, hmem, -⟩ := hc.head_chain (Nat.zero_lt_of_lt ht)
      exact ⟨hd, (hmem hd).mp mem_cons_self, hcur.trans hhd⟩
    · exact ⟨n, hc.next_lt ht hn, hcur⟩

/-- The loop goes from the cursor to the end of its priority, and once it has wrapped from the head to the end of the
list.  Behind it all areas are exhausted. -/
theorem getSwapLoop_outcome (ha : ∀ t < s.nrSwapfiles, Area (s.swapInfo t)) (hc : Chained s) :
    ∀ (fuel : ℕ) (l : List ℕ) (s₁ : Swap) (type : ℕ) (wrapped : Bool), Tried s s₁ →
      Linked (fun t => (s.swapInfo t).next) (some type) (type :: l) →
      (∀ t ∈ type :: l, t < s.nrSwapfiles) → l.length + (if wrapped then 0 else s.nrSwapfiles) < fuel →
      (wrapped = true → ∀ t < s.nrSwapfiles, t ∉ type :: l → (s.swapInfo t).Exhausted) →
      ∃ r, getSwapLoop fuel s₁ type wrapped = some r ∧ Outcome s r
  | 0, _, _, _, _, _, _, _, hfuel, _ => absurd hfuel (Nat.not_lt_zero _)
  | fuel + 1, l, s₁, type, wrapped, h, hl, hin, hfuel, hex => by
    have ht := hin type mem_cons_self
    unfold getSwapLoop
    obtain ⟨offset, si', htry, htook⟩ | ⟨s₂, htry, h₂, hextype⟩ := h.tryArea ha ht
    · simp only [htry, if_pos ((ha type ht).pos_of_took htook)]
      exact ⟨_, rfl, Outcome.of_took hc h ht htook rfl⟩
    simp only [htry, ne_eq, not_true_eq_false, if_false, h.next type]
    cases wrapped with
    | true =>
      have hgone (t : ℕ) (ht' : t < s.nrSwapfiles) (htm : t ∉ l) : (s.swapInfo t).Exhausted := by
        by_cases htt : t = type
        · rw [htt]
          exact hextype
        · exact hex rfl t ht' (by simp only [mem_cons, not_or]; exact ⟨htt, htm⟩)
      simp only [if_true] at hfuel ⊢
      cases l with
      | nil =>
        simp only [show (s.swapInfo type).next = none from hl.2]
        exact ⟨_, rfl, Outcome.full h₂.kept h₂.eq fun t ht' => (ha t ht').locked (hgone t ht' not_mem_nil)⟩
      | cons n l =>
        simp only [show (s.swapInfo type).next = some n from hl.2.1]
        exact getSwapLoop_outcome ha hc fuel l s₂ n true h₂ ⟨rfl, hl.2.2⟩
          (fun t htm => hin t (mem_cons_of_mem _ htm)) (by simp only [length_cons, if_true] at *; omega) fun _ => hgone
    | false =>
      simp only [Bool.false_eq_true, if_false] at hfuel ⊢
      have hwrap : ∃ r, (s₂.head.bind fun head => getSwapLoop fuel s₂ head true) = some r ∧ Outcome s r := by
        obtain ⟨hd, l', hhd, hl', hmem, hlen⟩ := hc.head_chain (Nat.zero_lt_of_lt ht)
        rw [show s₂.head = some hd by rw [h₂.eq]; exact hhd, Option.bind_some]
        exact getSwapLoop_outcome ha hc fuel l' s₂ hd true h₂ hl' (fun t htm => (hmem t).mp htm)
          (by simp only [if_true]; omega) fun _ t ht' hnot => absurd ((hmem t).mpr ht') hnot
      cases l with
      | nil =>
        simp only [show (s.swapInfo type).next = none from hl.2]
        exact hwrap
      | cons n l =>
        simp only [show (s.swapInfo type).next = some n from hl.2.1]
        split_ifs
        · exact getSwapLoop_outcome ha hc fuel l s₂ n false h₂ ⟨rfl, hl.2.2⟩
            (fun t htm => hin t (mem_cons_of_mem _ htm))
            (by simp only [length_cons, Bool.false_eq_true, if_false] at *; omega) nofun
        · exact hwrap

end Loop

/-! ### References -/

/-- `swap_free` in one equation: an entry that names no slot changes nothing but the cursor; otherwise
the bounds are widened and the count goes down by one, unless it is 0 or has reached
`SWAP_MAP_MAX`. -/
theorem swapFree_spec (s : Swap) (entry : Pte) (hslot : slot entry = (type, offset)) (hsi : s.swapInfo type = si) :
    (valid s entry = false ∧ (swapFree s entry = s ∨
      swapFree s entry = { s with next := rewound s si.prio })) ∨
    (valid s entry = true ∧ type < s.nrSwapfiles ∧ offset < si.max ∧
      swapFree s entry =
        { Swap.setInfo { s with next := rewound s si.prio } type
            { si.widen offset with
              swapMap := update si.swapMap offset
                (if si.swapMap offset < SWAP_MAP_MAX
                  then si.swapMap offset - 1 else si.swapMap offset) } with
          nrSwapPages := if si.swapMap offset = 1 then s.nrSwapPages + 1
            else s.nrSwapPages }) := by
  unfold swapFree valid
  rw [hslot]
  simp only [hsi]
  by_cases hbad : entry = 0 ∨ swpType entry &&& SHM_SWP_TYPE ≠ 0 ∨ s.nrSwapfiles ≤ type ∨
      si.flags &&& SWP_USED = 0
  · refine .inl ⟨?_, .inl ?_⟩
    · rw [Bool.eq_false_iff]
      simp only [ne_eq, Bool.and_eq_true, decide_eq_true_eq]
      rintro ⟨⟨⟨⟨h0, hshm⟩, hfile⟩, hused⟩, -⟩
      obtain h | h | h | h := hbad
      · exact h0 h
      · exact h hshm
      · exact absurd hfile (Nat.not_lt_of_le h)
      · exact hused h
    · split_ifs <;> first | rfl | tauto
  simp only [not_or, not_not, not_le] at hbad
  obtain ⟨h0, hshm, hfile, hused⟩ := hbad
  rw [if_neg h0, if_neg (not_not.mpr hshm), if_neg (Nat.not_le_of_lt hfile), if_neg hused]
  by_cases hmax : si.max ≤ offset
  · rw [if_pos hmax]
    refine .inl ⟨?_, .inr rfl⟩
    simp [Nat.not_lt_of_le hmax]
  rw [if_neg hmax]
  have ho := Nat.lt_of_not_le hmax
  refine .inr ⟨?_, hfile, ho, ?_⟩
  · simp only [Bool.and_eq_true, decide_eq_true_eq]
    exact ⟨⟨⟨⟨h0, hshm⟩, hfile⟩, hused⟩, ho⟩
  -- the map is stored unchanged where the count does not move
  have hself : ∀ n, n = si.swapMap offset →
      { si.widen offset with
        swapMap := update si.swapMap offset n } =
      si.widen offset := by
    rintro n rfl
    rw [update_eq_self]
    rfl
  change (if si.swapMap offset = 0 then _ else
    if si.swapMap offset < SWAP_MAP_MAX then _ else _) = _
  by_cases hzero : si.swapMap offset = 0
  · rw [if_pos hzero, hself _ (by rw [hzero]; rfl), hzero]
    rfl
  rw [if_neg hzero]
  by_cases hlt : si.swapMap offset < SWAP_MAP_MAX
  · rw [if_pos hlt, if_pos hlt]
    have hone : si.swapMap offset - 1 = 0 ↔ si.swapMap offset = 1 := by
      omega
    simp only [SwapInfo.widen, hone]
  · have hne : si.swapMap offset ≠ 1 := by
      intro hone
      rw [hone] at hlt
      exact hlt (by decide)
    rw [if_neg hlt, hself _ (by rw [if_neg hlt]), if_neg hne]
    rfl

theorem swapDuplicate_spec (s : Swap) (entry : Pte) (hslot : slot entry = (type, offset)) (hsi : s.swapInfo type = si) :
    swapDuplicate s entry = (0, s) ∨
    (type < s.nrSwapfiles ∧ offset < si.max ∧ si.swapMap offset ≠ 0 ∧
      swapDuplicate s entry = (1, s.setInfo type { si with
        swapMap := update si.swapMap offset (if si.swapMap offset < SWAP_MAP_MAX
            then si.swapMap offset + 1 else SWAP_MAP_MAX) })) := by
  unfold swapDuplicate
  rw [hslot]
  simp only [hsi]
  by_cases hbad : entry = 0 ∨ swpType entry &&& SHM_SWP_TYPE ≠ 0 ∨ s.nrSwapfiles ≤ type ∨
      si.max ≤ offset ∨ si.swapMap offset = 0
  · left
    split_ifs <;> first | rfl | tauto
  · simp only [not_or] at hbad
    obtain ⟨h0, hshm, hfile, hmax, hmap⟩ := hbad
    rw [if_neg h0, if_neg hshm, if_neg hfile, if_neg hmax, if_neg hmap]
    exact .inr ⟨Nat.lt_of_not_le hfile, Nat.lt_of_not_le hmax, hmap, rfl⟩

/-! ### The accounts -/

/-- The areas are chained, their free slots lie between their bounds, and `nr_swap_pages` counts
them. -/
structure Accounts (s : Swap) : Prop where
  areas : ∀ t < s.nrSwapfiles, Area (s.swapInfo t)
  chained : Chained s
  few : s.nrSwapfiles ≤ maxSwapfiles
  count : s.nrSwapPages = ∑ t ∈ Finset.range s.nrSwapfiles, (s.swapInfo t).freeSlots

theorem freeSlots_nonneg (p : SwapInfo) : 0 ≤ p.freeSlots := by
  apply Finset.sum_nonneg
  intro o _
  split_ifs <;> decide

theorem ne_zero_of_freeSlots (h : p.freeSlots = 0) : ∀ offset < p.max, p.swapMap offset ≠ 0 := by
  intro offset hlt hzero
  have hnonneg : ∀ o ∈ Finset.range p.max, (0 : ℤ) ≤ if p.swapMap o = 0 then 1 else 0 := by
    intro o _
    split_ifs <;> decide
  have := (Finset.sum_eq_zero_iff_of_nonneg hnonneg).mp h offset (Finset.mem_range.mpr hlt)
  rw [if_pos hzero] at this
  exact one_ne_zero this

theorem slot_swpEntry (ht : type < maxSwapfiles) (ho : offset < 2 ^ 20) :
    slot (swpEntry (ofNat 32 type) (ofNat 32 offset)) = (type, offset) := by
  have ht' : (ofNat 32 type).toNat = type := by
    exact Nat.mod_eq_of_lt (ht.trans (by decide))
  have ho' : (ofNat 32 offset).toNat = offset := by
    exact Nat.mod_eq_of_lt (ho.trans (by decide))
  obtain ⟨-, -, htype, hoffset⟩ := @swpEntry_spec (ofNat 32 type)
    (ofNat 32 offset) (by rw [ht']; exact ht.trans (by decide)) (by rw [ho']; exact ho)
  rw [slot, htype, hoffset, ht', ho']

namespace Accounts

variable {s s' : Swap}

theorem slot_of_took (h : Accounts s) (ht : type < s.nrSwapfiles) {offset : ℕ}
    (htook : Took (s.swapInfo type) offset p) :
    slot (swpEntry (ofNat 32 type) (ofNat 32 offset)) = (type, offset) ∧
      swpEntry (ofNat 32 type) (ofNat 32 offset) ≠ 0 := by
  have harea := h.areas type ht
  have hslot : slot (swpEntry (ofNat 32 type) (ofNat 32 offset)) = (type, offset) :=
    slot_swpEntry (ht.trans_le h.few) ((harea.lt_max htook).trans harea.bound)
  refine ⟨hslot, fun hzero => ?_⟩
  rw [hzero] at hslot
  exact absurd (congrArg Prod.snd hslot).symm (harea.pos_of_took htook)

theorem getSwapPage (h : Accounts s) : ∃ r, getSwapPage s = some r ∧ Outcome s r := by
  unfold SwapMap.getSwapPage
  obtain ⟨hnr, hnext⟩ | ⟨t, ht, hnext⟩ := h.chained.cursor
  · rw [hnext]
    refine ⟨_, rfl, Outcome.full (fun t => Kept.refl _) rfl fun t ht => ?_⟩
    rw [hnr] at ht
    exact absurd ht (Nat.not_lt_zero t)
  · simp only [hnext]
    by_cases hzero : s.nrSwapPages = 0
    · rw [if_pos hzero]
      refine ⟨_, rfl, Outcome.full (fun t => Kept.refl _) rfl fun t ht offset hlt hfree => ?_⟩
      have hsum := h.count.symm.trans hzero
      rw [Finset.sum_eq_zero_iff_of_nonneg fun t _ => freeSlots_nonneg _] at hsum
      exact absurd hfree (ne_zero_of_freeSlots (hsum t (Finset.mem_range.mpr ht)) offset hlt)
    · rw [if_neg hzero]
      obtain ⟨l, hl, hin, hlen⟩ := h.chained.suffix ht
      exact getSwapLoop_outcome h.areas h.chained _ l s t false (Tried.refl s) hl hin
        (by simp only [Bool.false_eq_true, if_false]; omega) nofun

theorem chained_setInfo (h : Chained s) (hnext : p.next = (s.swapInfo type).next) :
    Chained (s.setInfo type p) := by
  obtain ⟨l, hl, hmem⟩ := h.list
  refine ⟨⟨l, hl.congr fun t _ => ?_, hmem⟩, h.cursor⟩
  obtain rfl | htt := eq_or_ne t type
  · simpa [Swap.setInfo] using hnext
  · simp [Swap.setInfo, update_of_ne htt]

section

variable (h : Accounts s)
include h

theorem setInfo (ht : type < s.nrSwapfiles) (hp : Area p) (hnext : p.next = (s.swapInfo type).next) {n : ℤ}
    (hn : n = s.nrSwapPages - (s.swapInfo type).freeSlots + p.freeSlots) :
    Accounts { s.setInfo type p with nrSwapPages := n } := by
  have hch := chained_setInfo h.chained hnext
  refine ⟨fun t ht' => ?_, ⟨hch.list, hch.cursor⟩, h.few, ?_⟩
  · obtain rfl | htt := eq_or_ne t type
    · simpa [Swap.setInfo] using hp
    · simpa [Swap.setInfo, update_of_ne htt] using h.areas t ht'
  · rw [hn, h.count]
    exact (sum_update SwapInfo.freeSlots s.swapInfo (Finset.mem_range.mpr ht) p).symm

theorem congr {info : ℕ → SwapInfo} (hnext : ∀ t, (info t).next = (s.swapInfo t).next)
    (harea : ∀ t, Area (s.swapInfo t) → Area (info t))
    (hslots : ∀ t, (info t).freeSlots = (s.swapInfo t).freeSlots) : Accounts { s with swapInfo := info } := by
  obtain ⟨l, hl, hmem⟩ := h.chained.list
  refine ⟨fun t ht => harea t (h.areas t ht), ⟨⟨l, hl.congr fun t _ => hnext t, hmem⟩, h.chained.cursor⟩, h.few, ?_⟩
  exact h.count.trans (Finset.sum_congr rfl fun t _ => (hslots t).symm)

theorem kept {info : ℕ → SwapInfo} (hk : ∀ t, Kept (s.swapInfo t) (info t)) :
    Accounts { s with swapInfo := info } := by
  refine h.congr (fun t => ?_) (fun t ha => ha.kept (hk t)) fun t => ?_
  · rw [hk t]
  · rw [hk t]
    rfl

theorem outcome {r : Pte × Swap} (ho : Outcome s r)
    (hp : ∀ t < s.nrSwapfiles, (s.swapInfo t).passes = false) : Accounts r.2 := by
  cases ho with
  | @took type offset s' ht htook hrest heq hcursor =>
    have harea := h.areas type ht
    have hslots : (s'.swapInfo type).freeSlots = (s.swapInfo type).freeSlots - 1 := by
      obtain ⟨lowest, nr, hsi, -⟩ := htook.eq
      have hset := freeSlots_setCount (harea.lt_max htook) 1
      rw [if_pos (free_of_usable htook.usable), if_neg one_ne_zero, add_zero] at hset
      rw [hsi, ← hset]
      rfl
    have hnext : (s'.swapInfo type).next = (s.swapInfo type).next := by
      obtain ⟨lowest, nr, hsi, -⟩ := htook.eq
      rw [hsi]
      rfl
    -- the other areas keep their slots, and this one is entered again
    have hothers : Accounts { s with swapInfo := update s'.swapInfo type (s.swapInfo type) } := h.kept fun t => by
      obtain rfl | htt := eq_or_ne t type
      · rw [update_self]
        exact Kept.refl _
      · rw [update_of_ne htt]
        exact hrest t htt
    have hall := hothers.setInfo ht (p := s'.swapInfo type) (n := s.nrSwapPages - 1) (harea.took htook (hp type ht))
      (by simp only [update_self, hnext]) (by simp only [update_self, hslots]; ring)
    rw [Swap.setInfo, update_idem, update_eq_self] at hall
    rw [heq]
    exact ⟨hall.areas, ⟨hall.chained.list, .inr hcursor⟩, hall.few, hall.count⟩
  | @full s' hkept heq hfull =>
    rw [heq]
    exact h.kept hkept

theorem rewind (prio : ℤ) : Accounts { s with next := rewound s prio } := by
  refine ⟨h.areas, ⟨h.chained.list, ?_⟩, h.few, h.count⟩
  obtain ⟨hnr, hnext⟩ | ⟨t, ht, hnext⟩ := h.chained.cursor
  · exact .inl ⟨hnr, by simp only [rewound, hnext]⟩
  right
  simp only [rewound, hnext]
  split_ifs
  · obtain ⟨hd, l, hhd, -, hmem, -⟩ := h.chained.head_chain (Nat.zero_lt_of_lt ht)
    exact ⟨hd, (hmem hd).mp mem_cons_self, hhd⟩
  · exact ⟨t, ht, rfl⟩

theorem swapFree (entry : Pte) : Accounts (swapFree s entry) := by
  obtain ⟨type, offset, hslot⟩ : ∃ type offset, slot entry = (type, offset) := ⟨_, _, rfl⟩
  obtain ⟨-, heq | heq⟩ | ⟨-, ht, ho, heq⟩ := swapFree_spec s entry hslot rfl
  · rw [heq]
    exact h
  · rw [heq]
    exact h.rewind _
  rw [heq]
  have harea := h.areas type ht
  obtain ⟨hwide, hlo, hhi⟩ := harea.widen ho
  refine (h.rewind _).setInfo ht (hwide.setCount ?_ fun _ => ⟨hlo, hhi⟩) rfl ?_
  · rintro rfl
    rw [if_neg (Nat.not_lt.mpr harea.header)]
    exact harea.header
  · rw [freeSlots_setCount (p := (s.swapInfo type).widen offset) ho,
      show ((s.swapInfo type).widen offset).freeSlots = (s.swapInfo type).freeSlots from rfl]
    have hgone : ∀ m, (if m < SWAP_MAP_MAX then m - 1 else m) = 0 ↔ m ≤ 1 := by
      intro m
      have hmax : 1 < SWAP_MAP_MAX := by decide
      split_ifs <;> omega
    simp only [SwapInfo.widen, hgone]
    split_ifs <;> omega

theorem swapDuplicate (entry : Pte) : Accounts (swapDuplicate s entry).2 := by
  obtain ⟨type, offset, hslot⟩ : ∃ type offset, slot entry = (type, offset) := ⟨_, _, rfl⟩
  obtain heq | ⟨ht, ho, hmap, heq⟩ := swapDuplicate_spec s entry hslot rfl
  · rw [heq]
    exact h
  rw [heq]
  have harea := h.areas type ht
  have hpos : (if (s.swapInfo type).swapMap offset < SWAP_MAP_MAX
      then (s.swapInfo type).swapMap offset + 1 else SWAP_MAP_MAX) ≠ 0 := by
    split_ifs <;> simp
  refine h.setInfo ht (harea.setCount ?_ fun h0 => absurd h0 hpos) rfl ?_
  · rintro rfl
    rw [if_neg (Nat.not_lt.mpr harea.header)]
  · rw [freeSlots_setCount ho, if_neg hmap, if_neg hpos]
    simp

theorem setLock (type offset : ℕ) (locked : Bool) : Accounts (setLock s type offset locked) := by
  refine h.congr (fun t => ?_) (fun t ha => ?_) fun t => ?_
  all_goals obtain rfl | htt := eq_or_ne t type
  · rw [update_self]
  · rw [update_of_ne htt]
  · rw [update_self]
    exact { ha with }
  · rwa [update_of_ne htt]
  · rw [update_self]
    rfl
  · rw [update_of_ne htt]

end

end Accounts

end I370Linux.SwapMap
