import I370Linux.SegmentTables

/-! # Moving page tables

The model of `move_page_tables` of `mm/mremap.c`, with `get_one_pte`, `alloc_one_pte`, `copy_one_pte`
and `move_one_page`, and of `zap_page_range` of `mm/memory.c`, which its error path calls.

A segment table entry is invalid, or it leads to a page table of its own, or it has the address of the
bad page table, which is one table for all such entries.  `pmd_bad` does not recognise that address
(`allocSeg_refines`), so the bad page table is walked, moved from and cleared like any other.

After a failed allocation `move_page_tables` moves the pages back and calls `zap_page_range` with
`new_addr + len` as the size.  The entries up to `2 * new_addr + len` are cleared, and the segment of
the failure keeps the bad page table (`undone_iff`). -/

namespace I370Linux.MoveTables

open Vma PageTable SegmentTables Function

/-! ### Page tables -/

/-- A stored page table entry.  `set_pte` does not store a zero word. -/
abbrev Entry := { pte : Pte // pte ≠ 0 }

/-- What `pte_clear` stores. -/
def cleared : Entry := ⟨pteCleared, by decide⟩

def setPte (pte : Pte) : Entry := if h : pte ≠ 0 then ⟨pte, h⟩ else cleared

@[simp] theorem setPte_entry (e : Entry) : setPte e.1 = e := dif_pos e.2

inductive Seg
  | none
  | bad
  | table (t : ℕ → Entry)

/-- The page tables of an address space, with the bad page table that all its bad segments lead to.  `calls` counts the calls
of `__get_free_page` for a page table. -/
structure Mm where
  seg : ℕ → Seg
  badTab : ℕ → Entry
  calls : ℕ

namespace Mm

def cell (s : Mm) (d i : ℕ) : Option Entry :=
  match s.seg d with
  | .none => none
  | .bad => some (s.badTab i)
  | .table t => some (t i)

def setCell (s : Mm) (d i : ℕ) (e : Entry) : Mm :=
  match s.seg d with
  | .none => s
  | .bad => { s with badTab := update s.badTab i e }
  | .table t => { s with seg := update s.seg d (.table (update t i e)) }

/-- The segment table entry after a call of `__get_free_page` for a page table. -/
def newSeg (s : Mm) (d : ℕ) (ste : Seg) : Mm :=
  { s with seg := update s.seg d ste, calls := s.calls + 1 }

@[simp] theorem newSeg_self (s : Mm) (d : ℕ) (ste : Seg) : (s.newSeg d ste).seg d = ste :=
  update_self ..

theorem newSeg_of_ne (s : Mm) {d d' : ℕ} (ste : Seg) (h : d' ≠ d) : (s.newSeg d ste).seg d' = s.seg d' := by
  apply update_of_ne h

/-- The entry of an address; a segment without a table has none. -/
def pteAt (s : Mm) (va : ℕ) : Entry := (s.cell (segment va) (pteIndex va)).getD cleared

end Mm

/-! ### `mm/mremap.c` -/

/-- `get_one_pte`: the place of an entry that is not empty. -/
def getOnePte (s : Mm) (addr : ℕ) : Option (ℕ × ℕ) :=
  match s.cell (segment addr) (pteIndex addr) with
  | none => none
  | some e => if e = cleared then none else some (segment addr, pteIndex addr)

/-- `pte_alloc` on the segment table entry: whether there is a place, and the entry it leaves. -/
def allocSeg (room : Bool) : Seg → Bool × Seg
  | .none => if room then (true, .table fun _ => cleared) else (false, .bad)
  | ste => (true, ste)

/-- `alloc_one_pte`; `alloc` are the answers of `__get_free_page`. -/
def allocOnePte (alloc : ℕ → Bool) (s : Mm) (addr : ℕ) : Option (ℕ × ℕ) × Mm :=
  match s.seg (segment addr) with
  | .none =>
    let (ok, ste) := allocSeg (alloc s.calls) .none
    (if ok then some (segment addr, pteIndex addr) else none, s.newSeg (segment addr) ste)
  | _ => (some (segment addr, pteIndex addr), s)

/-- `copy_one_pte`: whether it failed. -/
def copyOnePte (s : Mm) (src : ℕ × ℕ) (dst : Option (ℕ × ℕ)) : Bool × Mm :=
  let pte := (s.cell src.1 src.2).getD cleared
  if pte = cleared then (false, s)
  else
    match dst with
    | none => (true, s)
    | some dst => (false, (s.setCell src.1 src.2 cleared).setCell dst.1 dst.2 (setPte pte.1))

/-- `move_one_page`: whether it failed. -/
def moveOnePage (alloc : ℕ → Bool) (s : Mm) (oldAddr newAddr : ℕ) : Bool × Mm :=
  match getOnePte s oldAddr with
  | none => (false, s)
  | some src =>
    let (dst, s) := allocOnePte alloc s newAddr
    copyOnePte s src dst

/-- The loop of `move_page_tables`, with `n` pages to go; the page at which it failed. -/
def moveDown (alloc : ℕ → Bool) (newAddr oldAddr : ℕ) : ℕ → Mm → Option ℕ × Mm
  | 0, s => (none, s)
  | n + 1, s =>
    match moveOnePage alloc s (oldAddr + pageSize * n) (newAddr + pageSize * n) with
    | (true, s) => (some n, s)
    | (false, s) => moveDown alloc newAddr oldAddr n s

/-- The loop after `oops_we_failed`, with `c` pages to go from page `j` on. -/
def moveBack (alloc : ℕ → Bool) (newAddr oldAddr : ℕ) : ℕ → ℕ → Mm → Mm
  | 0, _, s => s
  | c + 1, j, s =>
    moveBack alloc newAddr oldAddr c (j + 1)
      (moveOnePage alloc s (newAddr + pageSize * j) (oldAddr + pageSize * j)).2

/-! ### `zap_page_range` -/

/-- The loop of `zap_pte_range`, with `c` entries to go from entry `i` of segment `d` on.  What `free_pte` does with the page
of an entry is left out. -/
def zapPtes (d : ℕ) : ℕ → ℕ → Mm → Mm
  | 0, _, s => s
  | c + 1, i, s =>
    let page := (s.cell d i).getD cleared
    if page = cleared then zapPtes d c (i + 1) s
    else zapPtes d c (i + 1) (s.setCell d i cleared)

def zapPteRange (s : Mm) (d address size : ℕ) : Mm :=
  match s.seg d with
  | .none => s
  | _ =>
    let offset := address % 2 ^ 20
    let size := if offset + size > 2 ^ 20 then 2 ^ 20 - offset else size
    zapPtes d (size / pageSize) (pteIndex address) s

/-- `zap_pmd_range`.  A segment is one `pmd`, so the loop has one turn. -/
def zapPmdRange (s : Mm) (d address size : ℕ) : Mm :=
  let address := address % 2 ^ 20
  let fin := if address + size > 2 ^ 20 then 2 ^ 20 else address + size
  zapPteRange s d address (fin - address)

/-- The loop of `zap_page_range`. `none`: it has left the segment table, of 2048 entries, and takes the words behind it for
entries. -/
def zapSegs (fin : ℕ) : ℕ → Mm → ℕ → ℕ → Option Mm
  | 0, _, _, _ => none
  | fuel + 1, s, d, address =>
    if address < fin then
      if d < 2048 then
        zapSegs fin fuel (zapPmdRange s d address (fin - address)) (d + 1)
          ((address + 2 ^ 20) / 2 ^ 20 * 2 ^ 20)
      else none
    else some s

def zapPageRange (s : Mm) (address size : ℕ) : Option Mm :=
  zapSegs (address + size) 2049 s (segment address) address

/-- `move_page_tables`, for a length in whole pages. -/
def movePageTables (alloc : ℕ → Bool) (s : Mm) (newAddr oldAddr len : ℕ) : ℤ × Option Mm :=
  match moveDown alloc newAddr oldAddr (len / pageSize) s with
  | (none, s) => (0, some s)
  | (some k, s) =>
    let s := moveBack alloc newAddr oldAddr (len / pageSize - (k + 1)) (k + 1) s
    (-1, zapPageRange s newAddr (newAddr + len))

/-! ### Segment table entries as words -/

/-- The word of a segment table entry, for a page table at `page`. -/
inductive Word (b : BadTable) (page : ℕ) : Seg → BitVec 32 → Prop
  | none {pmd : BitVec 32} (h : pmdNone pmd) : Word b page .none pmd
  | bad : Word b page .bad (BitVec.ofNat 32 b.address)
  | table (t : ℕ → Entry) : Word b page (.table t) (pmdOf page)

theorem allocSeg_refines {b : BadTable} {page : ℕ} {ste : Seg} {pmd : BitVec 32} (h : Word b page ste pmd) (room : Bool)
    (address : ℕ) : (i370PteAlloc b (if room then some page else none) address pmd).1.isSome = (allocSeg room ste).1 ∧
      Word b page (allocSeg room ste).2 (i370PteAlloc b (if room then some page else none) address pmd).2 := by
  unfold i370PteAlloc
  cases h with
  | none hnone =>
    simp only [hnone, if_true, i370GetPte]
    cases room
    · exact ⟨rfl, .bad⟩
    · exact ⟨rfl, .table _⟩
  | bad =>
    rw [if_neg (by simp [pmdNone_ofNat b.address_mod b.lt]), if_neg (by simp [pmdBad_ofNat b.address_mod b.lt])]
    exact ⟨rfl, .bad⟩
  | table t =>
    rw [if_neg (by simp [pmdNone_pmdOf]), if_neg (by simp [pmdBad_pmdOf])]
    exact ⟨rfl, .table t⟩

/-! ### Entries by page -/

variable {f p : ℕ} {s : Mm}

theorem segment_page (h : p < 2 ^ 19) :
    segment (pageSize * p) = p / 256 ∧ pteIndex (pageSize * p) = p % 256 := by
  simp only [PageTable.segment, pteIndex, pageSize, taskSize]
  constructor <;> omega

namespace Mm

def ent (s : Mm) (p : ℕ) : Entry := (s.cell (p / 256) (p % 256)).getD cleared

theorem pteAt_eq_ent (s : Mm) {va : ℕ} (h : va < taskSize) : s.pteAt va = s.ent (va / pageSize) := by
  have hplace : segment va = va / pageSize / 256 ∧ pteIndex va = va / pageSize % 256 := by
    simp only [PageTable.segment, pteIndex, pageSize, taskSize] at *
    constructor <;> omega
  rw [pteAt, ent, hplace.1, hplace.2]

variable {s : Mm} {p : ℕ}

theorem ent_of_none (h : s.seg (p / 256) = .none) : s.ent p = cleared := by
  rw [ent, cell, h, Option.getD_none]

theorem seg_ne_none_of_ent (h : s.ent p ≠ cleared) : s.seg (p / 256) ≠ .none :=
  fun hnone => h (ent_of_none hnone)

theorem ent_of_bad (h : s.seg (p / 256) = .bad) : s.ent p = s.badTab (p % 256) := by
  rw [ent, cell, h, Option.getD_some]

theorem setCell_iff {x : Seg} (hx : ∀ t, x ≠ .table t) (s : Mm) (d i : ℕ) (e : Entry) (d' : ℕ) :
    (s.setCell d i e).seg d' = x ↔ s.seg d' = x := by
  unfold setCell
  cases h : s.seg d with
  | none | bad => rfl
  | table t =>
    obtain rfl | hd := eq_or_ne d' d
    · simp [h, (hx _).symm]
    · simp [update_of_ne hd]

theorem setCell_badTab {d : ℕ} (h : s.seg d ≠ .bad) (i : ℕ) (e : Entry) :
    (s.setCell d i e).badTab = s.badTab := by
  unfold setCell
  cases hd : s.seg d with
  | bad => exact absurd hd h
  | none | table t => rfl

theorem setCell_calls (s : Mm) (d i : ℕ) (e : Entry) : (s.setCell d i e).calls = s.calls := by
  unfold setCell
  cases s.seg d <;> rfl

end Mm

def OneBad (f : ℕ) (s : Mm) : Prop := ∀ d, s.seg d = .bad → d = f

theorem OneBad.ent_setCell (h : OneBad f s) (hp : s.seg (p / 256) ≠ .none)
    (e : Entry) : (s.setCell (p / 256) (p % 256) e).ent = update s.ent p e := by
  funext q
  have hplace : q / 256 = p / 256 → q % 256 = p % 256 → q = p := by omega
  unfold Mm.setCell Mm.ent Mm.cell
  cases hseg : s.seg (p / 256) with
  | none => exact absurd hseg hp
  | bad =>
    obtain rfl | hq := eq_or_ne q p
    · simp [hseg]
    rw [update_of_ne hq]
    cases hsegq : s.seg (q / 256) with
    | bad =>
      have hi : q % 256 ≠ p % 256 := fun hi =>
        hq (hplace ((h _ hsegq).trans (h _ hseg).symm) hi)
      simp [update_of_ne hi]
    | none | table t => rfl
  | table t =>
    obtain rfl | hq := eq_or_ne q p
    · simp
    rw [update_of_ne hq]
    by_cases hd : q / 256 = p / 256
    · have hi : q % 256 ≠ p % 256 := fun hi => hq (hplace hd hi)
      simp [hd, hseg, update_of_ne hi]
    · simp [update_of_ne hd]

theorem OneBad.setCell (h : OneBad f s) (d i : ℕ) (e : Entry) :
    OneBad f (s.setCell d i e) := fun d' hd' => h d' ((Mm.setCell_iff (x := .bad) nofun s d i e d').mp hd')

/-! ### One page -/

section
variable {alloc : ℕ → Bool} {f : ℕ} {s : Mm} {p q : ℕ}

theorem getOnePte_page (hp : p < 2 ^ 19) :
    getOnePte s (pageSize * p) = if s.ent p = cleared then none else some (p / 256, p % 256) := by
  unfold getOnePte Mm.ent
  rw [(segment_page hp).1, (segment_page hp).2]
  cases s.cell (p / 256) (p % 256) with
  | none => exact (if_pos rfl).symm
  | some e => rfl

theorem moveOnePage_empty (hp : p < 2 ^ 19) (h : s.ent p = cleared) (addr : ℕ) :
    moveOnePage alloc s (pageSize * p) addr = (false, s) := by
  unfold moveOnePage
  rw [getOnePte_page hp, if_pos h]

/-- One entry has moved from `p` to `q`. -/
structure Moves (s s' : Mm) (p q : ℕ) : Prop where
  ent : s'.ent = update (update s.ent p cleared) q (s.ent p)
  none : ∀ d, s'.seg d = .none → s.seg d = .none
  bad : ∀ d, s'.seg d = .bad ↔ s.seg d = .bad
  badTab : (∀ d, s.seg d ≠ .bad) → s'.badTab = s.badTab
  calls : s.calls ≤ s'.calls

theorem copyOnePte_moves (hone : OneBad f s) (hp : s.ent p ≠ cleared) (hq : s.seg (q / 256) ≠ .none) :
    ∃ s', copyOnePte s (p / 256, p % 256) (some (q / 256, q % 256)) = (false, s') ∧ Moves s s' p q := by
  refine ⟨_, if_neg hp, ?_, ?_, ?_, ?_, ?_⟩
  · have hq' := mt (Mm.setCell_iff (x := .none) nofun s (p / 256) (p % 256) cleared (q / 256)).mp hq
    rw [(hone.setCell _ _ _).ent_setCell hq', hone.ent_setCell (Mm.seg_ne_none_of_ent hp), setPte_entry]
    rfl
  · intro d hd
    rwa [Mm.setCell_iff (x := .none) nofun, Mm.setCell_iff (x := .none) nofun] at hd
  · intro d
    rw [Mm.setCell_iff (x := .bad) nofun, Mm.setCell_iff (x := .bad) nofun]
  · intro hno
    rw [Mm.setCell_badTab, Mm.setCell_badTab (hno _)]
    exact mt (Mm.setCell_iff (x := .bad) nofun ..).mp (hno _)
  · rw [Mm.setCell_calls, Mm.setCell_calls]

/-- What `alloc_one_pte` leaves when it has a place. -/
structure Allocs (s s' : Mm) (q : ℕ) : Prop where
  ent : s'.ent = s.ent
  none : ∀ d, s'.seg d = .none → s.seg d = .none
  bad : ∀ d, s'.seg d = .bad ↔ s.seg d = .bad
  badTab : s'.badTab = s.badTab
  calls : s.calls ≤ s'.calls
  place : s'.seg (q / 256) ≠ .none

theorem Allocs.newTable (hnone : s.seg (q / 256) = .none) :
    Allocs s (s.newSeg (q / 256) (.table fun _ => cleared)) q := by
  constructor
  · funext x
    unfold Mm.ent Mm.cell
    by_cases hx : x / 256 = q / 256
    · simp [hx, hnone]
    · rw [Mm.newSeg_of_ne _ _ hx]
      rfl
  · intro d hd
    by_cases hdq : d = q / 256
    · rwa [hdq]
    · rwa [Mm.newSeg_of_ne _ _ hdq] at hd
  · intro d
    by_cases hdq : d = q / 256
    · simp [hdq, hnone]
    · rw [Mm.newSeg_of_ne _ _ hdq]
  · rfl
  · exact Nat.le_succ _
  · simp

theorem allocOnePte_some (hlq : q < 2 ^ 19) (hq : s.seg (q / 256) = .none → alloc s.calls = true) :
    ∃ s', allocOnePte alloc s (pageSize * q) = (some (q / 256, q % 256), s') ∧ Allocs s s' q := by
  have hthere : s.seg (q / 256) ≠ .none → Allocs s s q := fun h =>
    ⟨rfl, fun _ => id, fun _ => Iff.rfl, rfl, le_rfl, h⟩
  unfold allocOnePte
  rw [(segment_page hlq).1, (segment_page hlq).2]
  cases hseg : s.seg (q / 256) with
  | none =>
    rw [hq hseg]
    exact ⟨_, rfl, Allocs.newTable hseg⟩
  | bad | table t => exact ⟨s, rfl, hthere (by rw [hseg]; exact Seg.noConfusion)⟩

theorem moveOnePage_moves (hone : OneBad f s) (hlp : p < 2 ^ 19) (hlq : q < 2 ^ 19)
    (hp : s.ent p ≠ cleared) (hq : s.seg (q / 256) = .none → alloc s.calls = true) :
    ∃ s', moveOnePage alloc s (pageSize * p) (pageSize * q) = (false, s') ∧ Moves s s' p q := by
  obtain ⟨s₁, hs₁, ha⟩ := allocOnePte_some hlq hq
  have hone₁ : OneBad f s₁ := fun d hd => hone d ((ha.bad d).mp hd)
  have hp₁ : s₁.ent p ≠ cleared := by rwa [ha.ent]
  obtain ⟨s₂, hs₂, hm⟩ := copyOnePte_moves hone₁ hp₁ ha.place
  refine ⟨s₂, ?_, ?_, ?_, ?_, ?_, ?_⟩
  · unfold moveOnePage
    rw [getOnePte_page hlp, if_neg hp]
    simp only [hs₁, hs₂]
  · rw [hm.ent, ha.ent]
  · exact fun d hd => ha.none d (hm.none d hd)
  · exact fun d => (hm.bad d).trans (ha.bad d)
  · exact fun hno => (hm.badTab fun d => mt (ha.bad d).mp (hno d)).trans ha.badTab
  · exact ha.calls.trans hm.calls

theorem moveOnePage_fails (hlp : p < 2 ^ 19) (hlq : q < 2 ^ 19) (hp : s.ent p ≠ cleared)
    (hnone : s.seg (q / 256) = .none) (hroom : alloc s.calls = false) :
    moveOnePage alloc s (pageSize * p) (pageSize * q) = (true, s.newSeg (q / 256) .bad) := by
  have hpq : p / 256 ≠ q / 256 := fun hpq => Mm.seg_ne_none_of_ent hp (hpq ▸ hnone)
  have hcell : (s.newSeg (q / 256) .bad).cell (p / 256) (p % 256) = s.cell (p / 256) (p % 256) := by
    unfold Mm.cell
    rw [Mm.newSeg_of_ne _ _ hpq]
    rfl
  unfold moveOnePage
  rw [getOnePte_page hlp, if_neg hp]
  unfold allocOnePte
  rw [(segment_page hlq).1, (segment_page hlq).2]
  simp only [hnone, hroom, allocSeg, copyOnePte, Bool.false_eq_true, if_false, hcell]
  exact if_neg hp

end

/-! ### The way down -/

section
variable {alloc : ℕ → Bool} {s₀ s : Mm} {a b n j k : ℕ}

/-- The pages from `j` on have been moved. -/
structure Down (s₀ s : Mm) (a b n j : ℕ) : Prop where
  noBad : ∀ d, s.seg d ≠ .bad
  badTab : s.badTab = s₀.badTab
  none : ∀ d, s.seg d = .none → s₀.seg d = .none
  new : ∀ i, j ≤ i → i < n → s.ent (a + i) = s₀.ent (b + i)
  old : ∀ i, j ≤ i → i < n → s.ent (b + i) = cleared
  rest : ∀ p, (∀ i, j ≤ i → i < n → p ≠ a + i ∧ p ≠ b + i) → s.ent p = s₀.ent p

/-- Two ranges of pages of the address space that do not meet; the first has no entries. -/
structure Ranges (s₀ : Mm) (a b n : ℕ) : Prop where
  new : a + n ≤ 2 ^ 19
  old : b + n ≤ 2 ^ 19
  disjoint : a + n ≤ b ∨ b + n ≤ a
  unmapped : ∀ i < n, s₀.ent (a + i) = cleared

theorem Down.start (h : ∀ d, s₀.seg d ≠ .bad) : Down s₀ s₀ a b n n where
  noBad := h
  badTab := rfl
  none _ := id
  new _ hi hlt := absurd hlt (Nat.not_lt.mpr hi)
  old _ hi hlt := absurd hlt (Nat.not_lt.mpr hi)
  rest _ _ := rfl

variable (hr : Ranges s₀ a b n)
include hr

section

variable (h : Down s₀ s a b n (j + 1))
include h

theorem Down.ent_next : s.ent (a + j) = s₀.ent (a + j) ∧ s.ent (b + j) = s₀.ent (b + j) := by
  have hdis := hr.disjoint
  constructor
  · apply h.rest
    intro i hi hlt
    constructor <;> omega
  · apply h.rest
    intro i hi hlt
    constructor <;> omega

theorem Down.skip (hj : j < n) (he : s.ent (b + j) = cleared) : Down s₀ s a b n j where
  __ := h
  new := by
    intro i hi hlt
    obtain ⟨hnew, hold⟩ := h.ent_next hr
    by_cases hij : i = j
    · rw [hij, hnew, hr.unmapped j hj, ← hold, he]
    · exact h.new i (by omega) hlt
  old := by
    intro i hi hlt
    by_cases hij : i = j
    · rw [hij, he]
    · exact h.old i (by omega) hlt
  rest p hp := h.rest p fun i hi hlt => hp i (by omega) hlt

theorem Down.move (hj : j < n) {s' : Mm} (hm : Moves s s' (b + j) (a + j)) : Down s₀ s' a b n j where
  noBad d hd := h.noBad d ((hm.bad d).mp hd)
  badTab := (hm.badTab h.noBad).trans h.badTab
  none d hd := h.none d (hm.none d hd)
  new := by
    intro i hi hlt
    have hdis := hr.disjoint
    by_cases hij : i = j
    · rw [hm.ent, hij, update_self, (h.ent_next hr).2]
    · rw [hm.ent, update_of_ne (by omega), update_of_ne (by omega)]
      exact h.new i (by omega) hlt
  old := by
    intro i hi hlt
    have hdis := hr.disjoint
    rw [hm.ent, update_of_ne (by omega)]
    by_cases hij : i = j
    · rw [hij, update_self]
    · rw [update_of_ne (by omega)]
      exact h.old i (by omega) hlt
  rest := by
    intro p hp
    obtain ⟨hpa, hpb⟩ := hp j le_rfl hj
    rw [hm.ent, update_of_ne hpa, update_of_ne hpb]
    exact h.rest p fun i hi hlt => hp i (by omega) hlt

end

/-- The state in which the way down stops at page `k`. -/
structure Stops (alloc : ℕ → Bool) (s₀ s : Mm) (a b n k : ℕ) : Prop where
  down : Down s₀ s a b n (k + 1)
  lt : k < n
  mapped : s₀.ent (b + k) ≠ cleared
  noTable : s.seg ((a + k) / 256) = .none
  noRoom : alloc s.calls = false

theorem moveDown_spec (hj : j ≤ n) (h : Down s₀ s a b n j) :
    (∃ s', moveDown alloc (pageSize * a) (pageSize * b) j s = (none, s') ∧ Down s₀ s' a b n 0) ∨
      ∃ k s', moveDown alloc (pageSize * a) (pageSize * b) j s =
          (some k, s'.newSeg ((a + k) / 256) .bad) ∧ Stops alloc s₀ s' a b n k := by
  induction j generalizing s with
  | zero => exact .inl ⟨s, rfl, h⟩
  | succ j ih =>
    have hnew := hr.new
    have hold := hr.old
    unfold moveDown
    rw [← Nat.mul_add, ← Nat.mul_add]
    by_cases he : s.ent (b + j) = cleared
    · rw [moveOnePage_empty (by omega) he]
      exact ih (by omega) (h.skip hr hj he)
    by_cases hroom : s.seg ((a + j) / 256) = .none → alloc s.calls = true
    · have hone : OneBad 0 s := fun d hd => absurd hd (h.noBad d)
      obtain ⟨s', hs', hm⟩ := moveOnePage_moves hone (by omega) (by omega) he hroom
      rw [hs']
      exact ih (by omega) (h.move hr hj hm)
    · obtain ⟨hnone, hno⟩ := Classical.not_imp.mp hroom
      rw [Bool.not_eq_true] at hno
      rw [moveOnePage_fails (by omega) (by omega) he hnone hno]
      rw [(h.ent_next hr).2] at he
      exact .inr ⟨j, s, rfl, h, hj, he, hnone, hno⟩

end

/-! ### The way back -/

section
variable {alloc : ℕ → Bool} {s s' : Mm} {a b n j c f : ℕ}

/-- The pages from `j` on, `c` of them, have been moved back. -/
structure Back (s s' : Mm) (a b j c : ℕ) : Prop where
  bad : ∀ d, s'.seg d = .bad ↔ s.seg d = .bad
  new : ∀ i, j ≤ i → i < j + c → s'.ent (a + i) = cleared
  old : ∀ i, j ≤ i → i < j + c →
    s'.ent (b + i) = if s.ent (a + i) = cleared then s.ent (b + i) else s.ent (a + i)
  rest : ∀ p, (∀ i, j ≤ i → i < j + c → p ≠ a + i ∧ p ≠ b + i) → s'.ent p = s.ent p

theorem Back.done (s : Mm) : Back s s a b j 0 where
  bad _ := Iff.rfl
  new _ hi hlt := absurd hlt (Nat.not_lt.mpr hi)
  old _ hi hlt := absurd hlt (Nat.not_lt.mpr hi)
  rest _ _ := rfl

theorem Back.skip (hdis : a + (j + c + 1) ≤ b ∨ b + (j + c + 1) ≤ a) (he : s.ent (a + j) = cleared)
    (h : Back s s' a b (j + 1) c) : Back s s' a b j (c + 1) where
  bad := h.bad
  new := by
    intro i hi hlt
    by_cases hij : i = j
    · rw [hij, h.rest _ fun i' hi' hlt' => by omega, he]
    · exact h.new i (by omega) (by omega)
  old := by
    intro i hi hlt
    by_cases hij : i = j
    · rw [hij, if_pos he, h.rest _ fun i' hi' hlt' => by omega]
    · exact h.old i (by omega) (by omega)
  rest p hp := h.rest p fun i hi hlt => hp i (by omega) (by omega)

theorem Back.move (hdis : a + (j + c + 1) ≤ b ∨ b + (j + c + 1) ≤ a) (he : s.ent (a + j) ≠ cleared)
    {s₁ : Mm} (hm : Moves s s₁ (a + j) (b + j)) (h : Back s₁ s' a b (j + 1) c) :
    Back s s' a b j (c + 1) where
  bad d := (h.bad d).trans (hm.bad d)
  new := by
    intro i hi hlt
    by_cases hij : i = j
    · rw [hij, h.rest _ fun i' hi' hlt' => by omega, hm.ent, update_of_ne (by omega), update_self]
    · exact h.new i (by omega) (by omega)
  old := by
    intro i hi hlt
    by_cases hij : i = j
    · rw [hij, if_neg he, h.rest _ fun i' hi' hlt' => by omega, hm.ent, update_self]
    · rw [h.old i (by omega) (by omega), hm.ent]
      repeat rw [update_of_ne (by omega)]
  rest := by
    intro p hp
    obtain ⟨hpa, hpb⟩ := hp j le_rfl (by omega)
    rw [h.rest p fun i hi hlt => hp i (by omega) (by omega), hm.ent, update_of_ne hpb, update_of_ne hpa]

theorem moveBack_spec (hroom : ∀ m, s.calls ≤ m → alloc m = true) (hone : OneBad f s)
    (hdis : a + (j + c) ≤ b ∨ b + (j + c) ≤ a) (ha : a + (j + c) ≤ 2 ^ 19) (hb : b + (j + c) ≤ 2 ^ 19) :
    Back s (moveBack alloc (pageSize * a) (pageSize * b) c j s) a b j c := by
  induction c generalizing j s with
  | zero => exact Back.done s
  | succ c ih =>
    unfold moveBack
    rw [← Nat.mul_add, ← Nat.mul_add]
    by_cases he : s.ent (a + j) = cleared
    · rw [moveOnePage_empty (by omega) he]
      exact Back.skip (by omega) he (ih hroom hone (by omega) (by omega) (by omega))
    obtain ⟨s₁, hs₁, hm⟩ := @moveOnePage_moves alloc f s (a + j) (b + j) hone (by omega) (by omega)
      he fun _ => hroom _ le_rfl
    rw [hs₁]
    have hone₁ : OneBad f s₁ := fun d hd => hone d ((hm.bad d).mp hd)
    have hroom₁ : ∀ m, s₁.calls ≤ m → alloc m = true := fun m hle => hroom m (hm.calls.trans hle)
    exact Back.move (by omega) he hm (ih hroom₁ hone₁ (by omega) (by omega) (by omega))

end

/-! ### Clearing a range -/

section
variable {f : ℕ} {s s' s'' : Mm} {d i c p q r : ℕ}

/-- The pages from `p` up to `q` have been cleared. -/
structure Zapped (f : ℕ) (s s' : Mm) (p q : ℕ) : Prop where
  oneBad : OneBad f s'
  ent : ∀ x, s'.ent x = if p ≤ x ∧ x < q then cleared else s.ent x

theorem Zapped.nothing (hone : OneBad f s) (h : q ≤ p) : Zapped f s s p q where
  oneBad := hone
  ent x := (if_neg (by omega)).symm

theorem Zapped.trans (h : Zapped f s s' p q) (h' : Zapped f s' s'' q r) (hpq : p ≤ q) (hqr : q ≤ r) :
    Zapped f s s'' p r where
  oneBad := h'.oneBad
  ent := by
    intro x
    rw [h'.ent, h.ent]
    by_cases hx : q ≤ x
    · rw [if_neg (c := p ≤ x ∧ x < q) (by omega)]
      by_cases hxr : x < r
      · rw [if_pos ⟨hx, hxr⟩, if_pos (by omega)]
      · rw [if_neg (by omega), if_neg (by omega)]
    · rw [if_neg (c := q ≤ x ∧ x < r) (by omega)]
      by_cases hpx : p ≤ x
      · rw [if_pos (by omega), if_pos (by omega)]
      · rw [if_neg (by omega), if_neg (by omega)]

theorem Zapped.empty (hone : OneBad f s) (he : s.ent p = cleared) : Zapped f s s p (p + 1) where
  oneBad := hone
  ent := by
    intro x
    by_cases hx : x = p
    · rw [hx, he, if_pos (by omega)]
    · rw [if_neg (by omega)]

theorem Zapped.one (hone : OneBad f s) (hp : s.seg (p / 256) ≠ .none) :
    Zapped f s (s.setCell (p / 256) (p % 256) cleared) p (p + 1) := by
  constructor
  · exact hone.setCell _ _ _
  · intro x
    rw [hone.ent_setCell hp]
    by_cases hx : x = p
    · rw [hx, update_self, if_pos (by omega)]
    · rw [update_of_ne hx, if_neg (by omega)]

theorem zapPtes_spec (hone : OneBad f s) (hd : s.seg d ≠ .none) (hi : i + c ≤ 256) :
    Zapped f s (zapPtes d c i s) (256 * d + i) (256 * d + i + c) := by
  induction c generalizing i s with
  | zero => exact Zapped.nothing hone le_rfl
  | succ c ih =>
    have hplace : (256 * d + i) / 256 = d ∧ (256 * d + i) % 256 = i := by omega
    have hent : (s.cell d i).getD cleared = s.ent (256 * d + i) := by
      rw [Mm.ent, hplace.1, hplace.2]
    have hend : 256 * d + (i + 1) + c = 256 * d + i + (c + 1) := by omega
    unfold zapPtes
    simp only [hent]
    by_cases he : s.ent (256 * d + i) = cleared
    · rw [if_pos he]
      have hrest := ih hone hd (i := i + 1) (by omega)
      rw [hend] at hrest
      exact (Zapped.empty hone he).trans hrest (by omega) (by omega)
    · rw [if_neg he]
      have hfirst := Zapped.one hone (p := 256 * d + i) (by rwa [hplace.1])
      rw [hplace.1, hplace.2] at hfirst
      have hrest := ih hfirst.oneBad (i := i + 1) (mt (Mm.setCell_iff (x := .none) nofun ..).mp hd) (by omega)
      rw [hend] at hrest
      exact hfirst.trans hrest (by omega) (by omega)

theorem zapPmdRange_spec (hone : OneBad f s) (hpq : p < q) :
    Zapped f s (zapPmdRange s (p / 256) (pageSize * p) (pageSize * q - pageSize * p)) p
      (min q (256 * (p / 256 + 1))) := by
  have hoff : pageSize * p % 2 ^ 20 = pageSize * (p % 256) := by
    simp only [pageSize]
    omega
  have hcap : (if pageSize * (p % 256) + (pageSize * q - pageSize * p) > 2 ^ 20 then 2 ^ 20
      else pageSize * (p % 256) + (pageSize * q - pageSize * p)) - pageSize * (p % 256) =
      pageSize * (min q (256 * (p / 256 + 1)) - p) := by
    simp only [pageSize]
    split_ifs <;> omega
  have hlow : p % 256 < 2 ^ 19 := by omega
  unfold zapPmdRange
  simp only [hoff, hcap]
  unfold zapPteRange
  by_cases hnone : s.seg (p / 256) = .none
  · rw [hnone]
    refine ⟨hone, fun x => ?_⟩
    split_ifs with hx
    · exact Mm.ent_of_none (by rw [show x / 256 = p / 256 by omega, hnone])
    · rfl
  · have hfit : ¬ pageSize * (p % 256) % 2 ^ 20 + pageSize * (min q (256 * (p / 256 + 1)) - p) > 2 ^ 20 := by
      simp only [pageSize]
      omega
    have h := zapPtes_spec (i := p % 256) (c := min q (256 * (p / 256 + 1)) - p) hone hnone (by omega)
    rw [show 256 * (p / 256) + p % 256 = p by omega,
      show p + (min q (256 * (p / 256 + 1)) - p) = min q (256 * (p / 256 + 1)) by omega] at h
    have hidx : pteIndex (pageSize * (p % 256)) = p % 256 := by
      rw [(segment_page hlow).2, Nat.mod_mod]
    cases hseg : s.seg (p / 256) with
    | none => exact absurd hseg hnone
    | bad | table t =>
      simp only [if_neg hfit, hidx, Nat.mul_div_cancel_left _ (show 0 < pageSize by decide)]
      exact h

/-- The walk over the segments: inside the table it clears the range, otherwise it leaves the table. -/
theorem zapSegs_spec {fuel : ℕ} (hone : OneBad f s) (hd : p / 256 ≤ 2048) (hfuel : 2049 - p / 256 ≤ fuel) :
    (q ≤ 2 ^ 19 → ∃ s', zapSegs (pageSize * q) fuel s (p / 256) (pageSize * p) = some s' ∧
      Zapped f s s' p q) ∧
    (2 ^ 19 < q → p < q → zapSegs (pageSize * q) fuel s (p / 256) (pageSize * p) = none) := by
  induction fuel generalizing s p with
  | zero => omega
  | succ fuel ih =>
    unfold zapSegs
    by_cases hpq : p < q
    · rw [if_pos (by simp only [pageSize]; omega)]
      by_cases hlt : p / 256 < 2048
      · rw [if_pos hlt]
        have hnext : (pageSize * p + 2 ^ 20) / 2 ^ 20 * 2 ^ 20 = pageSize * (256 * (p / 256 + 1)) := by
          simp only [pageSize]
          omega
        have hdiv : 256 * (p / 256 + 1) / 256 = p / 256 + 1 := by omega
        have hz := zapPmdRange_spec hone hpq
        obtain ⟨hin, hout⟩ := ih (p := 256 * (p / 256 + 1)) hz.oneBad (by omega) (by omega)
        rw [hdiv] at hin hout
        rw [hnext]
        constructor
        · intro hq
          obtain ⟨s', hs', hz'⟩ := hin hq
          refine ⟨s', hs', ?_⟩
          by_cases hmore : 256 * (p / 256 + 1) ≤ q
          · rw [min_eq_right hmore] at hz
            exact hz.trans hz' (by omega) hmore
          · rw [min_eq_left (by omega)] at hz
            refine ⟨hz'.oneBad, fun x => ?_⟩
            rw [hz'.ent, if_neg (by omega), hz.ent]
        · intro hq _
          exact hout hq (by omega)
      · rw [if_neg hlt]
        exact ⟨fun hq => by omega, fun _ _ => rfl⟩
    · rw [if_neg (by simp only [pageSize]; omega)]
      exact ⟨fun _ => ⟨s, rfl, Zapped.nothing hone (by omega)⟩, fun _ hlt => absurd hlt hpq⟩

end

/-! ### Recovery -/

/-- The entries are as before outside the new range, and the new range has none. -/
def Undone (s₀ s' : Mm) (newAddr len : ℕ) : Prop :=
  (∀ va < taskSize, ¬ (newAddr ≤ va ∧ va < newAddr + len) → s'.pteAt va = s₀.pteAt va) ∧
    ∀ va, newAddr ≤ va → va < newAddr + len → s'.pteAt va = cleared

/-- The recovery from a failure at page `k` of the range does no harm: the range it clears ends in the segment table and has
no entries above the new range, and the bad page table shows nothing in the segment of the failure. -/
structure Harmless (s : Mm) (a n k : ℕ) : Prop where
  inTable : 2 * a + n ≤ 2 ^ 19
  above : ∀ p, a + n ≤ p → p < 2 * a + n → s.ent p = cleared
  around : ∀ p, p / 256 = (a + k) / 256 → ¬ (a ≤ p ∧ p < 2 * a + n) → s.badTab (p % 256) = cleared
  behind : ∀ j, k < j → j < n → (a + j) / 256 = (a + k) / 256 → s.badTab ((a + j) % 256) = cleared

section
variable {alloc : ℕ → Bool} {s₀ s s' : Mm} {a b n k : ℕ}

theorem undone_iff_pages (hnew : a + n ≤ 2 ^ 19) :
    Undone s₀ s' (pageSize * a) (pageSize * n) ↔
      (∀ p < 2 ^ 19, ¬ (a ≤ p ∧ p < a + n) → s'.ent p = s₀.ent p) ∧
        ∀ p, a ≤ p → p < a + n → s'.ent p = cleared := by
  have hpage : ∀ p < 2 ^ 19, pageSize * p < taskSize ∧ pageSize * p / pageSize = p := by
    intro p hp
    simp only [pageSize, taskSize]
    omega
  constructor
  · rintro ⟨hout, hin⟩
    constructor
    · intro p hp hnot
      obtain ⟨hlt, hdiv⟩ := hpage p hp
      have h := hout (pageSize * p) hlt (by simp only [pageSize]; omega)
      rwa [Mm.pteAt_eq_ent _ hlt, Mm.pteAt_eq_ent _ hlt, hdiv] at h
    · intro p hle hlt
      obtain ⟨hlt', hdiv⟩ := hpage p (by omega)
      have h := hin (pageSize * p) (by simp only [pageSize]; omega) (by simp only [pageSize]; omega)
      rwa [Mm.pteAt_eq_ent _ hlt', hdiv] at h
  · rintro ⟨hout, hin⟩
    constructor
    · intro va hva hnot
      rw [Mm.pteAt_eq_ent _ hva, Mm.pteAt_eq_ent _ hva]
      simp only [pageSize, taskSize] at *
      exact hout _ (by omega) (by omega)
    · intro va hle hlt
      have hva : va < taskSize := by
        simp only [pageSize, taskSize] at *
        omega
      rw [Mm.pteAt_eq_ent _ hva]
      simp only [pageSize] at *
      exact hin _ (by omega) (by omega)

theorem ent_failed (f p : ℕ) :
    (s.newSeg f .bad).ent p = if p / 256 = f then s.badTab (p % 256) else s.ent p := by
  by_cases hp : p / 256 = f
  · rw [if_pos hp, Mm.ent_of_bad (by rw [hp, Mm.newSeg_self])]
    rfl
  · rw [if_neg hp]
    unfold Mm.ent Mm.cell
    rw [Mm.newSeg_of_ne _ _ hp]
    rfl

/-! What the way down leaves at the failure. -/

theorem Stops.ent_segment (hs : Stops alloc s₀ s a b n k) {p : ℕ} (hp : p / 256 = (a + k) / 256) :
    s₀.ent p = cleared := Mm.ent_of_none (hs.down.none _ (hp ▸ hs.noTable))

theorem Stops.ent_behind (hs : Stops alloc s₀ s a b n k) {j : ℕ} (hkj : k < j) (hj : j < n)
    (hseg : (a + j) / 256 = (a + k) / 256) : s₀.ent (b + j) = cleared := by
  rw [← hs.down.new j hkj hj]
  exact Mm.ent_of_none (hseg ▸ hs.noTable)

section
variable {t t' : Mm} (hr : Ranges s₀ a b n) (hs : Stops alloc s₀ s a b n k)
  (hback : Back (s.newSeg ((a + k) / 256) .bad) t a b (k + 1) (n - (k + 1)))
  (hzap : Zapped ((a + k) / 256) t t' a (2 * a + n))

include hs hback hzap

theorem Stops.recovered_rest {p : ℕ} (hp : ¬ (a ≤ p ∧ p < 2 * a + n)) (hne : ∀ j, k < j → j < n → p ≠ b + j) :
    t'.ent p = if p / 256 = (a + k) / 256 then s₀.badTab (p % 256) else s₀.ent p := by
  have hpages : ∀ i, k + 1 ≤ i → i < n → p ≠ a + i ∧ p ≠ b + i := by
    intro i hi hin
    exact ⟨by omega, hne i hi hin⟩
  rw [hzap.ent, if_neg hp, hback.rest p fun i hi hin => hpages i hi (by omega), ent_failed,
    hs.down.badTab, hs.down.rest p hpages]

theorem Stops.recovered_old {j : ℕ} (hkj : k < j) (hj : j < n) (hp : ¬ (a ≤ b + j ∧ b + j < 2 * a + n)) :
    t'.ent (b + j) =
      if (a + j) / 256 = (a + k) / 256 ∧ s₀.badTab ((a + j) % 256) ≠ cleared then
        s₀.badTab ((a + j) % 256)
      else if (b + j) / 256 = (a + k) / 256 then s₀.badTab ((b + j) % 256) else s₀.ent (b + j) := by
  have hstay : (s.newSeg ((a + k) / 256) .bad).ent (b + j) =
      if (b + j) / 256 = (a + k) / 256 then s₀.badTab ((b + j) % 256) else cleared := by
    rw [ent_failed, hs.down.badTab, hs.down.old j hkj hj]
  have hmoved : (s.newSeg ((a + k) / 256) .bad).ent (a + j) =
      if (a + j) / 256 = (a + k) / 256 then s₀.badTab ((a + j) % 256) else s₀.ent (b + j) := by
    rw [ent_failed, hs.down.badTab, hs.down.new j hkj hj]
  rw [hzap.ent, if_neg hp, hback.old j hkj (by omega), hstay, hmoved]
  by_cases hseg : (a + j) / 256 = (a + k) / 256
  · have hold := hs.ent_behind hkj hj hseg
    rw [if_pos hseg, hold]
    by_cases hbad : s₀.badTab ((a + j) % 256) = cleared
    · have hnot : ¬ ((a + j) / 256 = (a + k) / 256 ∧ s₀.badTab ((a + j) % 256) ≠ cleared) := fun h => h.2 hbad
      rw [if_pos hbad, if_neg hnot]
    · rw [if_neg hbad, if_pos ⟨hseg, hbad⟩]
  · simp only [hseg, if_false, false_and]
    by_cases hold : s₀.ent (b + j) = cleared
    · rw [if_pos hold, hold]
    · rw [if_neg hold, if_neg]
      exact fun h => hold (hs.ent_segment h)

include hr

/-- The entries after the recovery, against the entries before the call. -/
theorem Stops.recovered_iff (hin : 2 * a + n ≤ 2 ^ 19) :
    ((∀ p < 2 ^ 19, ¬ (a ≤ p ∧ p < a + n) → t'.ent p = s₀.ent p) ∧
        ∀ p, a ≤ p → p < a + n → t'.ent p = cleared) ↔ Harmless s₀ a n k := by
  have hold := hr.old
  have hdis := hr.disjoint
  have hlt := hs.lt
  constructor
  · rintro ⟨hout, -⟩
    have habove : ∀ p, a + n ≤ p → p < 2 * a + n → s₀.ent p = cleared := by
      intro p hle hp
      rw [← hout p (by omega) (by omega), hzap.ent, if_pos (by omega)]
    -- the old range is not cleared: its page `k` was mapped
    have hkept : ∀ j, k ≤ j → j < n → ¬ (a ≤ b + j ∧ b + j < 2 * a + n) := by
      intro j hkj hj hcl
      exact hs.mapped (habove (b + k) (by omega) (by omega))
    refine ⟨hin, habove, ?_, ?_⟩
    · intro p hseg hp
      have hent := hout p (by omega) (by omega)
      rw [hs.ent_segment hseg] at hent
      by_cases hpage : ∃ j, k < j ∧ j < n ∧ p = b + j
      · obtain ⟨j, hkj, hj, rfl⟩ := hpage
        rw [hs.recovered_old hback hzap hkj hj hp] at hent
        by_cases hbad : (a + j) / 256 = (a + k) / 256 ∧ s₀.badTab ((a + j) % 256) ≠ cleared
        · rw [if_pos hbad] at hent
          exact absurd hent hbad.2
        · rwa [if_neg hbad, if_pos hseg] at hent
      · rwa [hs.recovered_rest hback hzap hp fun j hkj hj hpj => hpage ⟨j, hkj, hj, hpj⟩, if_pos hseg] at hent
    · intro j hkj hj hseg
      by_contra hbad
      have hent := hout (b + j) (by omega) (by omega)
      rw [hs.recovered_old hback hzap hkj hj (hkept j hkj.le hj), if_pos ⟨hseg, hbad⟩,
        hs.ent_behind hkj hj hseg] at hent
      exact hbad hent
  · intro h
    constructor
    · intro p hp hnot
      by_cases hcl : a ≤ p ∧ p < 2 * a + n
      · rw [hzap.ent, if_pos hcl, h.above p (by omega) hcl.2]
      by_cases hpage : ∃ j, k < j ∧ j < n ∧ p = b + j
      · obtain ⟨j, hkj, hj, rfl⟩ := hpage
        rw [hs.recovered_old hback hzap hkj hj hcl, if_neg fun hbad => hbad.2 (h.behind j hkj hj hbad.1)]
        split_ifs with hseg
        · rw [h.around _ hseg hcl, hs.ent_segment hseg]
        · rfl
      · rw [hs.recovered_rest hback hzap hcl fun j hkj hj hpj => hpage ⟨j, hkj, hj, hpj⟩]
        split_ifs with hseg
        · rw [h.around _ hseg hcl, hs.ent_segment hseg]
        · rfl
    · intro p hle hp
      rw [hzap.ent, if_pos (by omega)]

end

/-- **Recovery.**  The allocation number `point` fails and `move_page_tables` returns -1.  It has
undone itself exactly when its recovery does no harm. -/
theorem undone_iff {point : ℕ} (hnew : a + n ≤ 2 ^ 19) (hold : b + n ≤ 2 ^ 19)
    (hdis : a + n ≤ b ∨ b + n ≤ a) (hunmapped : ∀ p, a ≤ p → p < a + n → s.ent p = cleared)
    (htables : ∀ d, s.seg d ≠ .bad)
    (hfail : (movePageTables (fun m => m != point) s (pageSize * a) (pageSize * b) (pageSize * n)).1 = -1) :
    (∃ s', (movePageTables (fun m => m != point) s (pageSize * a) (pageSize * b) (pageSize * n)).2 =
        some s' ∧ Undone s s' (pageSize * a) (pageSize * n)) ↔
      ∀ k, (moveDown (fun m => m != point) (pageSize * a) (pageSize * b) n s).1 = some k →
        Harmless s a n k := by
  have hr : Ranges s a b n := ⟨hnew, hold, hdis, fun i hi => hunmapped _ (by omega) (by omega)⟩
  have hpages : pageSize * n / pageSize = n := Nat.mul_div_cancel_left _ (by decide)
  unfold movePageTables at hfail ⊢
  rw [hpages] at hfail ⊢
  obtain ⟨s', hs', -⟩ | ⟨k, s₁, hs₁, hstop⟩ := @moveDown_spec (fun m => m != point)
    _ _ _ _ _ _ hr le_rfl (Down.start htables)
  · rw [hs'] at hfail
    cases hfail
  rw [hs₁]
  simp only [Option.some.injEq, forall_eq']
  have hcalls : s₁.calls = point := by
    simpa using hstop.noRoom
  have hroom : ∀ m, (s₁.newSeg ((a + k) / 256) .bad).calls ≤ m → (m != point) = true := by
    intro m hm
    have hlt : point < m := by rwa [← hcalls]
    simpa using hlt.ne'
  have hone : OneBad ((a + k) / 256) (s₁.newSeg ((a + k) / 256) .bad) := by
    intro d hd
    by_contra hne
    rw [Mm.newSeg_of_ne _ _ hne] at hd
    exact hstop.down.noBad d hd
  have hk := hstop.lt
  have hback : Back _ (moveBack (fun m => m != point) (pageSize * a) (pageSize * b) (n - (k + 1)) (k + 1)
      (s₁.newSeg ((a + k) / 256) .bad)) a b (k + 1) (n - (k + 1)) :=
    moveBack_spec hroom hone (by omega) (by omega) (by omega)
  have honeb := fun d hd => hone d ((hback.bad d).mp hd)
  obtain ⟨hin, hout⟩ := @zapSegs_spec _ _ a (2 * a + n) 2049 honeb (by omega) (by omega)
  have hfin : pageSize * a + (pageSize * a + pageSize * n) = pageSize * (2 * a + n) := by ring
  unfold zapPageRange
  rw [hfin, (segment_page (show a < 2 ^ 19 by omega)).1]
  by_cases htab : 2 * a + n ≤ 2 ^ 19
  · obtain ⟨s', hs', hzap⟩ := hin htab
    rw [hs']
    simp only [Option.some.injEq, exists_eq_left']
    rw [undone_iff_pages hnew, hstop.recovered_iff hr hback hzap htab]
  · rw [hout (by omega) (by omega)]
    constructor
    · rintro ⟨s', hnone, -⟩
      exact nomatch hnone
    · exact fun h => absurd h.inTable htab

end

/-- Page tables with the given pages mapped; the bad page table is as `paging_init` makes it. -/
def mapped (pages : List ℕ) : Mm where
  seg d := if pages.any (fun p => p / 256 = d) then
      .table fun i => if 256 * d + i ∈ pages then setPte 0x5011 else cleared
    else .none
  badTab _ := setPte (badPte 0x3000)
  calls := 0

theorem mapped_none {pages : List ℕ} (h : ∀ q ∈ pages, q / 256 ≠ p / 256) :
    (mapped pages).ent p = cleared := by
  apply Mm.ent_of_none
  unfold mapped
  simpa using h

/-- The last page of the first megabyte and the one behind it are to move by two megabytes.  The second one has moved when
the page table for the first cannot be allocated, and is moved back. -/
theorem undone_iff_movedBack :
    (moveDown (fun m => m != 1) (pageSize * 512) (pageSize * 0) 257 (mapped [255, 256])).1 = some 255 ∧
      (movePageTables (fun m => m != 1) (mapped [255, 256]) (pageSize * 512) (pageSize * 0) (pageSize * 257)).1 = -1 ∧
      ∃ s', (movePageTables (fun m => m != 1) (mapped [255, 256]) (pageSize * 512) (pageSize * 0)
        (pageSize * 257)).2 = some s' ∧ Undone (mapped [255, 256]) s' (pageSize * 512) (pageSize * 257) := by
  have hfail : (movePageTables (fun m => m != 1) (mapped [255, 256]) (pageSize * 512) (pageSize * 0)
      (pageSize * 257)).1 = -1 := by decide +kernel
  have hk : (moveDown (fun m => m != 1) (pageSize * 512) (pageSize * 0) 257 (mapped [255, 256])).1 = some 255 := by
    decide +kernel
  have hempty : ∀ p, 512 ≤ p → (mapped [255, 256]).ent p = cleared := by
    intro p hp
    apply mapped_none
    simp only [List.mem_cons, List.not_mem_nil, or_false, forall_eq_or_imp, forall_eq]
    omega
  refine ⟨hk, hfail, (undone_iff (by decide) (by decide) (by decide) (fun p hp _ => hempty p hp) ?_ hfail).mpr ?_⟩
  · intro d
    unfold mapped
    simp only
    split_ifs <;> exact Seg.noConfusion
  · intro k hk'
    rw [hk, Option.some.injEq] at hk'
    exact ⟨by decide, fun p hp _ => hempty p (by omega), fun p hseg hp => by omega, fun j hkj hj => by omega⟩

/-- **The old range is lost.** One page is to move from `0x100000` to `0xff000`, without a page table for the new place. The
recovery clears the entry it was to keep, and one 44 pages further on. -/
theorem recovery_clears_old :
    (movePageTables (fun m => m != 0) (mapped [256, 300]) 0xff000 0x100000 pageSize).1 = -1 ∧
      ∃ s', (movePageTables (fun m => m != 0) (mapped [256, 300]) 0xff000 0x100000 pageSize).2 = some s' ∧
        (mapped [256, 300]).pteAt 0x100000 ≠ cleared ∧ s'.pteAt 0x100000 = cleared ∧
        (mapped [256, 300]).pteAt 0x12c000 ≠ cleared ∧ s'.pteAt 0x12c000 = cleared ∧
        ¬ Undone (mapped [256, 300]) s' 0xff000 pageSize := by
  have hrun : (movePageTables (fun m => m != 0) (mapped [256, 300]) 0xff000 0x100000 pageSize).2.map
      (fun s' => decide (s'.pteAt 0x100000 = cleared ∧ s'.pteAt 0x12c000 = cleared)) = some true := by
    decide +kernel
  obtain ⟨s', hs', hboth⟩ := Option.map_eq_some_iff.mp hrun
  obtain ⟨hold, hother⟩ := of_decide_eq_true hboth
  have hmapped : (mapped [256, 300]).pteAt 0x100000 ≠ cleared := by decide +kernel
  refine ⟨by decide +kernel, s', hs', hmapped, hold, by decide +kernel, hother, ?_⟩
  intro hun
  exact hmapped ((hun.1 0x100000 (by decide) (by decide)).symm.trans hold)

end I370Linux.MoveTables
