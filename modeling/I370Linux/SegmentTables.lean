import I370Linux.Runs
import I370Linux.PageTable

/-! # Page tables on demand

The model of `i370_pte_alloc`, `i370_get_pte` and `__bad_pte`, and of `free_one_pmd` of `mm/memory.c`.
If there is no page for a page table, the segment table entry gets the address of the bad page table,
which all address spaces share.  `pmd_bad` compares an entry with the first word that is stored in that
table, so it does not recognise the address. -/

namespace I370Linux.SegmentTables

open Vma PageTable Runs Function
open BitVec (ofNat)

abbrev SEG_PTO_MASK : BitVec 32 := 0x7fffffc0
abbrev SEG_INVALID : BitVec 32 := 0x20

/-- The bad page and behind it the bad page table, as `paging_init` takes them from memory. -/
structure BadTable where
  emptyBadPage : ℕ
  aligned : emptyBadPage % pageSize = 0
  lt : emptyBadPage + pageSize < taskSize

/-- `empty_bad_page_table`. -/
def BadTable.address (b : BadTable) : ℕ := b.emptyBadPage + pageSize

def pmdNone (pmd : BitVec 32) : Bool := pmd &&& SEG_INVALID ≠ 0

/-- `pmd_bad`: the entry against the first word of the bad page table. -/
def pmdBad (b : BadTable) (pmd : BitVec 32) : Bool := pmd = badPte b.emptyBadPage

/-- What `pmd_clear` stores. -/
abbrev pmdCleared : BitVec 32 := SEG_INVALID

def pmdPage (pmd : BitVec 32) : ℕ := (pmd &&& SEG_PTO_MASK).toNat

def pmdOf (page : ℕ) : BitVec 32 := ofNat 32 page &&& SEG_PTO_MASK ||| 0xf

def entryIdx (address : ℕ) : ℕ := address / pageSize % 256

/-- `i370_get_pte`: the address of the page table entry, and the segment table entry it leaves.  `page`
is the answer of `__get_free_page`. -/
def i370GetPte (b : BadTable) (page : Option ℕ) (idx : ℕ) (pmd : BitVec 32) : Option ℕ × BitVec 32 :=
  if pmdNone pmd then
    match page with
    | some p => (some (p + 4 * idx), pmdOf p)
    | none => (none, ofNat 32 b.address)
  else if pmdBad b pmd then (none, ofNat 32 b.address)
  else (some (pmdPage pmd + 4 * idx), pmd)

def i370PteAlloc (b : BadTable) (page : Option ℕ) (address : ℕ) (pmd : BitVec 32) :
    Option ℕ × BitVec 32 :=
  if pmdNone pmd then i370GetPte b page (entryIdx address) pmd
  else if pmdBad b pmd then (none, ofNat 32 b.address)
  else (some (pmdPage pmd + 4 * entryIdx address), pmd)

/-- `free_one_pmd`: the page it frees, and the entry it leaves. -/
def freeOnePmd (b : BadTable) (pmd : BitVec 32) : Option ℕ × BitVec 32 :=
  if pmdNone pmd then (none, pmd)
  else if pmdBad b pmd then (none, pmdCleared)
  else (some (pmdPage pmd), pmdCleared)

/-! ### Runs -/

variable {ι : Type*}

/-- The segment table entries of any number of address spaces, the pages in use, and what the calls
have returned so far: the entry, the index and the address of the page table entry. -/
structure Spaces (ι : Type*) where
  ste : ι → BitVec 32
  inUse : ℕ → Bool
  returned : List (ι × ℕ × ℕ)
  failed : List ι

def Spaces.initial (ι : Type*) : Spaces ι := ⟨fun _ => pmdCleared, fun _ => false, [], []⟩

def isFree (b : BadTable) (s : Spaces ι) (page : ℕ) : Bool :=
  page % pageSize = 0 ∧ 0 < page ∧ page < taskSize ∧ page ≠ b.emptyBadPage ∧ page ≠ b.address ∧
    !s.inUse page

/-- A call of `i370_pte_alloc` for an entry and an address; the third part is what the allocator
answers if it is asked. -/
def step [DecidableEq ι] (b : BadTable) (s : Spaces ι) (call : ι × ℕ × Option ℕ) :
    Option (Spaces ι) :=
  let (i, address, page) := call
  if page.all (isFree b s) then
    let (pte, pmd) := i370PteAlloc b page address (s.ste i)
    some
      { ste := update s.ste i pmd
        inUse := if pmdNone (s.ste i) then fun q => page = some q || s.inUse q else s.inUse
        returned := pte.toList.map (fun a => (i, entryIdx address, a)) ++ s.returned
        failed := if pte.isNone then i :: s.failed else s.failed }
  else none

/-! ### Entries -/

section Page

variable {page : ℕ} (hp : page % pageSize = 0) (hlt : page < taskSize)

include hp hlt

theorem pmdPage_ofNat : pmdPage (ofNat 32 page) = page := by
  rw [pmdPage, ← ofNat_and_frame hp hlt, BitVec.and_assoc,
    show PFRA_MASK &&& SEG_PTO_MASK = PFRA_MASK by decide, toNat_frame hp hlt]

theorem pmdPage_pmdOf : pmdPage (pmdOf page) = page := by
  rw [pmdPage, pmdOf, or_and_mask (by decide), BitVec.and_assoc, BitVec.and_self]
  exact pmdPage_ofNat hp hlt

theorem ofNat_and_low {m : BitVec 32} (hm : PFRA_MASK &&& m = 0#32) : ofNat 32 page &&& m = 0#32 := by
  rw [← ofNat_and_frame hp hlt, BitVec.and_assoc, hm, BitVec.and_zero]

theorem pmdNone_ofNat : pmdNone (ofNat 32 page) = false := by
  rw [pmdNone, ofNat_and_low hp hlt (by decide)]
  decide

theorem pmdBad_ofNat (b : BadTable) : pmdBad b (ofNat 32 page) = false := by
  refine decide_eq_false fun he => ?_
  have hand := congrArg (· &&& PAGE_USER) he
  simp only [badPte, pteMkdirty, mkPte] at hand
  rw [ofNat_and_low hp hlt (by decide), or_and_mask (by decide), BitVec.and_or_distrib_right,
    BitVec.and_assoc, show PFRA_MASK &&& PAGE_USER = 0#32 by decide, BitVec.and_zero] at hand
  cases hand

theorem ofNat_ne_pmdOf (p : ℕ) : ofNat 32 page ≠ pmdOf p := by
  intro he
  have hand := congrArg (· &&& 0x8#32) he
  simp only [pmdOf] at hand
  rw [ofNat_and_low hp hlt (by decide), BitVec.and_or_distrib_right, BitVec.and_assoc,
    show SEG_PTO_MASK &&& 0x8#32 = 0#32 by decide, BitVec.and_zero] at hand
  cases hand

omit hp hlt in
theorem pmdNone_pmdOf (page : ℕ) : pmdNone (pmdOf page) = false := by
  rw [pmdNone, pmdOf, or_and_mask (by decide), BitVec.and_assoc,
    show SEG_PTO_MASK &&& SEG_INVALID = 0#32 by decide, BitVec.and_zero]
  decide

end Page

theorem BadTable.address_mod (b : BadTable) : b.address % pageSize = 0 := by
  have := b.aligned
  rw [BadTable.address]
  simp only [pageSize] at *
  omega

theorem pmdBad_pmdOf (b : BadTable) (page : ℕ) : pmdBad b (pmdOf page) = false := by
  -- the length of a page table has a bit that no flag of the bad entry has
  refine decide_eq_false fun he => ?_
  have hand := congrArg (· &&& 0x8#32) he
  simp only [pmdOf, badPte, pteMkdirty, mkPte] at hand
  rw [BitVec.and_or_distrib_right, BitVec.and_assoc, or_and_mask (by decide), or_and_mask (by decide),
    BitVec.and_assoc, show SEG_PTO_MASK &&& 0x8#32 = 0#32 by decide,
    show PFRA_MASK &&& 0x8#32 = 0#32 by decide, BitVec.and_zero, BitVec.and_zero] at hand
  cases hand

/-! ### The invariant -/

/-- What the entries are: cleared, a page table of their own, or the bad one after a failure. -/
structure Inv (b : BadTable) (s : Spaces ι) : Prop where
  entry : ∀ i, s.ste i = pmdCleared ∨
    (∃ p, p % pageSize = 0 ∧ p < taskSize ∧ p ≠ b.address ∧ s.inUse p = true ∧ s.ste i = pmdOf p) ∨
    i ∈ s.failed
  own : ∀ i j p, p % pageSize = 0 → p < taskSize → s.ste i = pmdOf p → s.ste j = pmdOf p → i = j
  failed : ∀ i ∈ s.failed, s.ste i = ofNat 32 b.address
  returned : ∀ r ∈ s.returned, r.2.1 < 256 ∧ r.2.2 = pmdPage (s.ste r.1) + 4 * r.2.1 ∧
    s.ste r.1 ≠ pmdCleared

variable {b : BadTable} {s : Spaces ι}

theorem i370PteAlloc_spec (h : Inv b s) (i : ι) (address : ℕ) (page : Option ℕ) :
    (s.ste i = pmdCleared ∧ i370PteAlloc b page address (s.ste i) =
      match page with
      | some p => (some (p + 4 * entryIdx address), pmdOf p)
      | none => (none, ofNat 32 b.address)) ∨
    s.ste i ≠ pmdCleared ∧ pmdNone (s.ste i) = false ∧ i370PteAlloc b page address (s.ste i) =
      (some (pmdPage (s.ste i) + 4 * entryIdx address), s.ste i) := by
  obtain hi | ⟨p, hp, hlt, hne, -, hi⟩ | hi := h.entry i
  · refine .inl ⟨hi, ?_⟩
    rw [hi]
    cases page <;> rfl
  · refine .inr ⟨?_, ?_, ?_⟩
    · intro he
      have hn := pmdNone_pmdOf p
      rw [← hi, he] at hn
      cases hn
    · rw [hi, pmdNone_pmdOf]
    · rw [hi, i370PteAlloc, pmdNone_pmdOf, pmdBad_pmdOf, if_neg (by decide), if_neg (by decide)]
  · have hb := h.failed i hi
    have hnone := pmdNone_ofNat b.address_mod b.lt
    refine .inr ⟨?_, ?_, ?_⟩
    · intro he
      rw [← hb, he] at hnone
      cases hnone
    · rw [hb, hnone]
    · rw [hb, i370PteAlloc, hnone, pmdBad_ofNat b.address_mod b.lt, if_neg (by decide), if_neg (by decide)]

theorem ne_cleared_of_not_none {pmd : BitVec 32} (h : pmdNone pmd = false) : pmd ≠ pmdCleared := by
  rintro rfl
  cases h

theorem Inv.initial (b : BadTable) : Inv b (Spaces.initial ι) where
  entry := fun _ => .inl rfl
  own := fun _ _ p _ _ hi => absurd hi.symm (ne_cleared_of_not_none (pmdNone_pmdOf p))
  failed := nofun
  returned := nofun

theorem Inv.ne_of_failed (h : Inv b s) {i j : ι} (hi : s.ste i = pmdCleared) (hj : j ∈ s.failed) : j ≠ i := by
  rintro rfl
  refine ne_cleared_of_not_none (pmdNone_ofNat b.address_mod b.lt) ?_
  rw [← h.failed j hj, hi]

section Step

variable [DecidableEq ι]

omit [DecidableEq ι] in
theorem Inv.ste_ne (h : Inv b s) {p : ℕ} (hp : p % pageSize = 0) (hlt : p < 2 ^ 31)
    (hne : p ≠ b.address) (hfresh : s.inUse p = false) (j : ι) : s.ste j ≠ pmdOf p := by
  intro hj
  have hpage := pmdPage_pmdOf hp hlt
  obtain h1 | ⟨q, hq, hqlt, -, huse, h1⟩ | h1 := h.entry j
  · exact ne_cleared_of_not_none (pmdNone_pmdOf p) (hj.symm.trans h1)
  · rw [← hj, h1, pmdPage_pmdOf hq hqlt] at hpage
    rw [hpage, hfresh] at huse
    cases huse
  · rw [← hj, h.failed j h1, pmdPage_ofNat b.address_mod b.lt] at hpage
    exact hne hpage.symm

theorem Inv.newTable (h : Inv b s) {i : ι} (hi : s.ste i = pmdCleared) {p : ℕ}
    (hfree : isFree b s p = true) {idx : ℕ} (hidx : idx < 256) :
    Inv b { ste := update s.ste i (pmdOf p), inUse := fun q => some p = some q || s.inUse q,
            returned := (i, idx, p + 4 * idx) :: s.returned, failed := s.failed } := by
  simp only [isFree, decide_eq_true_eq, Bool.decide_and, Bool.and_eq_true, Bool.not_eq_true'] at hfree
  obtain ⟨hp, -, hlt, -, hne, hfresh⟩ := hfree
  have hnew := h.ste_ne hp hlt hne hfresh
  constructor
  case entry =>
    intro j
    rcases eq_or_ne j i with rfl | hji
    · exact .inr (.inl ⟨p, hp, hlt, hne, by simp, update_self ..⟩)
    dsimp only
    rw [update_of_ne hji]
    refine (h.entry j).imp_right (Or.imp_left ?_)
    rintro ⟨q, hq, hqlt, hqb, huse, hste⟩
    exact ⟨q, hq, hqlt, hqb, by simp [huse], hste⟩
  case own =>
    intro j l q hq hqlt hj hl
    dsimp only at hj hl
    rcases eq_or_ne j i with rfl | hji <;> rcases eq_or_ne l j with hlj | hlj
    · exact hlj.symm
    · rw [update_self] at hj
      rw [update_of_ne hlj, ← hj] at hl
      exact absurd hl (hnew l)
    · exact hlj.symm
    · rw [update_of_ne hji] at hj
      rcases eq_or_ne l i with rfl | hli
      · rw [update_self] at hl
        exact absurd (hj.trans hl.symm) (hnew j)
      · rw [update_of_ne hli] at hl
        exact h.own j l q hq hqlt hj hl
  case failed =>
    intro j hj
    dsimp only
    rw [update_of_ne (h.ne_of_failed hi hj)]
    exact h.failed j hj
  case returned =>
    intro r hr
    dsimp only
    rcases List.mem_cons.mp hr with rfl | hr
    · rw [update_self]
      exact ⟨hidx, by rw [pmdPage_pmdOf hp hlt], ne_cleared_of_not_none (pmdNone_pmdOf p)⟩
    · have hri : r.1 ≠ i := fun he => (h.returned r hr).2.2 (he ▸ hi)
      rw [update_of_ne hri]
      exact h.returned r hr

theorem Inv.fail (h : Inv b s) {i : ι} (hi : s.ste i = pmdCleared) :
    Inv b { s with ste := update s.ste i (ofNat 32 b.address), failed := i :: s.failed } := by
  have hold : ∀ {j p}, update s.ste i (ofNat 32 b.address) j = pmdOf p → s.ste j = pmdOf p := by
    intro j p hj
    obtain rfl | hji := eq_or_ne j i
    · rw [update_self] at hj
      exact absurd hj (ofNat_ne_pmdOf b.address_mod b.lt p)
    · rwa [update_of_ne hji] at hj
  constructor
  case entry =>
    intro j
    obtain rfl | hji := eq_or_ne j i
    · exact .inr (.inr List.mem_cons_self)
    · dsimp only
      rw [update_of_ne hji]
      exact (h.entry j).imp_right (Or.imp_right (List.mem_cons_of_mem i))
  case own => exact fun j l p hp hlt hj hl => h.own j l p hp hlt (hold hj) (hold hl)
  case failed =>
    intro j hj
    dsimp only
    obtain rfl | hj := List.mem_cons.mp hj
    · exact update_self ..
    · rw [update_of_ne (h.ne_of_failed hi hj)]
      exact h.failed j hj
  case returned =>
    intro r hr
    have hri : r.1 ≠ i := fun he => (h.returned r hr).2.2 (he ▸ hi)
    dsimp only
    rw [update_of_ne hri]
    exact h.returned r hr

theorem step_inv {s' : Spaces ι} {call : ι × ℕ × Option ℕ} (h : Inv b s)
    (hs : step b s call = some s') : Inv b s' := by
  obtain ⟨i, address, page⟩ := call
  have hidx : entryIdx address < 256 := Nat.mod_lt _ (by decide)
  rw [step] at hs
  dsimp only at hs
  by_cases hpage : page.all (isFree b s) = true
  swap
  · rw [if_neg hpage] at hs
    cases hs
  rw [if_pos hpage] at hs
  cases hs
  obtain ⟨hi, heq⟩ | ⟨hi, hnone, heq⟩ := i370PteAlloc_spec h i address page
  · rw [heq, hi, if_pos (by decide)]
    cases page with
    | some p => exact h.newTable hi hpage hidx
    | none => exact h.fail hi
  · rw [heq, hnone, update_eq_self]
    refine { h with returned := fun r hr => ?_ }
    obtain rfl | hr := List.mem_cons.mp hr
    · exact ⟨hidx, rfl, hi⟩
    · exact h.returned r hr

end Step

/-! ### Private slots -/

/-- Two calls return the same page table entry only for the same segment and page. -/
def PrivateSlots (s : Spaces ι) : Prop :=
  ∀ r ∈ s.returned, ∀ r' ∈ s.returned, r.2.2 = r'.2.2 → r.1 = r'.1 ∧ r.2.1 = r'.2.1

/-- A segment for which there was no page is known as such. -/
def Recognised (b : BadTable) (s : Spaces ι) : Prop :=
  ∀ i ∈ s.failed, pmdBad b (s.ste i) = true ∨ pmdNone (s.ste i) = true

/-- `free_one_pmd` does not free the bad page table. -/
def SparesBad (b : BadTable) (s : Spaces ι) : Prop :=
  ∀ i, (freeOnePmd b (s.ste i)).1 ≠ some b.address

/-- **Slots.**  After any calls from cleared entries on, the slots are private, failures are recognised
and the bad page table is spared just if no allocation has failed. -/
theorem slots_iff [DecidableEq ι] (b : BadTable) {s : Spaces ι}
    (hrun : Reaches (step b) (Spaces.initial ι) s) :
    PrivateSlots s ∧ Recognised b s ∧ SparesBad b s ↔ s.failed = [] := by
  have h : Inv b s := hrun.invariant (Inv.initial b) fun _ _ _ hs _ hstep => step_inv hs hstep
  constructor
  · rintro ⟨-, hrec, -⟩
    refine List.eq_nil_iff_forall_not_mem.mpr fun i hi => ?_
    have hbad := hrec i hi
    rw [h.failed i hi, pmdBad_ofNat b.address_mod b.lt, pmdNone_ofNat b.address_mod b.lt] at hbad
    exact absurd hbad (by decide)
  · intro hnil
    -- every entry in use is a page table of its own
    have htable : ∀ i, s.ste i ≠ pmdCleared → ∃ p, p % pageSize = 0 ∧ p < taskSize ∧ p ≠ b.address ∧
        s.ste i = pmdOf p := by
      intro i hi
      obtain h1 | ⟨p, hp, hlt, hne, -, h1⟩ | h1 := h.entry i
      · exact absurd h1 hi
      · exact ⟨p, hp, hlt, hne, h1⟩
      · rw [hnil] at h1
        exact absurd h1 List.not_mem_nil
    refine ⟨fun r hr r' hr' haddr => ?_, fun i hi => ?_, fun i hfree => ?_⟩
    · obtain ⟨hidx, ha, hc⟩ := h.returned r hr
      obtain ⟨hidx', ha', hc'⟩ := h.returned r' hr'
      obtain ⟨p, hp, hlt, -, hste⟩ := htable r.1 hc
      obtain ⟨q, hq, hqlt, -, hste'⟩ := htable r'.1 hc'
      rw [hste, pmdPage_pmdOf hp hlt] at ha
      rw [hste', pmdPage_pmdOf hq hqlt] at ha'
      obtain ⟨rfl, hidxeq⟩ : p = q ∧ r.2.1 = r'.2.1 := by
        simp only [pageSize] at hp hq
        omega
      exact ⟨h.own _ _ p hp hlt hste hste', hidxeq⟩
    · rw [hnil] at hi
      exact absurd hi List.not_mem_nil
    · obtain hi | hi := eq_or_ne (s.ste i) pmdCleared
      · rw [hi] at hfree
        exact absurd hfree (show none ≠ some b.address from nofun)
      · obtain ⟨p, hp, hlt, hne, hste⟩ := htable i hi
        rw [hste, freeOnePmd, pmdNone_pmdOf, pmdBad_pmdOf, if_neg (by decide), if_neg (by decide),
          pmdPage_pmdOf hp hlt] at hfree
        exact hne (Option.some_inj.mp hfree)

/-- The bad page at `0x3000`, its table at `0x4000`. -/
def lowBad : BadTable := ⟨0x3000, by decide, by decide⟩

/-- Two address spaces, a page table for each. -/
theorem slots_iff_two : ∃ s : Spaces Bool, Reaches (step lowBad) (Spaces.initial Bool) s ∧
    s.returned = [(true, 1, 0x8004), (false, 1, 0x7004)] ∧
    PrivateSlots s ∧ Recognised lowBad s ∧ SparesBad lowBad s := by
  obtain ⟨s, hrun, hret, hfail⟩ : ∃ s, Reaches (step lowBad) (Spaces.initial Bool) s ∧
      s.returned = [(true, 1, 0x8004), (false, 1, 0x7004)] ∧ s.failed = [] := Reaches.exists_of_exec
    [(false, 0x1000, some 0x7000), (true, 0x1000, some 0x8000)] (by decide)
  exact ⟨s, hrun, hret, (slots_iff lowBad hrun).mpr hfail⟩

/-- Two address spaces for which there was no page: the next calls give both the same entry of the bad
page table, which is not recognised and which `free_one_pmd` frees. -/
theorem bad_table_shared :
    ((exec (step lowBad) (fun _ _ => true) (Spaces.initial Bool) [(false, 0x1000, none),
      (true, 0x1000, none), (false, 0x1000, none), (true, 0x1000, none)]).map fun s =>
        (s.returned, pmdBad lowBad (s.ste true), pmdNone (s.ste true),
          (freeOnePmd lowBad (s.ste true)).1)) =
      some ([(true, 1, 0x4004), (false, 1, 0x4004)], false, false, some lowBad.address) := by
  decide

end I370Linux.SegmentTables
