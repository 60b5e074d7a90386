import I370Linux.PagedStore
import I370Linux.Vma

/-! # The page tables of the i370

The page table entries of `asm-i370/pgtable.h` and the walk `find_pte`.  The segment table of an
address space has an entry for each megabyte; a valid one leads to a table of 256 page table
entries.  An allocation failure leaves the shared `BAD_PAGETABLE` in the segment table, all of whose
entries lead to one page. -/

namespace I370Linux.PageTable

open PagedStore Vma Function

abbrev Byte := BitVec 8
abbrev Pte := BitVec 32

abbrev PFRA_MASK : BitVec 32 := 0x7ffff000
abbrev PAGE_MASK : BitVec 32 := 0xfffff000
abbrev PAGE_INVALID : BitVec 32 := 0x400
abbrev PAGE_RO : BitVec 32 := 0x200
abbrev PAGE_SWAPPED : BitVec 32 := PAGE_INVALID ||| PAGE_RO
abbrev PAGE_DIRTY : BitVec 32 := 0x002
abbrev PAGE_ACCESSED : BitVec 32 := 0x004
abbrev PAGE_USER : BitVec 32 := 0x001
abbrev PAGE_SHARED_BIT : BitVec 32 := 0x010

abbrev PAGE_NONE : BitVec 32 := PAGE_INVALID
abbrev PAGE_SHARED : BitVec 32 := PAGE_USER ||| PAGE_SHARED_BIT
abbrev PAGE_COPY : BitVec 32 := PAGE_USER
abbrev PAGE_READONLY : BitVec 32 := PAGE_USER ||| PAGE_RO

/-! ### Entries -/

/-- What `pte_clear` stores. -/
abbrev pteCleared : Pte := PAGE_INVALID

def pteNone (pte : Pte) : Bool := pte = pteCleared

def ptePresent (pte : Pte) : Bool := !pteNone pte && pte &&& PAGE_SWAPPED ≠ PAGE_SWAPPED

theorem swapped_of_not_present {pte : Pte} (hn : pteNone pte = false) (hp : ptePresent pte = false) :
    pte &&& PAGE_SWAPPED = PAGE_SWAPPED := by
  rw [ptePresent, hn, Bool.not_false, Bool.true_and] at hp
  exact not_not.mp (of_decide_eq_false hp)

def pteWrite (pte : Pte) : Bool := pte &&& PAGE_RO = 0

def pteWrprotect (pte : Pte) : Pte := pte ||| PAGE_RO
def pteMkwrite (pte : Pte) : Pte := pte &&& ~~~PAGE_RO
def pteMkdirty (pte : Pte) : Pte := pte ||| PAGE_DIRTY
def pteMkclean (pte : Pte) : Pte := pte &&& ~~~PAGE_DIRTY
def pteMkold (pte : Pte) : Pte := pte ||| PAGE_ACCESSED
def pteMkyoung (pte : Pte) : Pte := pte &&& ~~~PAGE_ACCESSED

/-- `set_pte`: a zero entry is stored as a cleared one. -/
def setPteVal (pte : Pte) : Pte := if pte ≠ 0 then pte else pteCleared

def mkPte (page : ℕ) (prot : BitVec 32) : Pte := BitVec.ofNat 32 page &&& PFRA_MASK ||| prot

abbrev PAGE_CHG_MASK : BitVec 32 := PAGE_MASK ||| PAGE_ACCESSED ||| PAGE_DIRTY

def pteModify (pte : Pte) (newprot : BitVec 32) : Pte := pte &&& PAGE_CHG_MASK ||| newprot

/-- `pte_page`: the real address of the page frame. -/
def ptePage (pte : Pte) : ℕ := (pte &&& PFRA_MASK).toNat

/-- `bad_pte`, for the address of `empty_bad_page`. -/
def badPte (emptyBadPage : ℕ) : Pte := pteMkdirty (mkPte emptyBadPage PAGE_SHARED)

theorem ptePage_mod (pte : Pte) : ptePage pte % pageSize = 0 := by
  rw [ptePage, BitVec.toNat_and, show pageSize = 2 ^ 12 from rfl, Nat.and_mod_two_pow,
    show (PFRA_MASK : BitVec 32).toNat % 2 ^ 12 = 0 by decide, Nat.and_zero]

theorem pageMask_mod (pte : Pte) : (pte &&& PAGE_MASK).toNat % pageSize = 0 := by
  rw [BitVec.toNat_and, show pageSize = 2 ^ 12 from rfl, Nat.and_mod_two_pow,
    show (PAGE_MASK : BitVec 32).toNat % 2 ^ 12 = 0 by decide, Nat.and_zero]

theorem or_offset {f o : ℕ} (hf : f % pageSize = 0) (ho : o < pageSize) : f ||| o = f + o := by
  obtain ⟨q, rfl⟩ := Nat.dvd_of_mod_eq_zero hf
  exact (Nat.two_pow_add_eq_or_of_lt (i := 12) ho q).symm

section Flags

variable {pte prot : BitVec 32}

variable {m : BitVec 32} {page : ℕ}

theorem or_and_mask (h : prot &&& m = 0) : (pte ||| prot) &&& m = pte &&& m := by
  rw [BitVec.and_or_distrib_right, h]
  exact BitVec.or_zero

theorem and_and_mask (h : prot &&& m = m) : pte &&& prot &&& m = pte &&& m := by
  rw [BitVec.and_assoc, h]

theorem ptePage_or (h : prot &&& PFRA_MASK = 0) : ptePage (pte ||| prot) = ptePage pte := by
  rw [ptePage, or_and_mask h, ptePage]

theorem ptePage_and (h : prot &&& PFRA_MASK = PFRA_MASK) : ptePage (pte &&& prot) = ptePage pte := by
  rw [ptePage, and_and_mask h, ptePage]

@[simp] theorem ptePage_wrprotect : ptePage (pteWrprotect pte) = ptePage pte := ptePage_or (by decide)

@[simp] theorem ptePage_mkwrite : ptePage (pteMkwrite pte) = ptePage pte := ptePage_and (by decide)

@[simp] theorem ptePage_mkdirty : ptePage (pteMkdirty pte) = ptePage pte := ptePage_or (by decide)

@[simp] theorem ptePage_mkclean : ptePage (pteMkclean pte) = ptePage pte := ptePage_and (by decide)

@[simp] theorem ptePage_mkold : ptePage (pteMkold pte) = ptePage pte := ptePage_or (by decide)

@[simp] theorem ptePage_mkyoung : ptePage (pteMkyoung pte) = ptePage pte := ptePage_and (by decide)

section

variable (hp : page % pageSize = 0) (hlt : page < taskSize)
include hp hlt

theorem toNat_frame : (BitVec.ofNat 32 page &&& PFRA_MASK).toNat = page := by
  rw [BitVec.toNat_and, BitVec.toNat_ofNat, Nat.mod_eq_of_lt (lt_trans hlt (by decide)),
    show (PFRA_MASK : BitVec 32).toNat = (2 ^ 19 - 1) <<< 12 by decide]
  obtain ⟨q, rfl⟩ := Nat.dvd_of_mod_eq_zero hp
  have hq : q < 2 ^ 19 := by
    simp only [pageSize, taskSize] at hlt
    omega
  rw [show pageSize * q = q <<< 12 by rw [Nat.shiftLeft_eq, mul_comm], ← Nat.shiftLeft_and_distrib,
    Nat.and_two_pow_sub_one_eq_mod, Nat.mod_eq_of_lt hq]

theorem ofNat_and_frame : BitVec.ofNat 32 page &&& PFRA_MASK = BitVec.ofNat 32 page := by
  rw [← BitVec.toNat_inj, toNat_frame hp hlt, BitVec.toNat_ofNat, Nat.mod_eq_of_lt]
  exact lt_trans hlt (by decide)

theorem ptePage_mkPte (h : prot &&& PFRA_MASK = 0) : ptePage (mkPte page prot) = page := by
  rw [mkPte, ptePage_or h, ptePage, BitVec.and_assoc, BitVec.and_self, toNat_frame hp hlt]

end

theorem ptePresent_mkPte (page : ℕ) : ptePresent (mkPte page PAGE_USER) = true := by
  have hbits : mkPte page PAGE_USER &&& 0x601 = 1 := by
    rw [mkPte, BitVec.and_or_distrib_right, BitVec.and_assoc,
      show (PFRA_MASK &&& 0x601 : BitVec 32) = 0 by decide]
    simp
  have hsw : mkPte page PAGE_USER &&& PAGE_SWAPPED = 0 := by
    rw [show (PAGE_SWAPPED : BitVec 32) = 0x601 &&& 0x600 by decide, ← BitVec.and_assoc, hbits]
    decide
  have hne : mkPte page PAGE_USER ≠ pteCleared := fun he => by
    rw [he] at hbits
    cases hbits
  rw [ptePresent, pteNone, hsw, decide_eq_false hne]
  decide

theorem badPte_not_swapped (page : ℕ) : badPte page &&& PAGE_SWAPPED ≠ PAGE_SWAPPED := by
  rw [badPte, pteMkdirty, or_and_mask (by decide), mkPte, or_and_mask (by decide), BitVec.and_assoc,
    show PFRA_MASK &&& PAGE_SWAPPED = 0#32 by decide, BitVec.and_zero]
  decide

end Flags

/-! ### Tables -/

/-- A segment table entry; the entries of the bad page table, as `paging_init` fills it, are all alike. -/
inductive Ste where
  | invalid
  | bad (emptyBadPage : ℕ)
  | table (t : ℕ → Pte)

abbrev Pgd := ℕ → Ste

def pteIndex (va : ℕ) : ℕ := va % taskSize / pageSize % 256

def segment (va : ℕ) : ℕ := va % taskSize / 2 ^ 20

/-- `find_pte`, with the entry it points to; `none` is the null pointer. -/
def findPte (pgd : Pgd) (va : ℕ) : Option Pte :=
  match pgd (segment va) with
  | .invalid => none
  | .bad emptyBadPage => some (badPte emptyBadPage)
  | .table t => some (t (pteIndex va))

/-- The entry for an address, where no table counts as an empty entry. -/
def pteAt (pgd : Pgd) (va : ℕ) : Pte := (findPte pgd va).getD pteCleared

theorem all_pteNone (pgd : Pgd) (va : ℕ) : (findPte pgd va).all pteNone = pteNone (pteAt pgd va) := by
  rw [pteAt]
  cases findPte pgd va <;> rfl

variable {s va va' y : ℕ}

theorem segment_congr (h : va / pageSize = va' / pageSize) :
    segment va = segment va' ∧ pteIndex va = pteIndex va' := by
  simp only [segment, pteIndex, pageSize, taskSize] at *
  constructor <;> omega

theorem findPte_congr (pgd : Pgd) (h : va / pageSize = va' / pageSize) :
    findPte pgd va = findPte pgd va' := by
  rw [findPte, findPte, (segment_congr h).1, (segment_congr h).2]

theorem pteAt_congr (pgd : Pgd) (h : va / pageSize = va' / pageSize) : pteAt pgd va = pteAt pgd va' := by
  rw [pteAt, pteAt, findPte_congr pgd h]

theorem page_eq_of_place (h : va < taskSize) (h' : va' < taskSize)
    (hs : segment va = segment va') (hi : pteIndex va = pteIndex va') :
    va / pageSize = va' / pageSize := by
  simp only [segment, pteIndex, pageSize, taskSize] at *
  omega

theorem findPte_update_of_ne (pgd : Pgd) (ste : Ste) (h : segment va ≠ s) :
    findPte (update pgd s ste) va = findPte pgd va := by
  rw [findPte, update_of_ne h, findPte]

theorem findPte_update_self (pgd : Pgd) (ste : Ste) (h : segment va = s) :
    findPte (update pgd s ste) va = findPte (fun _ => ste) va := by
  rw [findPte, h, update_self, findPte]

/-- A store through a pointer to an entry.  The bad page table is one for all its segments, which `MoveTables.Mm` models; here a
store through it leaves the segment with a table of its own, so only this segment sees it. -/
def putPte (pgd : Pgd) (va : ℕ) (pte : Pte) : Pgd :=
  update pgd (segment va) (.table (update
    (match pgd (segment va) with
      | .table t => t
      | .bad emptyBadPage => fun _ => badPte emptyBadPage
      | .invalid => fun _ => pteCleared) (pteIndex va) pte))

theorem pteAt_putPte_self (pgd : Pgd) (va : ℕ) (pte : Pte) : pteAt (putPte pgd va pte) va = pte := by
  simp [pteAt, findPte, putPte]

theorem findPte_putPte_self (pgd : Pgd) (va : ℕ) (pte : Pte) : findPte (putPte pgd va pte) va = some pte := by
  simp [findPte, putPte]

theorem findPte_putPte_isSome (pgd : Pgd) (va : ℕ) (pte : Pte)
    (h : (findPte pgd y).isSome = true) : (findPte (putPte pgd va pte) y).isSome = true := by
  obtain hs | hs := eq_or_ne (segment y) (segment va)
  · simp [findPte, putPte, hs]
  · simpa [findPte, putPte, update_of_ne hs] using h

theorem pteAt_putPte_of_place (pgd : Pgd) (pte : Pte)
    (h : ¬ (segment y = segment va ∧ pteIndex y = pteIndex va)) :
    pteAt (putPte pgd va pte) y = pteAt pgd y := by
  obtain hs | hs := eq_or_ne (segment y) (segment va)
  · have hi : pteIndex y ≠ pteIndex va := fun hi => h ⟨hs, hi⟩
    simp only [pteAt, findPte, putPte, hs, update_self, update_of_ne hi]
    cases pgd (segment va) <;> rfl
  · simp only [pteAt, findPte, putPte, update_of_ne hs]

theorem pteAt_of_place (pgd : Pgd)
    (h : segment y = segment va ∧ pteIndex y = pteIndex va) : pteAt pgd y = pteAt pgd va := by
  rw [pteAt, pteAt, findPte, findPte, h.1, h.2]

theorem pteAt_putPte_of_ne (pgd : Pgd) (pte : Pte) (h : va < taskSize) (hy : y < taskSize)
    (hne : y / pageSize ≠ va / pageSize) : pteAt (putPte pgd va pte) y = pteAt pgd y :=
  pteAt_putPte_of_place pgd pte fun hp => hne (page_eq_of_place hy h hp.1 hp.2)

end I370Linux.PageTable
