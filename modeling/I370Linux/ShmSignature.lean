import I370Linux.PteAlgebra

/-! # The page signatures of shared memory

A page of a shared segment that is not in memory has a signature in the page table, made like a swap
entry: the type is `SHM_SWP_TYPE`, and the offset holds the id of the segment and the index of the page.
`shm_map` (`ipc/shm.c`) makes the signature of the first page by adding two swap entries and goes from
page to page by adding a third one; `shm_swap` adds two.  On the i370 a swap entry also holds the state
bits `_PAGE_SWAPPED`, so that every addition adds them once more. -/

namespace I370Linux.ShmSignature

open Vma PageTable PageFault
open BitVec (toNat_add toNat_and toNat_ofNat toNat_or toNat_ushiftRight)

abbrev SHM_SWP_TYPE : BitVec 32 := 0x20
abbrev SHM_ID_BITS : ℕ := 7
abbrev SHM_ID_MASK : BitVec 32 := (1 <<< SHM_ID_BITS) - 1
abbrev SHM_IDX_SHIFT : ℕ := 7
abbrev SHM_IDX_MASK : BitVec 32 := (1 <<< 15) - 1
abbrev SHMMNI : ℕ := 1 <<< SHM_ID_BITS
/-- The value that `shmmax` has until `sysctl` changes it. -/
abbrev SHMMAX : ℕ := 0x3fa000

/-- The fields of an attach that its signatures depend on. -/
structure Attach where
  id : ℕ
  vmStart : ℕ
  vmEnd : ℕ
  vmOffset : ℕ
  id_lt : id < SHMMNI
  start_aligned : vmStart % pageSize = 0
  end_aligned : vmEnd % pageSize = 0
  offset_aligned : vmOffset % pageSize = 0
  offset_lt : vmOffset < SHMMAX
  length_le : vmEnd - vmStart ≤ SHMMAX

namespace Attach

variable (v : Attach)

/-- The field `vm_pte`, as `sys_shmat` sets it. -/
def vmPte : Pte := swpEntry SHM_SWP_TYPE (BitVec.ofNat 32 v.id)

/-- What every turn of the loop of `shm_map` adds to `shm_sgn`. -/
def sgnStep : Pte := swpEntry 0 (1 <<< SHM_IDX_SHIFT)

/-- The loop of `shm_map`, with the entries it stores and where.  `alloc` says that there is a page table
for an address or that `pte_alloc` finds one; the loop leaves where it does not. -/
def shmMapLoop (alloc : ℕ → Bool) : ℕ → ℕ → Pte → List (ℕ × Pte)
  | 0, _, _ => []
  | fuel + 1, tmp, sgn =>
    if tmp < v.vmEnd then
      if alloc tmp then (tmp, setPteVal sgn) :: shmMapLoop alloc fuel (tmp + pageSize) (sgn + sgnStep)
      else []
    else []

def shmSgn : Pte := v.vmPte + swpEntry 0 (BitVec.ofNat 32 v.vmOffset >>> 12 <<< SHM_IDX_SHIFT)

/-- `shm_map`.  There are fewer turns than bytes. -/
def shmMap (alloc : ℕ → Bool) : List (ℕ × Pte) :=
  v.shmMapLoop alloc (v.vmEnd - v.vmStart) v.vmStart v.shmSgn

/-- The entry that `shm_swap` stores for the page `idx` of the segment. -/
def shmSwapPte (idx : ℕ) : Pte :=
  setPteVal (v.vmPte + swpEntry 0 (BitVec.ofNat 32 idx <<< SHM_IDX_SHIFT))

/-- The index in the segment of the page at an address. -/
def index (address : ℕ) : ℕ := (v.vmOffset + (address - v.vmStart)) / pageSize

/-- An address at which a page of the attach starts. -/
def HasPage (address : ℕ) : Prop := v.vmStart ≤ address ∧ address < v.vmEnd ∧ address % pageSize = 0

end Attach

/-- The decoding of an entry by `shm_swap_in`. -/
def swapInId (code : Pte) : BitVec 32 := swpOffset code &&& SHM_ID_MASK

def swapInIdx (code : Pte) : BitVec 32 := swpOffset code >>> SHM_IDX_SHIFT &&& SHM_IDX_MASK

/-- An entry is the signature of the page `idx` of the segment `id`. -/
def Signs (id idx : ℕ) (pte : Pte) : Prop :=
  pteNone pte = false ∧ ptePresent pte = false ∧ swpType pte = SHM_SWP_TYPE ∧
    (swapInId pte).toNat = id ∧ (swapInIdx pte).toNat = idx

instance (id idx : ℕ) (pte : Pte) : Decidable (Signs id idx pte) :=
  inferInstanceAs (Decidable (_ ∧ _ ∧ _ ∧ _ ∧ _))

/-! ### Swap entries as numbers -/

theorem swpEntry_toNat {type offset : BitVec 32} (ht : type.toNat < 2 ^ 9) (ho : offset.toNat < 2 ^ 20) :
    (swpEntry type offset).toNat = offset.toNat * 2 ^ 12 + 0x600 + type.toNat := by
  have hlow : (PAGE_SWAPPED ||| type).toNat = 0x600 + type.toNat := by
    rw [toNat_or, show PAGE_SWAPPED.toNat = 3 <<< 9 from rfl, ← Nat.shiftLeft_add_eq_or_of_lt ht]
    rfl
  have hhigh : (offset <<< 12).toNat = offset.toNat <<< 12 := by
    rw [BitVec.toNat_shiftLeft, Nat.shiftLeft_eq]
    omega
  rw [swpEntry, BitVec.or_assoc, toNat_or, hlow, hhigh,
    ← Nat.shiftLeft_add_eq_or_of_lt (by omega), Nat.shiftLeft_eq]
  omega

theorem sgnStep_toNat : Attach.sgnStep.toNat = 2 ^ 19 + 0x600 := by decide

theorem idxEntry_toNat {idx : BitVec 32} (h : idx.toNat < 2 ^ 13) :
    (swpEntry 0 (idx <<< SHM_IDX_SHIFT)).toNat = idx.toNat * 2 ^ 19 + 0x600 := by
  have hshift : (idx <<< SHM_IDX_SHIFT).toNat = idx.toNat * 2 ^ 7 := by
    rw [BitVec.toNat_shiftLeft, Nat.shiftLeft_eq, Nat.mod_eq_of_lt (by unfold SHM_IDX_SHIFT; omega)]
  rw [swpEntry_toNat (by decide) (by omega), hshift]
  change _ + 0 = _
  omega

namespace Attach

variable (v : Attach)

theorem bounds : v.id < 128 ∧ v.vmOffset < 0x3fa000 ∧ v.vmOffset % 4096 = 0 ∧ v.vmEnd - v.vmStart ≤ 0x3fa000 :=
  ⟨v.id_lt, v.offset_lt, v.offset_aligned, v.length_le⟩

theorem vmPte_toNat : v.vmPte.toNat = v.id * 2 ^ 12 + 0x620 := by
  obtain ⟨hid, -⟩ := v.bounds
  have hof : (BitVec.ofNat 32 v.id).toNat = v.id := by
    rw [toNat_ofNat, Nat.mod_eq_of_lt (by omega)]
  rw [vmPte, swpEntry_toNat (by decide) (by omega), hof]
  change _ + 0x20 = _
  omega

theorem shmSgn_toNat : v.shmSgn.toNat = v.id * 2 ^ 12 + v.vmOffset / 4096 * 2 ^ 19 + 0xc20 := by
  obtain ⟨hid, hoff, -, -⟩ := v.bounds
  have hidx : (BitVec.ofNat 32 v.vmOffset >>> 12).toNat = v.vmOffset / 4096 := by
    rw [toNat_ushiftRight, Nat.shiftRight_eq_div_pow, toNat_ofNat, Nat.mod_eq_of_lt (by omega)]
  rw [shmSgn, toNat_add, vmPte_toNat, idxEntry_toNat (by omega), hidx]
  omega

end Attach

/-! ### What a signature must be -/

variable {id idx n : ℕ} {pte : Pte}

theorem Signs.offset (h : Signs id idx pte) : pte.toNat / 2 ^ 12 = id + idx * 2 ^ 7 := by
  obtain ⟨-, -, -, hid, hidx⟩ := h
  have hoff : (swpOffset pte).toNat = pte.toNat / 2 ^ 12 := by
    rw [swpOffset, toNat_ushiftRight, Nat.shiftRight_eq_div_pow]
  rw [swapInId, toNat_and, hoff, show SHM_ID_MASK.toNat = 2 ^ 7 - 1 from rfl,
    Nat.and_two_pow_sub_one_eq_mod] at hid
  rw [swapInIdx, toNat_and, toNat_ushiftRight, hoff, Nat.shiftRight_eq_div_pow,
    show SHM_IDX_SHIFT = 7 from rfl, show SHM_IDX_MASK.toNat = 2 ^ 15 - 1 from rfl,
    Nat.and_two_pow_sub_one_eq_mod] at hidx
  omega

theorem Signs.state (h : Signs id idx pte) : pte.toNat / 2 ^ 9 % 2 ^ 2 = 3 := by
  have hsw := swapped_of_not_present h.1 h.2.1
  have hbits := congrArg (fun b : BitVec 32 => (b >>> 9).toNat) hsw
  rw [BitVec.ushiftRight_and_distrib] at hbits
  change (pte >>> 9 &&& 3).toNat = 3 at hbits
  rwa [toNat_and, toNat_ushiftRight, Nat.shiftRight_eq_div_pow,
    show (3 : BitVec 32).toNat = 2 ^ 2 - 1 from rfl, Nat.and_two_pow_sub_one_eq_mod] at hbits

/-- **The state bits added more than once.**  With two or more of them the low part of the entry either
carries into the offset or has only one of the two bits. -/
theorem not_signs (hn : 2 ≤ n)
    (h : pte.toNat = id * 2 ^ 12 + idx * 2 ^ 19 + 0x20 + 0x600 * n) : ¬ Signs id idx pte := by
  intro hs
  have hoff := hs.offset
  have hstate := hs.state
  omega

theorem setPteVal_of_toNat (h : pte.toNat = n) (hn : n ≠ 0) : setPteVal pte = pte := by
  apply setPteVal_of_ne
  rintro rfl
  exact hn h.symm

namespace Attach

variable (v : Attach)

/-- **The loop of `shm_map`.**  After `n` turns the signature has `n + 2` times the state bits, so that no
entry it stores is a signature. -/
theorem not_signs_of_mem_loop (alloc : ℕ → Bool) : ∀ (fuel n : ℕ) (sgn : Pte),
    sgn.toNat = v.id * 2 ^ 12 + (v.vmOffset / 4096 + n) * 2 ^ 19 + 0x20 + 0x600 * (n + 2) →
    ∀ p ∈ v.shmMapLoop alloc fuel (v.vmStart + n * 4096) sgn, ¬ Signs v.id (v.index p.1) p.2 := by
  intro fuel
  induction fuel with
  | zero =>
    intro n sgn _ p hp
    cases hp
  | succ fuel ih =>
    intro n sgn hsgn p hp
    rw [shmMapLoop] at hp
    split at hp
    case isFalse => cases hp
    case isTrue hlt =>
      split at hp
      case isFalse => cases hp
      case isTrue =>
        obtain ⟨hid, hoff, haligned, hlen⟩ := v.bounds
        obtain rfl | hp := List.mem_cons.mp hp
        · have hindex : v.index (v.vmStart + n * 4096) = v.vmOffset / 4096 + n := by
            unfold index pageSize
            omega
          rw [setPteVal_of_toNat hsgn (by omega), hindex]
          exact not_signs (by omega) hsgn
        · apply ih (n + 1) (sgn + sgnStep) ?_ p
          · rw [show v.vmStart + (n + 1) * 4096 = v.vmStart + n * 4096 + 4096 by omega]
            exact hp
          · rw [toNat_add, sgnStep_toNat, hsgn]
            omega

theorem not_signs_of_mem_shmMap (alloc : ℕ → Bool) : ∀ p ∈ v.shmMap alloc,
    ¬ Signs v.id (v.index p.1) p.2 := by
  intro p hp
  apply v.not_signs_of_mem_loop alloc (v.vmEnd - v.vmStart) 0 v.shmSgn
  · rw [v.shmSgn_toNat]
    omega
  · rwa [Nat.zero_mul]

theorem not_signs_shmSwapPte {idx : ℕ} (h : idx < 2 ^ 13) : ¬ Signs v.id idx (v.shmSwapPte idx) := by
  obtain ⟨hid, -⟩ := v.bounds
  have hof : (BitVec.ofNat 32 idx).toNat = idx := by
    rw [toNat_ofNat, Nat.mod_eq_of_lt (by omega)]
  have hpte : (v.vmPte + swpEntry 0 (BitVec.ofNat 32 idx <<< SHM_IDX_SHIFT)).toNat =
      v.id * 2 ^ 12 + idx * 2 ^ 19 + 0x20 + 0x600 * 2 := by
    rw [toNat_add, vmPte_toNat, idxEntry_toNat (by omega), hof]
    omega
  rw [shmSwapPte, setPteVal_of_toNat hpte (by omega)]
  exact not_signs (by omega) hpte

theorem index_lt {address : ℕ} (h : v.HasPage address) : v.index address < 2 ^ 13 := by
  obtain ⟨-, hoff, -, hlen⟩ := v.bounds
  obtain ⟨-, hlt, -⟩ := h
  unfold index pageSize
  omega

theorem shmMap_eq_nil_iff (alloc : ℕ → Bool) :
    v.shmMap alloc = [] ↔ v.vmEnd ≤ v.vmStart ∨ alloc v.vmStart = false := by
  rw [shmMap]
  by_cases hlt : v.vmStart < v.vmEnd
  · obtain ⟨fuel, hfuel⟩ : ∃ fuel, v.vmEnd - v.vmStart = fuel + 1 := ⟨v.vmEnd - v.vmStart - 1, by omega⟩
    rw [hfuel, shmMapLoop, if_pos hlt]
    cases ha : alloc v.vmStart with
    | false => simp
    | true => simp [hlt]
  · rw [show v.vmEnd - v.vmStart = 0 by omega]
    exact ⟨fun _ => .inl (by omega), fun _ => rfl⟩

end Attach

/-- **The signatures of an attach.** The entries that `shm_map` stores are signatures of their pages just if it stores none,
and those that `shm_swap` stores just if the attach has no page. -/
theorem signs_iff_no_page (v : Attach) (alloc : ℕ → Bool) :
    ((∀ p ∈ v.shmMap alloc, Signs v.id (v.index p.1) p.2) ↔
      v.vmEnd ≤ v.vmStart ∨ alloc v.vmStart = false) ∧
    ((∀ address, v.HasPage address → Signs v.id (v.index address) (v.shmSwapPte (v.index address))) ↔
      v.vmEnd ≤ v.vmStart) := by
  constructor
  · rw [← v.shmMap_eq_nil_iff alloc, List.eq_nil_iff_forall_not_mem]
    apply forall_congr'
    intro p
    constructor
    · exact fun h hp => v.not_signs_of_mem_shmMap alloc p hp (h hp)
    · exact fun h hp => absurd hp h
  · constructor
    · intro hswap
      by_contra hlt
      have hpage : v.HasPage v.vmStart := ⟨le_rfl, by omega, v.start_aligned⟩
      exact v.not_signs_shmSwapPte (v.index_lt hpage) (hswap _ hpage)
    · rintro hle address ⟨hstart, hend, -⟩
      omega

/-- The first attach of the first segment, of one page. -/
def onePage : Attach where
  id := 0
  vmStart := 0x50000000
  vmEnd := 0x50001000
  vmOffset := 0
  id_lt := by decide
  start_aligned := rfl
  end_aligned := rfl
  offset_aligned := rfl
  offset_lt := by decide
  length_le := by decide

/-- **A page that was never there is present.**  The one page of the attach gets the entry `0xc20`, and
`shm_swap` stores the same: a page in memory, with the frame 0. -/
theorem onePage_present :
    onePage.shmMap (fun _ => true) = [(0x50000000, 0xc20)] ∧ onePage.shmSwapPte 0 = 0xc20 ∧
      ptePresent 0xc20 = true ∧ ¬ Signs 0 0 0xc20 := by
  decide +kernel

end I370Linux.ShmSignature
