import I370Linux.PageFault

/-! # The edits of a page table entry

An entry is empty, present or swapped out by two hardware bits, `_PAGE_INVALID` and `_PAGE_RO`, and the
protection `PAGE_NONE` of a present page is the first of them.  `PteOp` are the edits that `mprotect`,
fork, copy-on-write and aging make to an entry.  An edit keeps a present entry present just if it meets
`Fits`: write protection of a page without access makes it look swapped out, and for the frame at
address 0 the entry can become empty. -/

namespace I370Linux.PageFault

open PagedStore Vma PageTable UserCopy
open BitVec (toNat_inj toNat_and)

inductive PteOp where
  | wrprotect
  | mkwrite
  | mkdirty
  | mkclean
  | mkold
  | mkyoung
  | modify (newprot : BitVec 32)
  | set

/-- The edit; `newprot` is an index into `protection_map`. -/
def PteOp.apply (pte : Pte) : PteOp → Pte
  | wrprotect => pteWrprotect pte
  | mkwrite => pteMkwrite pte
  | mkdirty => pteMkdirty pte
  | mkclean => pteMkclean pte
  | mkold => pteMkold pte
  | mkyoung => pteMkyoung pte
  | modify newprot => pteModify pte (protectionMap newprot)
  | set => setPteVal pte

/-- The entry made for a frame, after some edits. -/
def edited (frame : ℕ) (prot : BitVec 32) (ops : List PteOp) : Pte :=
  ops.foldl PteOp.apply (mkPte frame (protectionMap prot))

def Stands (frame : ℕ) (pte : Pte) : Prop :=
  ptePresent pte = true ∧ pteNone pte = false ∧ ptePage pte = frame

instance (frame : ℕ) (pte : Pte) : Decidable (Stands frame pte) :=
  inferInstanceAs (Decidable (_ ∧ _ ∧ _))

variable {pte : Pte} {addr : ℕ} {k : Sys} {tables : ℕ → Bool} {vma : VmArea}

theorem none_of_present (h : ptePresent pte = true) : pteNone pte = false := by
  rw [ptePresent, Bool.and_eq_true, Bool.not_eq_true'] at h
  exact h.1

theorem stands_iff {frame : ℕ} (hpage : ptePage pte = frame) : Stands frame pte ↔ ptePresent pte = true :=
  ⟨And.left, fun h => ⟨h, none_of_present h, hpage⟩⟩

def Fits (pte : Pte) : PteOp → Prop
  | .wrprotect => pte &&& PAGE_INVALID = 0
  | .mkclean => pte ≠ PAGE_INVALID ||| PAGE_DIRTY
  | .mkyoung => pte ≠ PAGE_INVALID ||| PAGE_ACCESSED
  | .modify newprot => protectionMap newprot = PAGE_NONE → pte &&& PAGE_CHG_MASK ≠ 0
  | .set => pte ≠ 0
  | _ => True

/-! ### Bits -/

section Bits

variable {m : BitVec 32}

theorem and_bit (pte : Pte) (i : ℕ) (hm : m = BitVec.twoPow 32 i) : pte &&& m = 0 ∨ pte &&& m = m := by
  rw [hm, BitVec.and_twoPow]
  split <;> simp

theorem and_invalid (pte : Pte) : pte &&& PAGE_INVALID = 0 ∨ pte &&& PAGE_INVALID = PAGE_INVALID :=
  and_bit pte 10 (by decide)

theorem and_ro (pte : Pte) : pte &&& PAGE_RO = 0 ∨ pte &&& PAGE_RO = PAGE_RO :=
  and_bit pte 9 (by decide)

theorem and_not_or_and (pte m : BitVec 32) : pte &&& ~~~m ||| pte &&& m = pte := by
  rw [← BitVec.and_or_distrib_left, BitVec.not_or_self, BitVec.and_allOnes]

theorem mkwrite_of_write (h : pteWrite pte = true) : pteMkwrite pte = pte := by
  have hsplit := and_not_or_and pte PAGE_RO
  rw [of_decide_eq_true h] at hsplit
  exact BitVec.or_zero.symm.trans hsplit

theorem swapped_iff : pte &&& PAGE_SWAPPED = PAGE_SWAPPED ↔
    pte &&& PAGE_INVALID = PAGE_INVALID ∧ pte &&& PAGE_RO = PAGE_RO := by
  rw [show PAGE_SWAPPED = PAGE_INVALID ||| PAGE_RO from rfl, BitVec.and_or_distrib_left]
  rcases and_invalid pte with hi | hi <;> rcases and_ro pte with hr | hr <;> rw [hi, hr] <;> decide

theorem present_iff : ptePresent pte = true ↔ pte ≠ pteCleared ∧
    ¬ (pte &&& PAGE_INVALID = PAGE_INVALID ∧ pte &&& PAGE_RO = PAGE_RO) := by
  rw [← swapped_iff]
  simp [ptePresent, pteNone]

theorem or_and_self (pte m : BitVec 32) : (pte ||| m) &&& m = m := by
  ext i
  simp only [BitVec.getElem_and, BitVec.getElem_or]
  cases m[i] <;> simp

theorem ne_cleared (hm : pteCleared &&& m ≠ m) (h : pte &&& m = m) : pte ≠ pteCleared := by
  rintro rfl
  exact hm h

theorem present_of_bits {pte' : Pte} (h : ptePresent pte = true)
    (hi : pte' &&& PAGE_INVALID = pte &&& PAGE_INVALID) (hr : pte' &&& PAGE_RO = pte &&& PAGE_RO) :
    ptePresent pte' = true ↔ pte' ≠ pteCleared := by
  rw [present_iff, hi, hr]
  exact and_iff_left (present_iff.mp h).2

theorem and_not_eq_cleared (hm : pte &&& m = 0 ∨ pte &&& m = m)
    (hne : pte ≠ pteCleared) (h : pte &&& ~~~m = pteCleared) : pte = pteCleared ||| m := by
  have hsplit := and_not_or_and pte m
  rw [h] at hsplit
  obtain h0 | h0 := hm
  · rw [h0] at hsplit
    exact absurd hsplit.symm hne
  · rw [h0] at hsplit
    exact hsplit.symm

end Bits

/-! ### Edits -/

theorem ptePage_modify (pte : Pte) (prot : BitVec 32) :
    ptePage (pteModify pte (protectionMap prot)) = ptePage pte := by
  rw [pteModify, ptePage_or (protectionMap_frame prot), ptePage_and (by decide)]

theorem ptePage_apply (pte : Pte) (op : PteOp) : ptePage (op.apply pte) = ptePage pte := by
  cases op with
  | modify prot => exact ptePage_modify pte prot
  | set =>
    rw [PteOp.apply, setPteVal]
    split_ifs with h0
    · rfl
    · rw [not_not.mp h0]
      decide
  | _ => simp [PteOp.apply]

theorem protectionMap_cases (prot : BitVec 32) : protectionMap prot = PAGE_NONE ∨
    protectionMap prot &&& PAGE_INVALID = 0 ∧ protectionMap prot &&& PAGE_USER = PAGE_USER := by
  rw [protectionMap]
  split_ifs <;> decide

theorem present_wrprotect_iff (pte : Pte) :
    ptePresent (pteWrprotect pte) = true ↔ pte &&& PAGE_INVALID = 0 := by
  have hi : pteWrprotect pte &&& PAGE_INVALID = pte &&& PAGE_INVALID := or_and_mask (by decide)
  have hr : pteWrprotect pte &&& PAGE_RO = PAGE_RO := or_and_self pte PAGE_RO
  rw [present_iff, hi, hr]
  obtain h0 | h0 := and_invalid pte
  · rw [h0]
    exact iff_of_true ⟨ne_cleared (by decide) hr, by decide⟩ rfl
  · rw [h0]
    exact iff_of_false (fun h => h.2 ⟨rfl, rfl⟩) (by decide)

theorem present_mkwrite (h : ptePresent pte = true) : ptePresent (pteMkwrite pte) = true := by
  have hi : pteMkwrite pte &&& PAGE_INVALID = pte &&& PAGE_INVALID := and_and_mask (by decide)
  obtain hr | hr := and_ro pte
  · rw [mkwrite_of_write (decide_eq_true hr)]
    exact h
  have hinv : pte &&& PAGE_INVALID = 0 :=
    (and_invalid pte).resolve_right fun hi => (present_iff.mp h).2 ⟨hi, hr⟩
  rw [present_iff, hi, hinv]
  refine ⟨fun he => ?_, fun h => absurd h.1 (by decide)⟩
  rw [he, hinv] at hi
  cases hi

theorem present_modify_iff (pte : Pte) (prot : BitVec 32) :
    ptePresent (pteModify pte (protectionMap prot)) = true ↔
      (protectionMap prot = PAGE_NONE → pte &&& PAGE_CHG_MASK ≠ 0) := by
  have hchg : ∀ {m : BitVec 32}, PAGE_CHG_MASK &&& m = 0 →
      pteModify pte (protectionMap prot) &&& m = protectionMap prot &&& m := by
    intro m hm
    rw [pteModify, BitVec.and_or_distrib_right, BitVec.and_assoc, hm]
    simp
  rw [present_iff, hchg (by decide), hchg (by decide)]
  obtain hp | ⟨hp, hu⟩ := protectionMap_cases prot
  · have hzero : pteModify pte PAGE_NONE = pteCleared ↔ pte &&& PAGE_CHG_MASK = 0 := by
      rw [pteModify]
      constructor
      · intro he
        have hmask := congrArg (· &&& PAGE_CHG_MASK) he
        rw [or_and_mask (by decide), BitVec.and_assoc, BitVec.and_self] at hmask
        exact hmask.trans (by decide)
      · intro he
        rw [he]
        decide
    rw [hp, Ne, hzero]
    exact ⟨fun h _ => h.1, fun h => ⟨h rfl, by decide⟩⟩
  · rw [hp]
    refine iff_of_true ⟨ne_cleared (by decide : pteCleared &&& PAGE_USER ≠ PAGE_USER) ?_,
      fun h => absurd h.1 (by decide)⟩ ?_
    · rw [hchg (by decide), hu]
    · intro hnone
      rw [hnone] at hp
      cases hp

theorem present_apply_iff (h : ptePresent pte = true) (op : PteOp) :
    ptePresent (op.apply pte) = true ↔ Fits pte op := by
  have hne := (present_iff.mp h).1
  cases op with
  | wrprotect => exact present_wrprotect_iff pte
  | mkwrite => exact iff_of_true (present_mkwrite h) trivial
  | mkdirty =>
    refine iff_of_true ((present_of_bits h (or_and_mask (by decide)) (or_and_mask (by decide))).mpr ?_)
      trivial
    exact ne_cleared (by decide) (or_and_self pte PAGE_DIRTY)
  | mkclean =>
    refine (present_of_bits h (and_and_mask (by decide)) (and_and_mask (by decide))).trans
      (not_congr ⟨and_not_eq_cleared (and_bit pte 1 (by decide)) hne, ?_⟩)
    rintro rfl
    decide
  | mkold =>
    refine iff_of_true ((present_of_bits h (or_and_mask (by decide)) (or_and_mask (by decide))).mpr ?_)
      trivial
    exact ne_cleared (by decide) (or_and_self pte PAGE_ACCESSED)
  | mkyoung =>
    refine (present_of_bits h (and_and_mask (by decide)) (and_and_mask (by decide))).trans
      (not_congr ⟨and_not_eq_cleared (and_bit pte 2 (by decide)) hne, ?_⟩)
    rintro rfl
    decide
  | modify prot => exact present_modify_iff pte prot
  | set =>
    rw [PteOp.apply, setPteVal, Fits]
    split_ifs with h0
    · exact iff_of_true h h0
    · exact iff_of_false (by decide) h0

/-- **A sequence of edits** keeps an entry present all along just if each edit fits the entry it
meets. -/
theorem present_foldl_iff (h : ptePresent pte = true) (ops : List PteOp) :
    (∀ n, ptePresent ((ops.take n).foldl PteOp.apply pte) = true) ↔
      ∀ n op, ops[n]? = some op → Fits ((ops.take n).foldl PteOp.apply pte) op := by
  have hnext : ∀ {n op}, ops[n]? = some op → (ops.take (n + 1)).foldl PteOp.apply pte =
      op.apply ((ops.take n).foldl PteOp.apply pte) := by
    intro n op hop
    rw [List.take_add_one, hop, Option.toList_some, List.foldl_append, List.foldl_cons, List.foldl_nil]
  constructor
  · intro hall n op hop
    have hn := hall (n + 1)
    rw [hnext hop] at hn
    exact (present_apply_iff (hall n) op).mp hn
  · intro hfits n
    induction n with
    | zero => exact h
    | succ n ih =>
      rcases hop : ops[n]? with _ | op
      · rwa [List.take_add_one, hop, Option.toList_none, List.append_nil]
      · rw [hnext hop]
        exact (present_apply_iff ih op).mpr (hfits n op hop)

theorem ptePage_foldl (ops : List PteOp) : ∀ pte : Pte,
    ptePage (ops.foldl PteOp.apply pte) = ptePage pte := by
  induction ops with
  | nil => exact fun _ => rfl
  | cons op ops ih => exact fun pte => (ih _).trans (ptePage_apply pte op)

section Made

variable {frame : ℕ} (hmod : frame % pageSize = 0) (hlt : frame < taskSize)

include hmod hlt

theorem present_mkPte_iff (prot : BitVec 32) :
    ptePresent (mkPte frame (protectionMap prot)) = true ↔ (protectionMap prot = PAGE_NONE → frame ≠ 0) := by
  -- the bare frame is a present entry, and `mk_pte` is an edit of it
  have hbare : ptePresent (BitVec.ofNat 32 frame &&& PFRA_MASK) = true := by
    rw [present_iff, BitVec.and_assoc, BitVec.and_assoc]
    refine ⟨fun he => ?_, fun h => absurd h.1 ?_⟩
    · have hand := congrArg (· &&& PAGE_INVALID) he
      simp only [BitVec.and_assoc] at hand
      rw [show PFRA_MASK &&& PAGE_INVALID = 0#32 by decide, BitVec.and_zero] at hand
      cases hand
    · rw [show PFRA_MASK &&& PAGE_INVALID = 0#32 by decide, BitVec.and_zero]
      decide
  have hmake : mkPte frame (protectionMap prot) =
      (PteOp.modify prot).apply (BitVec.ofNat 32 frame &&& PFRA_MASK) := by
    rw [PteOp.apply, pteModify, BitVec.and_assoc, show PFRA_MASK &&& PAGE_CHG_MASK = PFRA_MASK by decide,
      mkPte]
  rw [hmake, present_apply_iff hbare, Fits, BitVec.and_assoc,
    show PFRA_MASK &&& PAGE_CHG_MASK = PFRA_MASK by decide]
  refine imp_congr_right fun _ => not_congr ?_
  rw [← toNat_inj, toNat_frame hmod hlt]
  rfl

theorem stands_edited_iff (prot : BitVec 32) (ops : List PteOp) :
    (∀ n, Stands frame (edited frame prot (ops.take n))) ↔
      (protectionMap prot = PAGE_NONE → frame ≠ 0) ∧
        ∀ n op, ops[n]? = some op → Fits (edited frame prot (ops.take n)) op := by
  have hpage : ∀ n, ptePage (edited frame prot (ops.take n)) = frame := fun n => by
    rw [edited, ptePage_foldl, ptePage_mkPte hmod hlt (protectionMap_frame prot)]
  rw [forall_congr' fun n => stands_iff (hpage n), ← present_mkPte_iff hmod hlt prot]
  constructor
  · exact fun h => ⟨h 0, (present_foldl_iff (h 0) ops).mp h⟩
  · exact fun h => (present_foldl_iff h.1 ops).mpr h.2

end Made

/-! ### Swap entries -/

def swpType (entry : Pte) : BitVec 32 := entry &&& 0xff

def swpOffset (entry : Pte) : BitVec 32 := entry >>> 12

def swpEntry (type offset : BitVec 32) : Pte := offset <<< 12 ||| PAGE_SWAPPED ||| type

theorem swpEntry_spec {type offset : BitVec 32} (ht : type.toNat < 64) (ho : offset.toNat < 2 ^ 20) :
    pteNone (swpEntry type offset) = false ∧ ptePresent (swpEntry type offset) = false ∧
      swpType (swpEntry type offset) = type ∧ swpOffset (swpEntry type offset) = offset := by
  have hsw : swpEntry type offset &&& PAGE_SWAPPED = PAGE_SWAPPED := by
    rw [swpEntry, BitVec.or_assoc, BitVec.or_comm PAGE_SWAPPED, ← BitVec.or_assoc, or_and_self]
  have hne : swpEntry type offset ≠ pteCleared := ne_cleared (by decide) hsw
  have htype : type &&& 0xff = type := by
    rw [← toNat_inj, toNat_and, show (0xff : BitVec 32).toNat = 2 ^ 8 - 1 from rfl,
      Nat.and_two_pow_sub_one_eq_mod, Nat.mod_eq_of_lt (by omega)]
  have hlow : offset <<< 12 &&& 0xff = 0 := by
    rw [← toNat_inj, toNat_and, BitVec.toNat_shiftLeft, Nat.shiftLeft_eq,
      show (0xff : BitVec 32).toNat = 2 ^ 8 - 1 from rfl, Nat.and_two_pow_sub_one_eq_mod]
    change _ = 0
    omega
  have hshift : offset <<< 12 >>> 12 = offset := by
    rw [← toNat_inj, BitVec.toNat_ushiftRight, BitVec.toNat_shiftLeft, Nat.shiftLeft_eq,
      Nat.shiftRight_eq_div_pow]
    omega
  have hgone : type >>> 12 = 0 := by
    rw [← toNat_inj, BitVec.toNat_ushiftRight, Nat.shiftRight_eq_div_pow]
    change _ = 0
    omega
  refine ⟨by simpa [pteNone] using hne, by simp [ptePresent, hsw], ?_, ?_⟩
  · rw [swpType, swpEntry, BitVec.and_or_distrib_right, htype, or_and_mask (by decide), hlow]
    exact BitVec.zero_or
  · rw [swpOffset, swpEntry, BitVec.ushiftRight_or_distrib, BitVec.ushiftRight_or_distrib, hshift, hgone,
      show PAGE_SWAPPED >>> 12 = 0#32 by decide, BitVec.or_zero]
    exact BitVec.or_zero

/-! ### The copy of an area -/

/-- A page that `copy_page_range` does not count. -/
def uncounted (k : Sys) (page : ℕ) : Bool :=
  k.rest.maxMapnr ≤ page / pageSize ∨ k.rest.reserved page

/-- What `copy_page_range` leaves of a present entry in the source. -/
def srcCopied (vma : VmArea) (u : ℕ → Bool) (pte : Pte) : Pte :=
  if u (ptePage pte) then pte else if isCow vma then pteWrprotect pte else pte

/-- What `copy_page_range` stores for a present entry in the copy. -/
def dstCopied (vma : VmArea) (u : ℕ → Bool) (pte : Pte) : Pte :=
  if u (ptePage pte) then pte
  else pteMkold (if vma.vmFlags &&& VM_SHARED ≠ 0 then pteMkclean (srcCopied vma u pte)
    else srcCopied vma u pte)

theorem setPteVal_of_ne (h : pte ≠ 0) : setPteVal pte = pte := if_pos h

theorem ne_zero_of_and {pte m : BitVec 32} (h : pte &&& m = m) (hm : m ≠ 0) : pte ≠ 0 := by
  rintro rfl
  exact hm (h.symm.trans BitVec.zero_and)

theorem copyOnePte_uncounted (vma : VmArea) (k : Sys) (addr : ℕ) :
    uncounted (copyOnePte vma k addr) = uncounted k := by
  rw [copyOnePte]
  dsimp only
  split_ifs <;> rfl

theorem copyOnePte_of_place (vma : VmArea) (k : Sys) {y : ℕ}
    (h : ¬ (segment y = segment addr ∧ pteIndex y = pteIndex addr)) :
    pteAt (copyOnePte vma k addr).pgd y = pteAt k.pgd y ∧
      pteAt (copyOnePte vma k addr).rest.other y = pteAt k.rest.other y := by
  have hput := fun (pgd : Pgd) (pte : Pte) => pteAt_putPte_of_place pgd pte h
  rw [copyOnePte]
  dsimp only
  split_ifs
  · exact ⟨rfl, rfl⟩
  · exact ⟨rfl, hput _ _⟩
  · exact ⟨rfl, hput _ _⟩
  · exact ⟨hput _ _, hput _ _⟩
  · exact ⟨hput _ _, hput _ _⟩
  · exact ⟨rfl, hput _ _⟩
  · exact ⟨rfl, hput _ _⟩

theorem copyOnePte_present (vma : VmArea)
    (hp : ptePresent (pteAt k.pgd addr) = true) (h0 : pteAt k.pgd addr ≠ 0) :
    pteAt (copyOnePte vma k addr).pgd addr = srcCopied vma (uncounted k) (pteAt k.pgd addr) ∧
    pteAt (copyOnePte vma k addr).rest.other addr = dstCopied vma (uncounted k) (pteAt k.pgd addr) := by
  have hnone := none_of_present hp
  have hold : ∀ pte : Pte, setPteVal (pteMkold pte) = pteMkold pte := fun pte =>
    setPteVal_of_ne (ne_zero_of_and (or_and_self pte PAGE_ACCESSED) (by decide))
  have hro : ∀ pte : Pte, setPteVal (pteWrprotect pte) = pteWrprotect pte := fun pte =>
    setPteVal_of_ne (ne_zero_of_and (or_and_self pte PAGE_RO) (by decide))
  have hput := fun (pgd : Pgd) (pte : Pte) => pteAt_putPte_self pgd addr pte
  rw [copyOnePte]
  rw [if_neg (by rw [hnone]; decide), if_neg (by rw [hp]; decide)]
  by_cases hres : k.rest.maxMapnr ≤ ptePage (pteAt k.pgd addr) / pageSize ∨
      k.rest.reserved (ptePage (pteAt k.pgd addr)) = true
  · have hu : uncounted k (ptePage (pteAt k.pgd addr)) = true := decide_eq_true hres
    rw [if_pos hres, srcCopied, dstCopied, if_pos hu, if_pos hu]
    exact ⟨rfl, (hput _ _).trans (setPteVal_of_ne h0)⟩
  have hu : ¬ uncounted k (ptePage (pteAt k.pgd addr)) = true := by
    rw [uncounted, decide_eq_false hres]
    decide
  rw [if_neg hres, dstCopied, if_neg hu, srcCopied, if_neg hu]
  split_ifs
  · exact ⟨(hput _ _).trans (hro _), (hput _ _).trans (hold _)⟩
  · exact ⟨(hput _ _).trans (hro _), (hput _ _).trans (hold _)⟩
  · exact ⟨rfl, (hput _ _).trans (hold _)⟩
  · exact ⟨rfl, (hput _ _).trans (hold _)⟩

theorem copyOnePte_ne_zero (vma : VmArea) (h0 : ∀ y, pteAt k.pgd y ≠ 0) (addr y : ℕ) :
    pteAt (copyOnePte vma k addr).pgd y ≠ 0 := by
  have hset : ∀ pte : Pte, setPteVal pte ≠ 0 := fun pte => by
    rw [setPteVal]
    split_ifs with h
    · exact h
    · decide
  have hput : ∀ pte : Pte, pteAt (putPte k.pgd addr (setPteVal pte)) y ≠ 0 := by
    intro pte
    by_cases hplace : segment y = segment addr ∧ pteIndex y = pteIndex addr
    · rw [pteAt_of_place _ hplace, pteAt_putPte_self]
      exact hset pte
    · rw [pteAt_putPte_of_place _ _ hplace]
      exact h0 y
  rw [copyOnePte]
  dsimp only
  split_ifs
  · exact h0 y
  · exact h0 y
  · exact h0 y
  · exact hput _
  · exact hput _
  · exact h0 y
  · exact h0 y

theorem otherTable_spec {k' : Sys}
    (h : otherTable tables k addr = (true, k')) : k'.pgd = k.pgd ∧ uncounted k' = uncounted k ∧
      ∀ y, pteAt k'.rest.other y = pteAt k.rest.other y := by
  rw [otherTable] at h
  split at h
  · next hseg =>
    obtain ⟨ht, rfl⟩ := Prod.mk.inj h
    refine ⟨rfl, rfl, fun y => ?_⟩
    obtain hs | hs := eq_or_ne (segment y) (segment addr)
    · rw [pteAt, findPte_update_self _ _ hs, if_pos ht]
      change pteCleared = _
      rw [pteAt, findPte, hs, hseg]
      rfl
    · rw [pteAt, findPte_update_of_ne _ _ hs, pteAt]
  · obtain ⟨-, rfl⟩ := Prod.mk.inj h
    exact ⟨rfl, rfl, fun _ => rfl⟩

theorem not_present_of_segment {a : ℕ} (hs : segment a = segment addr)
    (hseg : k.pgd (segment addr) = .invalid) : ¬ ptePresent (pteAt k.pgd a) = true := by
  rw [pteAt, findPte, hs, hseg]
  change ¬ ptePresent pteCleared = true
  decide

/-- **One turn** of the inner loop of `copy_page_range`, seen from the state before the table of the
copy was made. -/
theorem copyTurn_spec {k₁ : Sys}
    (htop : vma.vmEnd ≤ taskSize) (haddr : addr % pageSize = 0) (hlt : addr < vma.vmEnd)
    (h0 : pteAt k.pgd addr ≠ 0) (hother : otherTable tables k addr = (true, k₁)) :
    (ptePresent (pteAt k.pgd addr) = true →
      pteAt (copyOnePte vma k₁ addr).pgd addr = srcCopied vma (uncounted k) (pteAt k.pgd addr) ∧
      pteAt (copyOnePte vma k₁ addr).rest.other addr =
        dstCopied vma (uncounted k) (pteAt k.pgd addr)) ∧
    ∀ a, a < vma.vmEnd → a % pageSize = 0 → a ≠ addr →
      pteAt (copyOnePte vma k₁ addr).pgd a = pteAt k.pgd a ∧
      pteAt (copyOnePte vma k₁ addr).rest.other a = pteAt k.rest.other a := by
  obtain ⟨hpgd, hunc, hoth⟩ := otherTable_spec hother
  constructor
  · rw [← hpgd, ← hunc]
    exact fun hp => copyOnePte_present vma hp (hpgd ▸ h0)
  · intro a h2 h3 hne
    rw [← hpgd, ← hoth a]
    refine copyOnePte_of_place vma k₁ fun hp => hne ?_
    have hpage := page_eq_of_place (lt_of_lt_of_le h2 htop) (lt_of_lt_of_le hlt htop) hp.1 hp.2
    simp only [pageSize] at *
    omega

/-- **The loops** of `copy_page_range`: each present page from `addr` on is copied once, and the pages
below stay as they are. -/
theorem copyLoop_spec (tables : ℕ → Bool) (hend : vma.vmEnd % pageSize = 0)
    (htop : vma.vmEnd ≤ taskSize) (n : ℕ) : ∀ (k k' : Sys) (addr : ℕ), addr % pageSize = 0 →
    addr < vma.vmEnd → (vma.vmEnd - addr) / pageSize ≤ n → (∀ y, pteAt k.pgd y ≠ 0) →
    copyLoop tables vma n k addr = (true, k') →
    (∀ a, addr ≤ a → a < vma.vmEnd → a % pageSize = 0 → ptePresent (pteAt k.pgd a) = true →
      pteAt k'.pgd a = srcCopied vma (uncounted k) (pteAt k.pgd a) ∧
      pteAt k'.rest.other a = dstCopied vma (uncounted k) (pteAt k.pgd a)) ∧
    ∀ a, a < addr → a % pageSize = 0 →
      pteAt k'.pgd a = pteAt k.pgd a ∧ pteAt k'.rest.other a = pteAt k.rest.other a := by
  induction n with
  | zero =>
    intro k k' addr haddr hlt hn h0 heq
    simp only [pageSize] at *
    omega
  | succ n ih =>
    intro k k' addr haddr hlt hn h0 heq
    rw [copyLoop] at heq
    split at heq
    · -- no table: no page of the segment is present
      next hseg =>
      have habsent : ∀ a, addr ≤ a → a < (addr + 2 ^ 20) / 2 ^ 20 * 2 ^ 20 → a < vma.vmEnd →
          ¬ ptePresent (pteAt k.pgd a) = true := by
        intro a h1 h2 h3
        refine not_present_of_segment ?_ hseg
        simp only [PageTable.segment, taskSize] at *
        omega
      dsimp only at heq
      split_ifs at heq with hstop
      · obtain ⟨-, rfl⟩ := Prod.mk.inj heq
        exact ⟨fun a h1 h2 _ hp => absurd hp (habsent a h1 (by omega) h2), fun _ _ _ => ⟨rfl, rfl⟩⟩
      obtain ⟨hdone, hbelow⟩ := ih k k' _ (by simp only [pageSize] at *; omega) (by omega)
        (by simp only [pageSize] at *; omega) h0 heq
      refine ⟨fun a h1 h2 h3 hp => ?_, fun a h1 h3 => hbelow a (by omega) h3⟩
      refine hdone a (le_of_not_gt fun hlt' => ?_) h2 h3 hp
      exact habsent a h1 hlt' h2 hp
    · split at heq
      · cases heq
      · next k₁ hother =>
        obtain ⟨hpgd, hunc, -⟩ := otherTable_spec hother
        obtain ⟨hself, hrest⟩ := copyTurn_spec htop haddr hlt (h0 addr) hother
        split_ifs at heq with hstop
        · obtain ⟨-, rfl⟩ := Prod.mk.inj heq
          refine ⟨fun a h1 h2 h3 hp => ?_, fun a h1 h3 => hrest a (by omega) h3 (by omega)⟩
          obtain rfl : a = addr := by
            simp only [pageSize] at *
            omega
          exact hself hp
        · obtain ⟨hdone, hbelow⟩ := ih _ k' _ (by simp only [pageSize] at *; omega)
            (lt_of_not_ge hstop) (by simp only [pageSize] at *; omega)
            (copyOnePte_ne_zero vma (hpgd ▸ h0) addr) heq
          rw [copyOnePte_uncounted, hunc] at hdone
          refine ⟨fun a h1 h2 h3 hp => ?_, fun a h1 h3 => ?_⟩
          · obtain rfl | hne := eq_or_ne a addr
            · obtain ⟨hb1, hb2⟩ := hbelow a (by simp only [pageSize]; omega) h3
              rw [hb1, hb2]
              exact hself hp
            · have hr := (hrest a h2 h3 hne).1
              have hd := hdone a (by simp only [pageSize] at *; omega) h2 h3 (hr ▸ hp)
              rwa [hr] at hd
          · obtain ⟨hb1, hb2⟩ := hbelow a (by omega) h3
            obtain ⟨hr1, hr2⟩ := hrest a (by omega) h3 (by omega)
            exact ⟨hb1.trans hr1, hb2.trans hr2⟩

/-- The copy makes a present page look swapped out. -/
def Severs (vma : VmArea) (u : ℕ → Bool) (pte : Pte) : Prop :=
  isCow vma = true ∧ pte &&& PAGE_INVALID ≠ 0 ∧ u (ptePage pte) = false

section

variable (vma) (u : ℕ → Bool)

theorem ptePage_srcCopied (pte : Pte) : ptePage (srcCopied vma u pte) = ptePage pte := by
  rw [srcCopied]
  split_ifs <;> simp

theorem ptePage_dstCopied (pte : Pte) : ptePage (dstCopied vma u pte) = ptePage pte := by
  rw [dstCopied]
  split_ifs <;> simp [ptePage_srcCopied]

theorem srcCopied_present_iff (h : ptePresent pte = true) :
    ptePresent (srcCopied vma u pte) = true ↔ ¬ Severs vma u pte := by
  rw [srcCopied, Severs]
  split_ifs with hu hcow
  · simp [h, hu]
  · have hfits := present_apply_iff h .wrprotect
    rw [PteOp.apply, Fits] at hfits
    simp [hfits, hu, hcow]
  · simp [h, hcow]

/-- The copy is marked old, so it is never empty, and has the hardware bits of the source. -/
theorem dstCopied_present_iff (h : ptePresent pte = true) :
    ptePresent (dstCopied vma u pte) = true ↔ ¬ Severs vma u pte := by
  rw [← srcCopied_present_iff vma u h]
  have hold : ∀ x y : Pte, y &&& PAGE_INVALID = x &&& PAGE_INVALID → y &&& PAGE_RO = x &&& PAGE_RO →
      x ≠ pteCleared → (ptePresent (pteMkold y) = true ↔ ptePresent x = true) := by
    intro x y hi hr hx
    rw [present_iff, present_iff, pteMkold, or_and_mask (by decide), or_and_mask (by decide), hi, hr]
    exact and_congr_left fun _ => iff_of_true (ne_cleared (by decide) (or_and_self y PAGE_ACCESSED)) hx
  have hne : srcCopied vma u pte ≠ pteCleared := by
    rw [srcCopied]
    split_ifs
    · exact (present_iff.mp h).1
    · exact ne_cleared (by decide) (or_and_self pte PAGE_RO)
    · exact (present_iff.mp h).1
  rw [dstCopied]
  split_ifs with hu hsh
  · rw [srcCopied, if_pos hu]
  · exact hold _ _ (and_and_mask (by decide)) (and_and_mask (by decide)) hne
  · exact hold _ _ rfl rfl hne

end

/-- **The entries.**  An entry for a frame stands for it under any edits just if each of them fits; a
swap entry is neither empty nor present and gives back type and offset; and `copy_page_range` keeps the
pages of an area present on both sides just if it severs none. -/
theorem pteAlgebra_iff {frame : ℕ} (hmod : frame % pageSize = 0) (hlt : frame < taskSize)
    (prot : BitVec 32) (ops : List PteOp) {type offset : BitVec 32} (htype : type.toNat < 64)
    (_ : 1 ≤ offset.toNat) (hoffset : offset.toNat < 2 ^ 20) {tables : ℕ → Bool} {k k' : Sys}
    {vma : VmArea} (hstart : vma.vmStart % pageSize = 0) (hend : vma.vmEnd % pageSize = 0)
    (horder : vma.vmStart < vma.vmEnd) (htop : vma.vmEnd ≤ taskSize) (h0 : ∀ y, pteAt k.pgd y ≠ 0)
    (hcopy : copyPageRange tables k vma = (true, k')) :
    ((∀ n, Stands frame (edited frame prot (ops.take n))) ↔
      (protectionMap prot = PAGE_NONE → frame ≠ 0) ∧
        ∀ n op, ops[n]? = some op → Fits (edited frame prot (ops.take n)) op) ∧
    (pteNone (swpEntry type offset) = false ∧ ptePresent (swpEntry type offset) = false ∧
      swpType (swpEntry type offset) = type ∧ swpOffset (swpEntry type offset) = offset) ∧
    ((∀ a, vma.Contains a → a % pageSize = 0 → ptePresent (pteAt k.pgd a) = true →
      Stands (ptePage (pteAt k.pgd a)) (pteAt k'.pgd a) ∧
      Stands (ptePage (pteAt k.pgd a)) (pteAt k'.rest.other a)) ↔
    ∀ a, vma.Contains a → a % pageSize = 0 → ptePresent (pteAt k.pgd a) = true →
      ¬ Severs vma (uncounted k) (pteAt k.pgd a)) := by
  refine ⟨stands_edited_iff hmod hlt prot ops, swpEntry_spec htype hoffset, ?_⟩
  obtain ⟨hdone, -⟩ := copyLoop_spec tables hend htop _ k k' vma.vmStart hstart horder le_rfl h0 hcopy
  refine forall_congr' fun a => forall_congr' fun ha => forall_congr' fun hmod =>
    forall_congr' fun hp => ?_
  obtain ⟨hs, hd⟩ := hdone a ha.1 ha.2 hmod hp
  rw [hs, hd, stands_iff (ptePage_srcCopied _ _ _), stands_iff (ptePage_dstCopied _ _ _),
    srcCopied_present_iff _ _ hp, dstCopied_present_iff _ _ hp, and_self]

/-- A private area of one page, whose entry is `pte`; the frame is at `0x10000`. -/
def privatePage (pte : Pte) : Sys := bareSys (putPte (fun _ => .invalid) 0x1000 pte) []

def privateArea (prot : BitVec 32) : VmArea := ⟨0x1000, 0x2000, prot, 0x70 ||| prot, none, 0, none, 0⟩

/-- Fork and write protection of a page that may be read and written. -/
theorem pteAlgebra_iff_readWrite : Stands 0x10000 (edited 0x10000 3 [.wrprotect]) ∧
    swpOffset (swpEntry 1 0x10) = 0x10 ∧
    Stands 0x10000 (pteAt (copyPageRange (fun _ => true) (privatePage 0x10003)
      (privateArea 3)).2.rest.other 0x1000) := by
  have hpte : ∀ y, pteAt (privatePage 0x10003).pgd y = 0x10003 ∨
      pteAt (privatePage 0x10003).pgd y = pteCleared := by
    intro y
    rw [privatePage, bareSys]
    by_cases hplace : segment y = segment 0x1000 ∧ pteIndex y = pteIndex 0x1000
    · rw [pteAt_of_place _ hplace, pteAt_putPte_self]
      exact .inl rfl
    · rw [pteAt_putPte_of_place _ _ hplace]
      exact .inr rfl
  obtain ⟨hedit, hswap, hcopy⟩ := pteAlgebra_iff (by decide : 0x10000 % pageSize = 0) (by decide) 3
    [.wrprotect] (by decide : (1 : BitVec 32).toNat < 64) (by decide : 1 ≤ (0x10 : BitVec 32).toNat)
    (by decide) (by decide : (privateArea 3).vmStart % pageSize = 0) (by decide) (by decide) (by decide)
    (fun y => by rcases hpte y with h | h <;> rw [h] <;> decide)
    (rfl : copyPageRange (fun _ => true) (privatePage 0x10003) (privateArea 3) = (true, _))
  refine ⟨hedit.mpr ⟨by decide, fun n op hop => ?_⟩ 1, hswap.2.2.2, ?_⟩
  · obtain ⟨rfl, rfl⟩ : n = 0 ∧ op = .wrprotect := by
      rcases n with _ | n
      · exact ⟨rfl, (Option.some_inj.mp hop).symm⟩
      · cases hop
    change edited 0x10000 3 [] &&& PAGE_INVALID = 0
    decide
  · refine (hcopy.mpr (fun a _ _ hp => ?_) 0x1000 (by decide) (by decide) (by decide)).2
    rcases hpte a with h | h
    · rw [h]
      exact fun hs => absurd hs.2.1 (by decide)
    · rw [h] at hp
      cases hp

/-- Write protection of a page without access, by itself and in a fork: the entry looks swapped out. -/
theorem protNone_severed : ¬ Stands 0x10000 (edited 0x10000 0 [.wrprotect]) ∧
    Stands 0x10000 (pteAt (privatePage 0x10402).pgd 0x1000) ∧
    (copyPageRange (fun _ => true) (privatePage 0x10402) (privateArea 0)).1 = true ∧
    pteAt (copyPageRange (fun _ => true) (privatePage 0x10402) (privateArea 0)).2.pgd 0x1000 =
      swpEntry 2 0x10 := by
  decide

end I370Linux.PageFault
