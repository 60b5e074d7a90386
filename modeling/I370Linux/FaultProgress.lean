import I370Linux.PteAlgebra
import I370Linux.StackGrowth

/-! # What a fault leaves behind

A fault that `do_page_fault` resolves should leave an entry that the hardware accepts, and every way out
should release `mmap_sem`; the kernel lock is empty on this machine, which has one processor.  A fault
does so if the area of the address permits some access and a present entry is in order (`InOrder`): a
segment or page translation exception is resolved for an area without any access too, and an entry that
is present and invalid stays so. -/

namespace I370Linux.PageFault

open Vma PageTable UserCopy
open Option (some_inj)
open BitVec (and_or_distrib_right and_zero)

/-! ### Pages -/

section Pages

variable {k k' : Sys} {ans : Answer} {page : ℕ}

theorem getFreePage_spec (h : getFreePage k ans = some (page, k')) : k' = setCount k page 1 := by
  rw [getFreePage] at h
  split at h
  · split_ifs at h
    obtain ⟨rfl, rfl⟩ := Prod.mk.inj (some_inj.mp h)
    rfl
  · cases h

theorem freePage_rest (k : Sys) (page : ℕ) : (freePage k page).pgd = k.pgd ∧
    (freePage k page).rest.lockDepth = k.rest.lockDepth := by
  rw [freePage]
  split_ifs <;> exact ⟨rfl, rfl⟩

end Pages

/-! ### Entries -/

/-- An entry that the hardware accepts for a read, made for the user. -/
def Live (pte : Pte) : Prop := pte &&& PAGE_INVALID = 0 ∧ pte &&& PAGE_USER = PAGE_USER

namespace Live

variable {pte : Pte} (h : Live pte)

include h

theorem set : setPteVal pte = pte := setPteVal_of_ne (ne_zero_of_and h.2 (by decide))

theorem mkwrite : Live (pteMkwrite pte) := by
  rw [Live, pteMkwrite, and_and_mask (by decide), and_and_mask (by decide)]
  exact h

theorem mkdirty : Live (pteMkdirty pte) := by
  rw [Live, pteMkdirty, or_and_mask (by decide), or_and_mask (by decide)]
  exact h

theorem wrprotect : Live (pteWrprotect pte) := by
  rw [Live, pteWrprotect, or_and_mask (by decide), or_and_mask (by decide)]
  exact h

end Live

theorem live_badPte (page : ℕ) : Live (badPte page) := by
  refine Live.mkdirty ⟨?_, ?_⟩
  · rw [mkPte, or_and_mask (by decide), BitVec.and_assoc,
      show PFRA_MASK &&& PAGE_INVALID = 0#32 by decide, and_zero]
    rfl
  · rw [mkPte, and_or_distrib_right, BitVec.and_assoc,
      show PFRA_MASK &&& PAGE_USER = 0#32 by decide, and_zero]
    decide

/-- The protection of the area allows some access. -/
def Accessible (vma : VmArea) : Prop := protectionMap vma.vmPageProt ≠ PAGE_NONE

variable {vma : VmArea} {old : Pte} {f : FaultInfo} {t : Task}

theorem Accessible.live (h : Accessible vma) : protectionMap vma.vmPageProt &&& PAGE_INVALID = 0 ∧
      protectionMap vma.vmPageProt &&& PAGE_USER = PAGE_USER :=
  (protectionMap_cases vma.vmPageProt).resolve_left h

theorem live_mkAreaPte (h : Accessible vma) (page : ℕ) : Live (mkAreaPte vma page) := by
  obtain ⟨hi, hu⟩ := h.live
  constructor
  · rw [mkAreaPte, mkPte, or_and_mask hi, BitVec.and_assoc,
      show PFRA_MASK &&& PAGE_INVALID = 0#32 by decide, and_zero]
    rfl
  · rw [mkAreaPte, mkPte, and_or_distrib_right, BitVec.and_assoc,
      show PFRA_MASK &&& PAGE_USER = 0#32 by decide, and_zero, hu]
    decide

theorem live_pteModify (h : Accessible vma) (pte : Pte) :
    Live (pteModify pte (protectionMap vma.vmPageProt)) := by
  obtain ⟨hi, hu⟩ := h.live
  constructor
  · rw [pteModify, or_and_mask hi, BitVec.and_assoc,
      show PAGE_CHG_MASK &&& PAGE_INVALID = 0#32 by decide, and_zero]
    rfl
  · rw [pteModify, and_or_distrib_right, BitVec.and_assoc,
      show PAGE_CHG_MASK &&& PAGE_USER = 0#32 by decide, and_zero, hu]
    decide

/-! ### The handlers -/

theorem pteAt_setPte (k : Sys) (addr : ℕ) (pte : Pte) :
    pteAt (setPte k addr pte).pgd addr = setPteVal pte := pteAt_putPte_self _ _ _

/-- A handler that succeeds has made an entry that the hardware accepts, if the area allows any access. -/
def Serves (vma : VmArea) (addr : ℕ) (r : Bool × Sys) : Prop :=
  Accessible vma → r.1 = true → Live (pteAt r.2.pgd addr)

section Handlers

variable {k : Sys} {vma : VmArea} {addr : ℕ} (ans : Answer)

theorem Serves.of_setPte {k' : Sys} {pte : Pte} (hlive : Accessible vma → Live pte) :
    Serves vma addr (true, setPte k' addr pte) := fun ha _ => by
  rw [pteAt_setPte, (hlive ha).set]
  exact hlive ha

theorem doAnonymousPage_serves (write : Bool) :
    Serves vma addr (doAnonymousPage k ans vma addr write) := by
  rw [doAnonymousPage]
  split_ifs
  · split
    · exact fun _ h => absurd h nofun
    · exact .of_setPte fun ha => (live_mkAreaPte ha _).mkdirty.mkwrite
  · exact .of_setPte fun ha => (live_mkAreaPte ha _).wrprotect

theorem doNoPage_serves (write : Bool) : Serves vma addr (doNoPage k ans vma addr write) := by
  rw [doNoPage]
  by_cases hno : (!hasNopage vma) = true
  · rw [if_pos hno]
    exact doAnonymousPage_serves ans write
  rw [if_neg hno]
  split
  · exact fun _ h => absurd h nofun
  · next page k' hpage =>
    refine .of_setPte fun ha => ?_
    have hentry := live_mkAreaPte ha page
    split_ifs
    · exact hentry.mkdirty.mkwrite
    · exact hentry.wrprotect
    · exact hentry

theorem swapIn_serves (entry : Pte) (write : Bool) :
    Serves vma addr (true, unlockKernel (swapIn k ans vma addr entry write)) := by
  rw [swapIn]
  split
  · exact @Serves.of_setPte vma addr (unlockKernel (swapFree k entry)) _ fun _ => live_badPte _
  · next page k' hpage =>
    dsimp only
    split_ifs
    · exact @Serves.of_setPte vma addr (unlockKernel (swapFree k' entry)) _ fun ha => live_mkAreaPte ha page
    · exact @Serves.of_setPte vma addr (unlockKernel (deleteFromSwapCache (swapFree k' entry) page)) _
        fun ha => (live_mkAreaPte ha page).mkdirty.mkwrite

theorem live_shmSwapIn (ha : Accessible vma) (entry : Pte) : Live (shmSwapIn k ans vma entry).1 := by
  rw [shmSwapIn]
  by_cases hp : ptePresent (k.rest.shmPages (entry >>> 12).toNat) = true
  · rw [if_pos hp]
    exact live_pteModify ha _
  rw [if_neg hp]
  split
  · exact live_badPte _
  · exact live_pteModify ha _

theorem doSwapPage_serves (entry : Pte) (write : Bool) :
    Serves vma addr (doSwapPage k ans vma addr entry write) := by
  rw [doSwapPage]
  by_cases hs : (!hasSwapin vma) = true
  · rw [if_pos hs]
    exact swapIn_serves ans entry write
  rw [if_neg hs]
  have hlive : Accessible vma → Live (shmSwapIn k ans vma entry).1 := fun ha => live_shmSwapIn ans ha entry
  rcases hshm : shmSwapIn k ans vma entry with ⟨page, k'⟩
  rw [hshm] at hlive
  refine @Serves.of_setPte vma addr (unlockKernel k') _ fun ha => ?_
  split_ifs
  · exact (hlive ha).wrprotect
  · exact hlive ha

theorem doWpPage_spec (pte : Pte) (h : (doWpPage k ans vma addr pte).1 = true) :
    ∃ entry, (entry = pte ∨ (Accessible vma → Live entry)) ∧
      pteAt (doWpPage k ans vma addr pte).2.pgd addr = setPteVal (pteMkdirty (pteMkwrite entry)) := by
  revert h
  rw [doWpPage]
  split_ifs with hmap hone hswap
  · exact fun h => absurd h nofun
  · exact fun _ => ⟨pte, .inl rfl, pteAt_setPte ..⟩
  · exact fun _ => ⟨pte, .inl rfl, pteAt_setPte ..⟩
  · split
    · exact fun h => absurd h nofun
    · next newPage k' hfree =>
      refine fun _ => ⟨mkAreaPte vma newPage, .inr fun ha => live_mkAreaPte ha _, ?_⟩
      rw [(freePage_rest _ _).1, pteAt_setPte, pteMkwrite, pteMkdirty, and_or_distrib_right]
      rfl

end Handlers

/-! ### A fault in an area -/

/-- What a fault at an entry `old` of an area with some access leaves there. -/
structure Leaves (old : Pte) (write : Bool) (new : Pte) : Prop where
  fresh : ptePresent old = false → new &&& PAGE_INVALID = 0
  kept : ptePresent old = true →
    (new &&& PAGE_INVALID = 0 ↔ old &&& PAGE_INVALID = 0 ∧ (write = false → pteMkyoung old ≠ 0))
  writable : ptePresent old = true → write = true → new &&& PAGE_RO = 0

theorem mkyoung_invalid (pte : Pte) : pteMkyoung pte &&& PAGE_INVALID = pte &&& PAGE_INVALID :=
  and_and_mask (by decide)

theorem Leaves.young (hp : ptePresent old = true) : Leaves old false (setPteVal (pteMkyoung old)) where
  fresh := fun h => absurd (hp.symm.trans h) (by decide)
  kept := fun _ => by
    rw [setPteVal]
    split_ifs with h0
    · rw [mkyoung_invalid]
      exact (and_iff_left fun _ => h0).symm
    · exact iff_of_false (by decide) fun h => h.2 rfl (not_not.mp h0)
  writable := fun _ => nofun

theorem Leaves.dirty {entry : Pte} (hp : ptePresent old = true)
    (h : entry = pteMkyoung old ∨ old &&& PAGE_INVALID = 0 ∧ Live entry) :
    Leaves old true (setPteVal (pteMkdirty (pteMkwrite entry))) := by
  have hd : pteMkdirty (pteMkwrite entry) &&& PAGE_DIRTY = PAGE_DIRTY := or_and_self _ _
  have hi : pteMkdirty (pteMkwrite entry) &&& PAGE_INVALID = entry &&& PAGE_INVALID :=
    (or_and_mask (by decide)).trans (and_and_mask (by decide))
  have hr : pteMkdirty (pteMkwrite entry) &&& PAGE_RO = 0 := by
    rw [pteMkdirty, or_and_mask (by decide), pteMkwrite, BitVec.and_assoc,
      show ~~~PAGE_RO &&& PAGE_RO = 0#32 by decide]
    exact and_zero
  rw [setPteVal_of_ne (ne_zero_of_and hd (by decide))]
  refine ⟨fun h => absurd (hp.symm.trans h) (by decide), fun _ => ?_, fun _ _ => hr⟩
  rw [hi]
  obtain rfl | ⟨hold, hlive⟩ := h
  · rw [mkyoung_invalid]
    exact (and_iff_left Bool.noConfusion).symm
  · exact iff_of_true hlive.1 ⟨hold, Bool.noConfusion⟩

theorem leaves_badPte (page : ℕ) (write : Bool) : Leaves (badPte page) write (badPte page) where
  fresh := fun _ => (live_badPte page).1
  kept := fun _ => iff_of_true (live_badPte page).1 ⟨(live_badPte page).1, fun _ => by
    have hu : pteMkyoung (badPte page) &&& PAGE_USER = PAGE_USER := by
      rw [pteMkyoung, and_and_mask (by decide)]
      exact (live_badPte page).2
    exact ne_zero_of_and hu (by decide)⟩
  writable := fun _ _ => by
    rw [badPte, pteMkdirty, or_and_mask (by decide), mkPte, or_and_mask (by decide), BitVec.and_assoc,
      show PFRA_MASK &&& PAGE_RO = 0#32 by decide]
    exact and_zero

section Fault

variable (k : Sys) {vma : VmArea} (addr : ℕ) (write : Bool)

theorem handlePteFault_spec (ans : Answer) (ha : Accessible vma)
    (hok : (handlePteFault k ans vma addr write).1 = true) :
    Leaves (pteAt k.pgd addr) write (pteAt (handlePteFault k ans vma addr write).2.pgd addr) := by
  have of_serves : ∀ {r : Bool × Sys}, ptePresent (pteAt k.pgd addr) = false → Serves vma addr r → r.1 = true →
      Leaves (pteAt k.pgd addr) write (pteAt r.2.pgd addr) := fun hp hr hok =>
    ⟨fun _ => (hr ha hok).1, fun h => absurd (hp.symm.trans h) (by decide),
      fun h => absurd (hp.symm.trans h) (by decide)⟩
  revert hok
  rw [handlePteFault]
  rw [show (lockKernel k).pgd = k.pgd from rfl]
  rcases hp : ptePresent (pteAt k.pgd addr) with _ | _
  · rw [if_pos (by decide)]
    split_ifs
    · exact of_serves hp (doNoPage_serves ans write)
    · exact of_serves hp (doSwapPage_serves ans _ write)
  · rw [if_neg (by decide)]
    obtain _ | _ := write
    · rw [if_neg (by decide)]
      exact fun _ => (pteAt_setPte (lockKernel k) addr _).symm ▸ Leaves.young hp
    rw [if_pos rfl]
    rcases hw : pteWrite (pteMkyoung (pteAt k.pgd addr)) with _ | _
    · rw [if_pos (by decide)]
      intro hok
      obtain ⟨entry, hentry, heq⟩ := doWpPage_spec ans (pteMkyoung (pteAt k.pgd addr)) hok
      rw [heq]
      refine Leaves.dirty hp (hentry.imp_right fun hlive => ⟨?_, hlive ha⟩)
      -- an entry that is write protected and present is valid
      have hro : pteAt k.pgd addr &&& PAGE_RO = PAGE_RO := by
        refine (and_ro _).resolve_left fun h0 => ?_
        rw [pteWrite, pteMkyoung, and_and_mask (by decide), h0] at hw
        cases hw
      exact (and_invalid _).resolve_right fun hi => (present_iff.mp hp).2 ⟨hi, hro⟩
    · rw [if_neg (by decide)]
      intro _
      have hleaves := Leaves.dirty hp (.inl rfl)
      rw [mkwrite_of_write hw] at hleaves
      exact (pteAt_setPte (setPte (lockKernel k) addr _) addr _).symm ▸ hleaves

theorem handleMmFault_spec (ha : Accessible vma) (hok : (handleMmFault k vma addr write).1 = true) :
    Leaves (pteAt k.pgd addr) write (pteAt (handleMmFault k vma addr write).2.pgd addr) := by
  revert hok
  rw [handleMmFault]
  split
  · next page hs =>
    intro _
    have hpte : pteAt k.pgd addr = badPte page := by rw [pteAt, findPte, hs, Option.getD_some]
    rw [hpte]
    exact leaves_badPte page write
  · exact handlePteFault_spec { k with rest := { k.rest with answers := k.rest.answers.tail } } addr write _ ha
  · next hs =>
    split_ifs
    · have hpte : pteAt (Function.update k.pgd (PageTable.segment addr) (.table fun _ => pteCleared))
          addr = pteAt k.pgd addr := by
        rw [pteAt, pteAt, findPte_update_self _ _ rfl, findPte, findPte, hs]
        rfl
      have hspec := @handlePteFault_spec { k with
        pgd := Function.update k.pgd (PageTable.segment addr) (.table fun _ => pteCleared)
        rest := { k.rest with answers := k.rest.answers.tail } } vma addr write
        (k.rest.answers.headD noAnswer) ha
      rw [hpte] at hspec
      exact hspec
    · exact False.elim

end Fault

/-! ### The whole -/

def Permits (a : VmArea) : Prop := a.vmFlags &&& (VM_READ ||| VM_WRITE ||| VM_EXEC) ≠ 0

instance (a : VmArea) : Decidable (Permits a) := inferInstanceAs (Decidable (_ ≠ _))

theorem accessible_iff {a : VmArea} (h : protectionMap a.vmPageProt = protectionMap a.vmFlags) :
    Accessible a ↔ Permits a := by
  have hsplit : a.vmFlags &&& (VM_READ ||| VM_WRITE ||| VM_EXEC) =
      a.vmFlags &&& VM_WRITE ||| a.vmFlags &&& (VM_READ ||| VM_EXEC) := by
    rw [← BitVec.and_or_distrib_left]
    rfl
  have hzero : a.vmFlags &&& (VM_READ ||| VM_WRITE ||| VM_EXEC) = 0 ↔
      a.vmFlags &&& VM_WRITE = 0 ∧ a.vmFlags &&& (VM_READ ||| VM_EXEC) = 0 := by
    rw [hsplit]
    exact BitVec.or_eq_zero_iff
  rw [Accessible, h, Permits, protectionMap]
  split_ifs with hw hs hr
  · exact iff_of_true (by decide) fun h => hw (hzero.mp h).1
  · exact iff_of_true (by decide) fun h => hw (hzero.mp h).1
  · exact iff_of_true (by decide) fun h => hr (hzero.mp h).2
  · exact iff_of_false (not_not_intro rfl) (not_not_intro (hzero.mpr ⟨not_not.mp hw, not_not.mp hr⟩))

/-- The area that `do_page_fault` accepts, after growing it if need be. -/
structure Accepts (f : FaultInfo) (t t' : Task) (i : ℕ) (write : Bool) : Prop where
  found : t.mm.mmap.find? (fun i => trxAddr f.address < (t.mm.vma i).vmEnd) = some i
  flags : (t'.mm.vma i).vmFlags = (t.mm.vma i).vmFlags
  sys : t'.sys = t.sys
  mmapSem : t'.mmapSem = t.mmapSem
  ordered : Ordered t'.mm.vma t'.mm.mmap
  mem : i ∈ t'.mm.mmap
  contains : (t'.mm.vma i).Contains (trxAddr f.address)
  write_eq : write = decide ((t'.mm.vma i).vmFlags &&& VM_WRITE ≠ 0)
  protection : f.pic = .protection → (t'.mm.vma i).vmFlags &&& VM_WRITE ≠ 0
  prot : (∀ j ∈ t.mm.mmap, protectionMap (t.mm.vma j).vmPageProt = protectionMap (t.mm.vma j).vmFlags) →
    protectionMap (t'.mm.vma i).vmPageProt = protectionMap (t'.mm.vma i).vmFlags

theorem checkArea_accepts {t' : Task} {i : ℕ} {write : Bool} (hw : t.mm.WellFormed)
    (hcache : ∀ i ∈ t.mm.mmapCache, i ∈ t.mm.mmap) (h : checkArea f t = (t', some (i, write))) :
    Accepts f t t' i write := by
  obtain ⟨hfirst, c, hc, -⟩ := findVma_spec (trxAddr f.address) hw hcache
  rcases hfind : t.mm.mmap.find? (fun i => trxAddr f.address < (t.mm.vma i).vmEnd) with _ | j
  · have hnone : findVma t.mm (trxAddr f.address) = (none, { t.mm with mmapCache := c }) :=
      Prod.ext (hfirst.trans hfind) hc
    rw [checkArea] at h
    simp only [hnone] at h
    cases congrArg Prod.snd h
  · have hfound : findVma t.mm (trxAddr f.address) = (some j, { t.mm with mmapCache := c }) :=
      Prod.ext (hfirst.trans hfind) hc
    have hmem := List.mem_of_find?_eq_some hfind
    have hend : trxAddr f.address < (t.mm.vma j).vmEnd := by simpa using List.find?_some hfind
    obtain hle | hlt := le_or_gt (t.mm.vma j).vmStart (trxAddr f.address)
    · rw [checkArea_inside f hfound hle] at h
      split_ifs at h
      · cases congrArg Prod.snd h
      obtain ⟨hmm, hsys, hsem, hok⟩ := goodArea_spec f
        { t with mm := { t.mm with mmapCache := c } } j
      rw [h] at hmm hsys hsem hok
      obtain ⟨rfl, hwr, hpic⟩ := hok i write rfl
      refine ⟨hfind, ?_, hsys, hsem, ?_, ?_, ?_, ?_, ?_, ?_⟩ <;> rw [hmm]
      · exact hw.ordered
      · exact hmem
      · exact ⟨hle, hend⟩
      · exact hwr
      · exact hpic
      · exact fun hprot => hprot i hmem
    · rw [checkArea_below f hfound hlt] at h
      split_ifs at h
      · obtain ⟨hmm, hsys, hsem, hok⟩ := goodArea_spec f
          { t with mm := grown { t.mm with mmapCache := c } j (trxAddr f.address) } j
        rw [h] at hmm hsys hsem hok
        obtain ⟨rfl, hwr, hpic⟩ := hok i write rfl
        have hself := grown_vma { t.mm with mmapCache := c } i (trxAddr f.address) i
        rw [if_pos rfl, trxAddr_page] at hself
        refine ⟨hfind, ?_, hsys, hsem, ?_, ?_, ?_, ?_, ?_, ?_⟩ <;> rw [hmm]
        · rw [hself]
        · exact @grown_ordered { t.mm with mmapCache := c } i _ hw.ordered (trxAddr_mod _) hfind hlt
        · exact hmem
        · rw [hself]
          exact ⟨le_rfl, hend⟩
        · exact hwr
        · exact hpic
        · rw [hself]
          exact fun hprot => hprot i hmem
      · cases congrArg Prod.snd h

/-- What a fault should come to: if it is resolved, the address lies in an area with some access, the hardware accepts the
entry, and a second fault makes it writable in a writable area; and `mmap_sem` is released. -/
structure Progress (f : FaultInfo) (t : Task) (r : Outcome × Task) : Prop where
  area : r.1 = .returns 0 → ∃ i ∈ r.2.mm.mmap, (r.2.mm.vma i).Contains (trxAddr f.address) ∧
    Permits (r.2.mm.vma i) ∧ (f.pic = .protection → (r.2.mm.vma i).vmFlags &&& VM_WRITE ≠ 0)
  entry : r.1 = .returns 0 → pteAt r.2.sys.pgd (trxAddr f.address) &&& PAGE_INVALID = 0 ∧
    ptePresent (pteAt r.2.sys.pgd (trxAddr f.address)) = true
  store : r.1 = .returns 0 → ∀ i ∈ r.2.mm.mmap, (r.2.mm.vma i).Contains (trxAddr f.address) →
    (r.2.mm.vma i).vmFlags &&& VM_WRITE ≠ 0 →
      ptePresent (pteAt t.sys.pgd (trxAddr f.address)) = true →
        pteAt r.2.sys.pgd (trxAddr f.address) &&& PAGE_RO = 0
  locks : ∀ v, r.1 = .returns v → r.2.mmapSem = t.mmapSem

/-- Before the fault: the area that `find_vma` finds permits some access, and an entry that is present is one that the
hardware accepts. -/
def InOrder (f : FaultInfo) (t : Task) : Prop :=
  ∀ i, t.mm.mmap.find? (fun i => trxAddr f.address < (t.mm.vma i).vmEnd) = some i →
    Permits (t.mm.vma i) ∧
    (ptePresent (pteAt t.sys.pgd (trxAddr f.address)) = true →
      pteAt t.sys.pgd (trxAddr f.address) &&& PAGE_INVALID = 0 ∧
        ((t.mm.vma i).vmFlags &&& VM_WRITE = 0 → pteMkyoung (pteAt t.sys.pgd (trxAddr f.address)) ≠ 0))

theorem Progress.of_not_returns {r : Outcome × Task} (h : ∀ v, r.1 ≠ .returns v) : Progress f t r :=
  ⟨fun h0 => absurd h0 (h 0), fun h0 => absurd h0 (h 0), fun h0 => absurd h0 (h 0),
    fun v hv => absurd hv (h v)⟩

theorem present_of_valid {pte : Pte} (h : pte &&& PAGE_INVALID = 0) : ptePresent pte = true := by
  refine present_iff.mpr ⟨?_, fun hsw => absurd (h.symm.trans hsw.1) (by decide)⟩
  rintro rfl
  cases h

section Progress

variable {f : FaultInfo} {t t' : Task} {i : ℕ} {write : Bool}

theorem doPageFault_accepted (hctx : contextOk f = true) (huser : f.userMode = true)
    (hcheck : checkArea f (enter t) = (t', some (i, write))) :
    doPageFault f t =
      if (handleMmFault t'.sys (t'.mm.vma i) (trxAddr f.address) write).1 then
        (.returns 0, { upMmapSem t' with
          sys := unlockKernel (handleMmFault t'.sys (t'.mm.vma i) (trxAddr f.address) write).2 })
      else (.returns 1, { upMmapSem t' with
        sys := (handleMmFault t'.sys (t'.mm.vma i) (trxAddr f.address) write).2 }) := by
  rw [doPageFault_of_context hctx, hcheck]
  dsimp only
  obtain ⟨_ | _, k⟩ := handleMmFault t'.sys (t'.mm.vma i) (trxAddr f.address) write
  · rw [huser]
    rfl
  · rfl

/-- **Progress and balance.**  A fault in user mode at an area and an entry that are in order makes progress and gives
`mmap_sem` back; and one that is resolved makes progress only there. -/
theorem progress_of_inOrder (hw : t.mm.WellFormed) (hcache : ∀ i ∈ t.mm.mmapCache, i ∈ t.mm.mmap)
    (hprot : ∀ i ∈ t.mm.mmap, protectionMap (t.mm.vma i).vmPageProt = protectionMap (t.mm.vma i).vmFlags)
    (huser : f.userMode = true) : (InOrder f t → Progress f t (doPageFault f t)) ∧
      ((doPageFault f t).1 = .returns 0 → Progress f t (doPageFault f t) → InOrder f t) := by
  have hnot : (∀ v, (doPageFault f t).1 ≠ .returns v) → (InOrder f t → Progress f t (doPageFault f t)) ∧
      ((doPageFault f t).1 = .returns 0 → Progress f t (doPageFault f t) → InOrder f t) := fun h =>
    ⟨fun _ => .of_not_returns h, fun h0 => absurd h0 (h 0)⟩
  rcases hctx : contextOk f with _ | _
  · refine hnot fun v hv => ?_
    rw [(doPageFault_of_not_context hctx t).1] at hv
    cases hv
  rcases hcheck : checkArea f (enter t) with ⟨t', _ | ⟨i, write⟩⟩
  · refine hnot fun v hv => ?_
    rw [doPageFault_of_context hctx, hcheck] at hv
    split_ifs at hv
  have hacc := checkArea_accepts (t := enter t) hw hcache hcheck
  have hperm := accessible_iff (hacc.prot hprot)
  have hpermits : Permits (t'.mm.vma i) ↔ Permits (t.mm.vma i) := by
    rw [Permits, Permits, hacc.flags]
    rfl
  have hret := doPageFault_accepted hctx huser hcheck
  have hpgd : t'.sys.pgd = t.sys.pgd := by
    rw [hacc.sys]
    rfl
  have hsem : (upMmapSem t').mmapSem = t.mmapSem := by
    rw [upMmapSem, hacc.mmapSem]
    exact add_sub_cancel_right _ _
  have hread : write = false ↔ (t.mm.vma i).vmFlags &&& VM_WRITE = 0 := by
    rw [hacc.write_eq, hacc.flags, decide_eq_false_iff_not, not_not]
    rfl
  have hhandled := @handleMmFault_spec t'.sys (t'.mm.vma i) (trxAddr f.address) write
  rw [hpgd] at hhandled
  -- the area of the address is the only one
  have hunique : ∀ j ∈ t'.mm.mmap, (t'.mm.vma j).Contains (trxAddr f.address) → j = i :=
    fun j hj hc => some_inj.mp ((find?_of_contains _ hacc.ordered hj hc).symm.trans
      (find?_of_contains _ hacc.ordered hacc.mem hacc.contains))
  rcases hok : (handleMmFault t'.sys (t'.mm.vma i) (trxAddr f.address) write).1 with _ | _
  · rw [hok, if_neg (by decide)] at hret
    rw [hret]
    exact ⟨fun _ => ⟨nofun, nofun, nofun, fun _ _ => hsem⟩, nofun⟩
  · rw [hok, if_pos rfl] at hret
    rw [hret]
    constructor
    · intro h
      obtain ⟨hpi, hold⟩ := h i hacc.found
      have hl := hhandled (hperm.mpr (hpermits.mpr hpi)) hok
      have hvalid : pteAt (handleMmFault t'.sys (t'.mm.vma i) (trxAddr f.address) write).2.pgd
          (trxAddr f.address) &&& PAGE_INVALID = 0 := by
        rcases hp : ptePresent (pteAt t.sys.pgd (trxAddr f.address)) with _ | _
        · exact hl.fresh hp
        · exact (hl.kept hp).mpr ((hold hp).imp_right fun h hwr => h (hread.mp hwr))
      refine ⟨fun _ => ⟨i, hacc.mem, hacc.contains, hpermits.mpr hpi, hacc.protection⟩,
        fun _ => ⟨hvalid, present_of_valid hvalid⟩, fun _ j hj hcont hwj hp => ?_, fun v _ => hsem⟩
      obtain rfl := hunique j hj hcont
      exact hl.writable hp (hacc.write_eq.trans (decide_eq_true hwj))
    · intro _ h j hj
      obtain rfl : i = j := some_inj.mp (hacc.found.symm.trans hj)
      obtain ⟨i', hi', hcont, hpi, -⟩ := h.area rfl
      obtain rfl := hunique i' hi' hcont
      refine ⟨hpermits.mp hpi, fun hp => ?_⟩
      exact (((hhandled (hperm.mpr hpi) hok).kept hp).mp (h.entry rfl).1).imp_right fun h hwr => h (hread.mpr hwr)

end Progress

/-- A read fault in a page of the data area is resolved. -/
theorem progress_of_inOrder_read : (doPageFault (userRead 0x7fff0123) (windowTask 0)).1 = .returns 0 ∧
    Progress (userRead 0x7fff0123) (windowTask 0) (doPageFault (userRead 0x7fff0123) (windowTask 0)) := by
  have hfind : (windowTask 0).mm.mmap.find? (fun i => trxAddr (userRead 0x7fff0123).address <
      ((windowTask 0).mm.vma i).vmEnd) = some 0 := by decide
  refine ⟨by decide, (progress_of_inOrder (by decide) (by decide) (by decide) rfl).1 fun i hi => ?_⟩
  obtain rfl : 0 = i := some_inj.mp (hfind.symm.trans hi)
  decide

/-- A task with one area without any access, in the stack window. -/
def noneTask : Task :=
  { windowTask 0 with mm := .ofAreas [⟨0x7fff0000, 0x7fff1000, 0, 0x70, none, 0, none, 0⟩] }

/-- **A read in an area without access.** It is resolved, with an entry that is invalid and looks swapped out, so that the
read faults again. -/
theorem none_area_refaults : noneTask.mm.Books 0 0 ∧ (doPageFault (userRead 0x7fff0123) noneTask).1 = .returns 0 ∧
    ptePresent (pteAt (doPageFault (userRead 0x7fff0123) noneTask).2.sys.pgd 0x7fff0000) = false ∧
    ¬ Progress (userRead 0x7fff0123) noneTask (doPageFault (userRead 0x7fff0123) noneTask) := by
  have hentry : ptePresent (pteAt (doPageFault (userRead 0x7fff0123) noneTask).2.sys.pgd 0x7fff0000) = false := by
    decide
  have hret : (doPageFault (userRead 0x7fff0123) noneTask).1 = .returns 0 := by decide
  refine ⟨by decide, hret, hentry, fun h => ?_⟩
  have hpresent := (h.entry hret).2
  rw [show trxAddr (userRead 0x7fff0123).address = 0x7fff0000 by decide, hentry] at hpresent
  cases hpresent

end I370Linux.PageFault
