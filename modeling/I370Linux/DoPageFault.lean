import I370Linux.VmaInvariant
import I370Linux.PageFault

/-! # The page fault handler

The model of `do_page_fault` of `arch/i370/kernel/fault.c` and of `expand_stack` of `linux/mm.h`.  The
page tables and the frames are those of `PageFault`, the areas those of `Vma`.  What the handler finds
in the registers and in the task comes with the fault.  The messages and the check of control register
1 apart from its outcome are left out. -/

namespace I370Linux.PageFault

open Vma PageTable UserCopy

/-- The program interruptions that lead to `do_page_fault`. -/
inductive Pic where
  | protection
  | segmentTrans
  | pageTrans
deriving DecidableEq, Repr

structure FaultInfo where
  address : ℕ
  pic : Pic
  userMode : Bool
  inInterrupt : Bool
  initMm : Bool
  cr1Ok : Bool
  pid : ℕ
  rlimStack : ℕ
  rlimAs : ℕ
  /-- The length of the instruction, at `PFX_PRG_CODE`. -/
  ilc : ℕ

/-- The address space of the task, the frames, how often `mmap_sem` is held, and the address in the
program status word. -/
structure Task where
  mm : Mm
  sys : Sys
  mmapSem : ℤ
  pswAddr : ℕ

/-- How `do_page_fault` ends: it returns, `do_exit` ends the task, or `i370_halt` stops the machine. -/
inductive Outcome where
  | returns (value : ℕ)
  | exits
  | halts
deriving DecidableEq, Repr

/-- `STACK_TOP - I370_STACK_SIZE`. -/
abbrev frameBase : ℕ := taskSize - 0x800000

/-- `address & MASK_TRXADDR`. -/
def trxAddr (address : ℕ) : ℕ := address % taskSize / pageSize * pageSize

/-- The bytes by which `expand_stack` moves the start of an area. -/
def growth (a : VmArea) (address : ℕ) : ℕ := a.vmStart - address / pageSize * pageSize

/-- The tests of `expand_stack`, on `unsigned long`. -/
def withinLimits (f : FaultInfo) (mm : Mm) (a : VmArea) (address : ℕ) : Bool :=
  a.vmEnd - address / pageSize * pageSize ≤ f.rlimStack ∧
    ((mm.totalVm * pageSize) % 2 ^ 32 + growth a address) % 2 ^ 32 ≤ f.rlimAs

/-- What `expand_stack` makes of the area and of the counters. -/
def grown (mm : Mm) (i address : ℕ) : Mm :=
  let a := mm.vma i
  let grow := growth a address
  { mm.setVma i { a with
      vmStart := address / pageSize * pageSize
      vmOffset := a.vmOffset - BitVec.ofNat 32 grow } with
    totalVm := mm.totalVm + (grow / pageSize : ℕ)
    lockedVm := mm.lockedVm + if a.locked then ((grow / pageSize : ℕ) : ℤ) else 0 }

/-- `expand_stack`; `none` is `-ENOMEM`. -/
def expandStack (f : FaultInfo) (mm : Mm) (i address : ℕ) : Option Mm :=
  if withinLimits f mm (mm.vma i) address then some (grown mm i address) else none

/-- The part of `do_page_fault` behind the label `good_area`: whether to ask for a writable page. -/
def goodArea (f : FaultInfo) (t : Task) (i : ℕ) : Task × Option (ℕ × Bool) :=
  let writable : Bool := (t.mm.vma i).vmFlags &&& VM_WRITE ≠ 0
  if f.pic = .protection then
    if !writable then (t, none) else ({ t with pswAddr := t.pswAddr - f.ilc }, some (i, true))
  else (t, some (i, writable))

/-- The checks of `do_page_fault` on the area; `none` is `bad_area`. -/
def checkArea (f : FaultInfo) (t : Task) : Task × Option (ℕ × Bool) :=
  let address := trxAddr f.address
  let (found, mm) := findVma t.mm address
  let t := { t with mm := mm }
  match found with
  | none => (t, none)
  | some i =>
    let vma := mm.vma i
    if vma.vmFlags &&& VM_IO ≠ 0 then (t, none)
    else if vma.vmStart ≤ address then goodArea f t i
    else if f.pic = .protection ∧ address < 0x200 then (t, none)
    else if !f.userMode then (t, none)
    else if address < frameBase then (t, none)
    else
      match expandStack f mm i address with
      | none => (t, none)
      | some mm => goodArea f { t with mm := mm } i

/-- `up (&mm->mmap_sem)`. -/
def upMmapSem (t : Task) : Task := { t with mmapSem := t.mmapSem - 1 }

/-- `lock_kernel ()` and `down (&mm->mmap_sem)`. -/
def enter (t : Task) : Task := { t with sys := lockKernel t.sys, mmapSem := t.mmapSem + 1 }

/-- `do_page_fault`.  The way out through `do_sigbus` keeps the kernel lock. -/
def doPageFault (f : FaultInfo) (t : Task) : Outcome × Task :=
  if f.inInterrupt || f.initMm then (.halts, t)
  else
    let t := enter t
    if !f.cr1Ok then (.halts, t)
    else
      match checkArea f t with
      | (t, none) =>
        (if f.userMode && f.pid ≠ 1 then .exits else .halts, upMmapSem t)
      | (t, some (i, write)) =>
        let (ok, k) := handleMmFault t.sys (t.mm.vma i) (trxAddr f.address) write
        let t := upMmapSem { t with sys := k }
        if !ok then (if f.userMode then .returns 1 else .halts, t)
        else (.returns 0, { t with sys := unlockKernel t.sys })

/-! ### The area -/

theorem trxAddr_mod (address : ℕ) : trxAddr address % pageSize = 0 := Nat.mul_mod_left _ _

theorem trxAddr_page (address : ℕ) : trxAddr address / pageSize * pageSize = trxAddr address := by
  have := trxAddr_mod address
  simp only [pageSize] at *
  omega

section Area

variable (f : FaultInfo) (t : Task)

theorem goodArea_spec (i : ℕ) : (goodArea f t i).1.mm = t.mm ∧ (goodArea f t i).1.sys = t.sys ∧
    (goodArea f t i).1.mmapSem = t.mmapSem ∧
    ∀ j write, (goodArea f t i).2 = some (j, write) → j = i ∧
      write = decide ((t.mm.vma i).vmFlags &&& VM_WRITE ≠ 0) ∧
      (f.pic = .protection → (t.mm.vma i).vmFlags &&& VM_WRITE ≠ 0) := by
  rw [goodArea]
  split_ifs with hpic hw
  · exact ⟨rfl, rfl, rfl, fun _ _ h => absurd h nofun⟩
  · refine ⟨rfl, rfl, rfl, fun j write h => ?_⟩
    obtain ⟨rfl, rfl⟩ := Prod.mk.inj (Option.some_inj.mp h)
    have hwr : (t.mm.vma i).vmFlags &&& VM_WRITE ≠ 0 := by simpa using hw
    exact ⟨rfl, (decide_eq_true hwr).symm, fun _ => hwr⟩
  · refine ⟨rfl, rfl, rfl, fun j write h => ?_⟩
    obtain ⟨rfl, rfl⟩ := Prod.mk.inj (Option.some_inj.mp h)
    exact ⟨rfl, rfl, fun h => absurd h hpic⟩

/-- The tests on an area that starts above the address: the address is in the stack window of a task in
user mode, and the limits allow it. -/
def growsDown (mm : Mm) (i : ℕ) : Bool :=
  f.userMode && ((mm.vma i).vmFlags &&& VM_IO = 0 ∧
    ¬ (f.pic = .protection ∧ trxAddr f.address < 0x200) ∧ frameBase ≤ trxAddr f.address ∧
      withinLimits f mm (mm.vma i) (trxAddr f.address) = true)

theorem growsDown_iff (mm : Mm) (i : ℕ) : growsDown f mm i = true ↔ f.userMode = true ∧
    (mm.vma i).vmFlags &&& VM_IO = 0 ∧ ¬ (f.pic = .protection ∧ trxAddr f.address < 0x200) ∧
      frameBase ≤ trxAddr f.address ∧ withinLimits f mm (mm.vma i) (trxAddr f.address) = true := by
  rw [growsDown, Bool.and_eq_true, decide_eq_true_eq]

variable {t} {i : ℕ} {mm : Mm} (hfind : findVma t.mm (trxAddr f.address) = (some i, mm))

include hfind

theorem checkArea_inside (hle : (mm.vma i).vmStart ≤ trxAddr f.address) :
    checkArea f t = if (mm.vma i).vmFlags &&& VM_IO ≠ 0 then ({ t with mm := mm }, none)
      else goodArea f { t with mm := mm } i := by
  rw [checkArea]
  simp only [hfind, if_pos hle]

theorem checkArea_below (hlt : trxAddr f.address < (mm.vma i).vmStart) :
    checkArea f t = if growsDown f mm i then
        goodArea f { t with mm := grown mm i (trxAddr f.address) } i
      else ({ t with mm := mm }, none) := by
  rw [checkArea]
  simp only [hfind, if_neg (not_le_of_gt hlt), expandStack]
  by_cases hg : growsDown f mm i = true
  · obtain ⟨huser, hio, hnull, hbase, hlim⟩ := (growsDown_iff f mm i).mp hg
    rw [if_pos hg, if_neg (not_not_intro hio), if_neg hnull, if_neg (by rw [huser]; decide),
      if_neg (not_lt_of_ge hbase), if_pos hlim]
  rw [if_neg hg]
  split_ifs with hio hnull huser hbase hlim
  · rfl
  · rfl
  · rfl
  · rfl
  · exact absurd ((growsDown_iff f mm i).mpr
      ⟨by simpa using huser, not_not.mp hio, hnull, not_lt.mp hbase, hlim⟩) hg
  · rfl

end Area

/-! ### The whole -/

/-- The fault may be taken: there is a user context and control register 1 is as it should be. -/
def contextOk (f : FaultInfo) : Bool := !(f.inInterrupt || f.initMm) && f.cr1Ok

variable {f : FaultInfo}

theorem doPageFault_of_not_context (h : contextOk f = false) (t : Task) :
    (doPageFault f t).1 = .halts ∧ (doPageFault f t).2.mm = t.mm := by
  rw [doPageFault]
  rw [contextOk, Bool.and_eq_false_iff, Bool.not_eq_false'] at h
  obtain h | h := h
  · rw [if_pos h]
    exact ⟨rfl, rfl⟩
  by_cases hi : (f.inInterrupt || f.initMm) = true
  · rw [if_pos hi]
    exact ⟨rfl, rfl⟩
  · rw [if_neg hi]
    simp only [h, Bool.not_false, if_true]
    exact ⟨trivial, rfl⟩

theorem doPageFault_of_context (h : contextOk f = true) (t : Task) :
    doPageFault f t = match checkArea f (enter t) with
      | (t, none) => (if f.userMode && f.pid ≠ 1 then .exits else .halts, upMmapSem t)
      | (t, some (i, write)) =>
        let (ok, k) := handleMmFault t.sys (t.mm.vma i) (trxAddr f.address) write
        let t := upMmapSem { t with sys := k }
        if !ok then (if f.userMode then .returns 1 else .halts, t)
        else (.returns 0, { t with sys := unlockKernel t.sys }) := by
  rw [contextOk, Bool.and_eq_true, Bool.not_eq_true'] at h
  rw [doPageFault, if_neg (by rw [h.1]; decide)]
  simp only [h.2, Bool.not_true, Bool.false_eq_true, if_false]

theorem doPageFault_mm (h : contextOk f = true) (t : Task) :
    (doPageFault f t).2.mm = (checkArea f (enter t)).1.mm ∧
      ((checkArea f (enter t)).2 = none → (doPageFault f t).1 ≠ .returns 0) := by
  rw [doPageFault_of_context h]
  obtain ⟨t', _ | ⟨i, write⟩⟩ := checkArea f (enter t)
  · refine ⟨rfl, fun _ => ?_⟩
    split_ifs <;> nofun
  · refine ⟨?_, nofun⟩
    dsimp only
    split_ifs <;> rfl

end I370Linux.PageFault
