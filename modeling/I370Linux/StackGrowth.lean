import I370Linux.VmaBookkeeping
import I370Linux.DoPageFault

/-! # Areas that grow on a fault

`do_page_fault` moves the start of an area down if the address lies in the stack window below it, and
does not ask whether the area is a stack.  `lowers` is when it does so; everything else about the step
is in order: the list stays sorted, the contents of the area stay where they are and the books are
kept. -/

namespace I370Linux.PageFault

open Vma PageTable UserCopy

/-- `do_page_fault` lowers the start of the area `i`, which it has found above the address. -/
def lowers (f : FaultInfo) (mm : Mm) (i : ℕ) : Bool :=
  contextOk f && growsDown f mm i

def fileOffset (a : VmArea) (addr : ℕ) : BitVec 32 := a.vmOffset + BitVec.ofNat 32 (addr - a.vmStart)

/-- What a fault below the area `i` may do: only a stack grows, in good order, and otherwise no area
changes and the access is not granted. -/
structure GrowsOnlyStack (f : FaultInfo) (mm : Mm) (i : ℕ) (out : Outcome) (mm' : Mm) : Prop where
  stack : (mm'.vma i).vmStart < (mm.vma i).vmStart → (mm.vma i).vmFlags &&& VM_GROWSDOWN ≠ 0
  ordered : Ordered mm'.vma mm'.mmap
  contents : ∀ j ∈ mm.mmap, ∀ addr, (mm.vma j).Contains addr →
    (mm'.vma j).Contains addr ∧ fileOffset (mm'.vma j) addr = fileOffset (mm.vma j) addr
  totalVm : mm'.totalVm = mm.totalVm + (((mm.vma i).vmStart - (mm'.vma i).vmStart) / pageSize : ℕ)
  lockedVm : mm'.lockedVm = mm.lockedVm +
    if (mm.vma i).locked then ((((mm.vma i).vmStart - (mm'.vma i).vmStart) / pageSize : ℕ) : ℤ) else 0
  limit : (mm'.vma i).vmStart < (mm.vma i).vmStart →
    (mm'.vma i).vmEnd - (mm'.vma i).vmStart ≤ f.rlimStack
  else_same : ¬ (mm'.vma i).vmStart < (mm.vma i).vmStart →
    mm'.vma = mm.vma ∧ mm'.mmap = mm.mmap ∧ out ≠ .returns 0

section Grown

variable {mm : Mm} {i addr : ℕ}

theorem grown_vma (mm : Mm) (i addr j : ℕ) : (grown mm i addr).vma j =
    if j = i then { mm.vma i with
      vmStart := addr / pageSize * pageSize
      vmOffset := (mm.vma i).vmOffset - BitVec.ofNat 32 (growth (mm.vma i) addr) }
    else mm.vma j := Function.update_apply ..

theorem grown_ordered (h : Ordered mm.vma mm.mmap) (hmod : addr % pageSize = 0)
    (hfind : mm.mmap.find? (fun i => addr < (mm.vma i).vmEnd) = some i)
    (hlt : addr < (mm.vma i).vmStart) : Ordered (grown mm i addr).vma (grown mm i addr).mmap := by
  obtain ⟨-, A, B, hl, hA⟩ := List.find?_eq_some_iff_append.mp hfind
  rw [hl] at h
  obtain ⟨hrest, hi, -, hB⟩ := ordered_insert.mp h
  obtain ⟨hnA, hnB⟩ := h.notMem
  have hother : ∀ {j}, j ≠ i → (grown mm i addr).vma j = mm.vma j := fun hj => by
    rw [grown_vma, if_neg hj]
  have hself : ((grown mm i addr).vma i).vmStart = addr ∧
      ((grown mm i addr).vma i).vmEnd = (mm.vma i).vmEnd := by
    rw [grown_vma, if_pos rfl]
    refine ⟨?_, rfl⟩
    simp only [pageSize] at *
    omega
  have hneA : ∀ a ∈ A, a ≠ i := fun a ha he => hnA (he ▸ ha)
  have hneB : ∀ b ∈ B, b ≠ i := fun b hb he => hnB (he ▸ hb)
  rw [show (grown mm i addr).mmap = A ++ i :: B from hl, ordered_insert, hself.1, hself.2]
  refine ⟨hrest.congr fun j hj => hother ?_, by omega, fun a ha => ?_, fun b hb => ?_⟩
  · exact (List.mem_append.mp hj).elim (hneA j) (hneB j)
  · rw [hother (hneA a ha)]
    simpa using hA a ha
  · rw [hother (hneB b hb)]
    exact hB b hb

theorem grown_fileOffset (hmod : addr % pageSize = 0) (hlt : addr < (mm.vma i).vmStart) {j a : ℕ}
    (ha : (mm.vma j).Contains a) : ((grown mm i addr).vma j).Contains a ∧
      fileOffset ((grown mm i addr).vma j) a = fileOffset (mm.vma j) a := by
  rw [grown_vma]
  split_ifs with hj
  · subst hj
    obtain ⟨h1, h2⟩ := ha
    have hpage : addr / pageSize * pageSize = addr := by
      simp only [pageSize] at *
      omega
    refine ⟨⟨by dsimp only; omega, h2⟩, ?_⟩
    rw [fileOffset, fileOffset, growth, hpage]
    rw [show a - addr = (a - (mm.vma j).vmStart) + ((mm.vma j).vmStart - addr) by omega, BitVec.ofNat_add]
    ring
  · exact ⟨ha, rfl⟩

end Grown

theorem GrowsOnlyStack.unchanged {f : FaultInfo} {mm mm' : Mm} {i : ℕ} {out : Outcome}
    (h : Ordered mm.vma mm.mmap) (hv : mm'.vma = mm.vma) (hl : mm'.mmap = mm.mmap)
    (ht : mm'.totalVm = mm.totalVm) (hk : mm'.lockedVm = mm.lockedVm) (ho : out ≠ .returns 0) :
    GrowsOnlyStack f mm i out mm' where
  stack := fun hlt => absurd hlt (by rw [hv]; exact lt_irrefl _)
  ordered := by rwa [hv, hl]
  contents := fun j _ addr ha => by
    rw [hv]
    exact ⟨ha, rfl⟩
  totalVm := by simp [hv, ht]
  lockedVm := by simp [hv, hk]
  limit := fun hlt => absurd hlt (by rw [hv]; exact lt_irrefl _)
  else_same := fun _ => ⟨hv, hl, ho⟩

/-- **Only stacks grow.**  A fault below the area that `find_vma` returns does what it should just if
the area is a stack whenever its start is lowered. -/
theorem growsOnlyStack_iff {f : FaultInfo} {t : Task} {i : ℕ} (hb : t.mm.Books 0 0)
    (hfind : (findVma t.mm (trxAddr f.address)).1 = some i)
    (hlt : trxAddr f.address < (t.mm.vma i).vmStart) :
    GrowsOnlyStack f t.mm i (doPageFault f t).1 (doPageFault f t).2.mm ↔
      (lowers f t.mm i = true → (t.mm.vma i).vmFlags &&& VM_GROWSDOWN ≠ 0) := by
  obtain ⟨hfirst, c, hc, -⟩ := findVma_spec (trxAddr f.address) hb.wellFormed hb.cache
  have hfound : findVma t.mm (trxAddr f.address) = (some i, { t.mm with mmapCache := c }) := Prod.ext hfind hc
  have hord := hb.wellFormed.ordered
  have hmod := trxAddr_mod f.address
  rw [lowers]
  rcases hctx : contextOk f with _ | _
  · obtain ⟨hout, hmm⟩ := doPageFault_of_not_context hctx t
    refine iff_of_true ?_ (by simp)
    rw [hout, hmm]
    exact .unchanged hord rfl rfl rfl rfl nofun
  · obtain ⟨hmm, hdenied⟩ := doPageFault_mm hctx t
    have hcheck := checkArea_below f (t := enter t) hfound hlt
    rcases hgrow : growsDown f { t.mm with mmapCache := c } i with _ | _
    · rw [hgrow, if_neg (by decide)] at hcheck
      have hgrow' : growsDown f t.mm i = false := hgrow
      refine iff_of_true ?_ (by simp [hgrow'])
      rw [hmm, hcheck]
      exact .unchanged hord rfl rfl rfl rfl (hdenied (by rw [hcheck]))
    · rw [hgrow, if_pos rfl] at hcheck
      have hgrow' : growsDown f t.mm i = true := hgrow
      have hlim := ((growsDown_iff f t.mm i).mp hgrow').2.2.2.2
      obtain ⟨hgood, -⟩ := goodArea_spec f { enter t with
        mm := grown { t.mm with mmapCache := c } i (trxAddr f.address) } i
      rw [hmm, hcheck, hgood, hgrow']
      have hself := grown_vma { t.mm with mmapCache := c } i (trxAddr f.address) i
      rw [if_pos rfl, trxAddr_page] at hself
      have hlow : ((grown { t.mm with mmapCache := c } i (trxAddr f.address)).vma i).vmStart <
          (t.mm.vma i).vmStart := by
        rw [hself]
        exact hlt
      refine ⟨fun h _ => h.stack hlow, fun hstack => ⟨fun _ => hstack rfl, ?_, ?_, ?_, ?_, ?_, ?_⟩⟩
      · exact @grown_ordered { t.mm with mmapCache := c } i _ hord hmod (hfirst ▸ hfind) hlt
      · exact fun j _ a ha => @grown_fileOffset { t.mm with mmapCache := c } i _ hmod hlt j a ha
      · rw [hself, grown, growth, trxAddr_page]
      · rw [hself, grown, growth, trxAddr_page]
      · intro _
        rw [hself]
        rw [withinLimits, decide_eq_true_eq, trxAddr_page] at hlim
        exact hlim.1
      · exact fun h => absurd hlow h

/-- A private area of one page in the stack window, with further flags, in a task with free memory. -/
def windowTask (flags : BitVec 32) : Task where
  mm := .ofAreas [⟨0x7fff0000, 0x7fff1000, 3, 0x73 ||| flags, none, 0, none, 0⟩]
  sys :=
    let k := bareSys (fun _ => .invalid) []
    { k with rest := { k.rest with answers := [⟨true, some 0x20000, none, fun _ => 0⟩] } }
  mmapSem := 0
  pswAddr := 0

/-- A read in user mode to an address without a page, with the usual limits. -/
def userRead (address : ℕ) : FaultInfo :=
  ⟨address, .pageTrans, true, false, false, true, 2, 0x800000, 2 ^ 32 - 1, 0⟩

/-- A stack grows by a page. -/
theorem growsOnlyStack_iff_stack :
    lowers (userRead 0x7ffef123) (windowTask VM_GROWSDOWN).mm 0 = true ∧
    GrowsOnlyStack (userRead 0x7ffef123) (windowTask VM_GROWSDOWN).mm 0
      (doPageFault (userRead 0x7ffef123) (windowTask VM_GROWSDOWN)).1
      (doPageFault (userRead 0x7ffef123) (windowTask VM_GROWSDOWN)).2.mm :=
  ⟨by decide, (growsOnlyStack_iff (by decide) (by decide) (by decide)).mpr fun _ => by decide⟩

/-- A mapping that is no stack grows down, and the access is granted. -/
theorem data_area_grows :
    (windowTask 0).mm.Books 0 0 ∧ ((windowTask 0).mm.vma 0).vmFlags &&& VM_GROWSDOWN = 0 ∧
    ((windowTask 0).mm.vma 0).vmStart = 0x7fff0000 ∧
    (doPageFault (userRead 0x7ffef123) (windowTask 0)).1 = .returns 0 ∧
    ((doPageFault (userRead 0x7ffef123) (windowTask 0)).2.mm.vma 0).vmStart = 0x7ffef000 := by
  decide

end I370Linux.PageFault
