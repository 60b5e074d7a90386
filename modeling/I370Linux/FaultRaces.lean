import I370Linux.FaultProgress

/-! # Faults that sleep

`handle_pte_fault` of `mm/memory.c` once more, with `do_wp_page`, `do_no_page`, `do_anonymous_page`,
`do_swap_page`, `swap_in` of `mm/page_alloc.c` and `shm_swap_in` of `ipc/shm.c`, and this time with
other tasks: wherever a function can sleep, the state it wakes up in is any state in which the task
still holds the kernel lock as often as before (`Nap`).  The tests whether an entry has changed
meanwhile are in, and `do_wp_page` takes its page before it looks at anything.

`do_wp_page` has two ways out, `end_wp_page` from its first tests and `bad_wp_page`, that keep the
kernel lock (`balanced_iff`). -/

namespace I370Linux.FaultRaces

open Vma PageTable UserCopy PageFault

/-- What the other tasks do while the task sleeps.  `schedule` gives the kernel lock up and takes it
again as often. -/
structure Nap where
  run : Sys → Sys
  lockDepth : ∀ k, (run k).rest.lockDepth = k.rest.lockDepth

def Nap.still : Nap := ⟨id, fun _ => rfl⟩

/-! ### The fault functions -/

/-- `__get_free_page`, which can sleep. -/
def allocPage (nap : Nap) (k : Sys) (ans : Answer) : Option ℕ × Sys :=
  match getFreePage (nap.run k) ans with
  | none => (none, nap.run k)
  | some (page, k) => (some page, k)

/-- `put_page` of `mm/memory.c`. -/
def putPage (k : Sys) (addr : ℕ) (pte : Pte) : Sys :=
  if !pteNone (pteAt k.pgd addr) then freePageAndSwapCache k (ptePage pte) else setPte k addr pte

def doAnonymousPage (nap : Nap) (k : Sys) (ans : Answer) (vma : VmArea) (addr : ℕ) (write : Bool) :
    Bool × Sys :=
  if write then
    match allocPage nap k ans with
    | (none, k) => (false, k)
    | (some page, k) =>
      (true, putPage (fillPage k page fun _ => 0) addr (pteMkwrite (pteMkdirty (mkAreaPte vma page))))
  else (true, putPage k addr (pteWrprotect (mkAreaPte vma k.rest.zeroPage)))

def doNoPage (nap : Nap) (k : Sys) (ans : Answer) (vma : VmArea) (addr : ℕ) (write : Bool) :
    Bool × Sys :=
  if !hasNopage vma then doAnonymousPage nap (unlockKernel k) ans vma addr write
  else
    match nopage (nap.run k) ans (if vma.vmFlags &&& VM_SHARED ≠ 0 then false else write) with
    | none => (false, unlockKernel (nap.run k))
    | some (page, k) =>
      let entry := mkAreaPte vma page
      let entry :=
        if write then pteMkwrite (pteMkdirty entry)
        else if 1 < k.rest.count page ∧ vma.vmFlags &&& VM_SHARED = 0 then pteWrprotect entry
        else entry
      (true, putPage (unlockKernel k) addr entry)

/-- The first part of `swap_in`: it can sleep before it has a page, and until the page has been read. -/
def swapPage (nap nap' : Nap) (k : Sys) (ans : Answer) (entry : Pte) : Option ℕ × Sys :=
  match swapCachePage (nap.run k) ans entry with
  | none => (none, nap.run k)
  | some (page, k) => (some page, nap'.run k)

def swapIn (nap nap' : Nap) (k : Sys) (ans : Answer) (vma : VmArea) (addr : ℕ) (entry : Pte)
    (write : Bool) : Sys :=
  match swapPage nap nap' k ans entry with
  | (none, k) =>
    if pteAt k.pgd addr ≠ entry then k else swapFree (setPte k addr (badPte k.rest.emptyBadPage)) entry
  | (some page, k) =>
    if pteAt k.pgd addr ≠ entry then freePageAndSwapCache k page
    else
      let k := swapFree k entry
      if !write || isPageShared k page then setPte k addr (mkAreaPte vma page)
      else setPte (deleteFromSwapCache k page) addr (pteMkwrite (pteMkdirty (mkAreaPte vma page)))

/-- The end of `shm_swap_in`, at the label `done`. -/
def shmDone (k : Sys) (vma : VmArea) (pte : Pte) : Pte × Sys :=
  (pteModify pte (protectionMap vma.vmPageProt),
    setCount k (ptePage pte) (k.rest.count (ptePage pte) + 1))

def shmInstall (k : Sys) (vma : VmArea) (idx page : ℕ) : Pte × Sys :=
  let pte := pteMkdirty (mkPte page PAGE_SHARED)
  shmDone { k with rest := { k.rest with shmPages := Function.update k.rest.shmPages idx pte } } vma pte

/-- `shm_swap_in`; it can sleep in `get_free_page` and in `rw_swap_page_nocache`.  The tests of the id and of the index, which
return `BAD_PAGE`, are left out: the segment of an attached area is there. -/
def shmSwapIn (nap nap' : Nap) (k : Sys) (ans : Answer) (vma : VmArea) (entry : Pte) : Pte × Sys :=
  let idx := (entry >>> 12).toNat
  if ptePresent (k.rest.shmPages idx) then shmDone k vma (k.rest.shmPages idx)
  else
    match allocPage nap k ans with
    | (none, k) => (badPte k.rest.emptyBadPage, k)
    | (some page, k) =>
      let pte := k.rest.shmPages idx
      if ptePresent pte then shmDone (freePage k page) vma pte
      else if pteNone pte then shmInstall (fillPage k page fun _ => 0) vma idx page
      else
        let k := nap'.run (fillPage k page (k.rest.swapFile pte))
        let pte := k.rest.shmPages idx
        if ptePresent pte then shmDone (freePage k page) vma pte
        else shmInstall (swapFree k pte) vma idx page

def doSwapPage (nap nap' : Nap) (k : Sys) (ans : Answer) (vma : VmArea) (addr : ℕ) (entry : Pte)
    (write : Bool) : Bool × Sys :=
  if !hasSwapin vma then (true, unlockKernel (swapIn nap nap' k ans vma addr entry write))
  else
    match shmSwapIn nap nap' k ans vma entry with
    | (page, k) =>
      if pteAt k.pgd addr ≠ entry then (true, unlockKernel (freePage k (ptePage page)))
      else
        let page :=
          if 1 < k.rest.count (ptePage page) ∧ vma.vmFlags &&& VM_SHARED = 0 then pteWrprotect page
          else page
        (true, unlockKernel (setPte k addr page))

/-- `if (new_page) free_page(new_page)`. -/
def freeNew (newPage : Option ℕ) (k : Sys) : Sys :=
  match newPage with
  | none => k
  | some page => freePage k page

def copyCowPage (k : Sys) (oldPage page : ℕ) : Sys :=
  fillPage k page (if oldPage = k.rest.zeroPage then fun _ => 0 else fun o => k.mem (oldPage + o))

/-- `do_wp_page`, after its page has been allocated. -/
def wpPage (newPage : Option ℕ) (k : Sys) (vma : VmArea) (addr : ℕ) (pte : Pte) : Bool × Sys :=
  let oldPage := ptePage pte
  -- the first three tests leave by end_wp_page, with the kernel lock
  if pteAt k.pgd addr ≠ pte then (true, freeNew newPage k)
  else if !ptePresent pte then (true, freeNew newPage k)
  else if pteWrite pte then (true, freeNew newPage k)
  -- bad_wp_page, with the kernel lock
  else if k.rest.maxMapnr ≤ oldPage / pageSize then (false, freeNew newPage k)
  else if k.rest.count oldPage = 1 then
    (true, freeNew newPage (setPte (unlockKernel k) addr (pteMkdirty (pteMkwrite pte))))
  else if k.rest.count oldPage = 2 ∧ (k.rest.pageSwap oldPage).any (fun e => k.rest.swapCount e = 1)
    then (true, freeNew newPage (setPte (unlockKernel (deleteFromSwapCache k oldPage)) addr
      (pteMkdirty (pteMkwrite pte))))
  else
    match newPage with
    | none => (false, unlockKernel k)
    | some page =>
      (true, freePage (setPte (copyCowPage (unlockKernel k) oldPage page) addr
        (pteMkwrite (pteMkdirty (mkAreaPte vma page)))) oldPage)

def doWpPage (nap : Nap) (k : Sys) (ans : Answer) (vma : VmArea) (addr : ℕ) : Bool × Sys :=
  let pte := pteAt k.pgd addr
  match allocPage nap k ans with
  | (newPage, k) => wpPage newPage k vma addr pte

theorem doWpPage_eq (nap : Nap) (k : Sys) (ans : Answer) (vma : VmArea) (addr : ℕ) :
    doWpPage nap k ans vma addr =
      wpPage (allocPage nap k ans).1 (allocPage nap k ans).2 vma addr (pteAt k.pgd addr) := rfl

def handlePteFault (nap nap' : Nap) (k : Sys) (ans : Answer) (vma : VmArea) (addr : ℕ) (write : Bool) :
    Bool × Sys :=
  let k := lockKernel k
  let entry := pteAt k.pgd addr
  if !ptePresent entry then
    if pteNone entry then doNoPage nap k ans vma addr write
    else doSwapPage nap nap' k ans vma addr entry write
  else
    let entry := pteMkyoung entry
    let k := setPte k addr entry
    if write then
      if !pteWrite entry then doWpPage nap k ans vma addr
      else (true, unlockKernel (setPte k addr (pteMkdirty entry)))
    else (true, unlockKernel k)

/-! ### The kernel lock -/

section Lock
variable {nap nap' : Nap} {k : Sys} {ans : Answer} {vma : VmArea} {addr : ℕ} {entry pte : Pte}
  {write : Bool} {page : ℕ} {newPage : Option ℕ}

@[simp] theorem setPte_lock : (setPte k addr pte).rest.lockDepth = k.rest.lockDepth := rfl

@[simp] theorem swapFree_lock : (swapFree k entry).rest.lockDepth = k.rest.lockDepth := rfl

@[simp] theorem fillPage_lock {c : ℕ → Byte} : (fillPage k page c).rest.lockDepth = k.rest.lockDepth := rfl

@[simp] theorem copyCowPage_lock {oldPage : ℕ} :
    (copyCowPage k oldPage page).rest.lockDepth = k.rest.lockDepth := rfl

@[simp] theorem unlockKernel_lock : (unlockKernel k).rest.lockDepth = k.rest.lockDepth - 1 := rfl

@[simp] theorem freePage_lock : (freePage k page).rest.lockDepth = k.rest.lockDepth :=
  (freePage_rest k page).2

@[simp] theorem deleteFromSwapCache_lock :
    (deleteFromSwapCache k page).rest.lockDepth = k.rest.lockDepth := by
  rw [deleteFromSwapCache]
  split
  · rfl
  · exact freePage_lock

@[simp] theorem freePageAndSwapCache_lock :
    (freePageAndSwapCache k page).rest.lockDepth = k.rest.lockDepth := by
  unfold freePageAndSwapCache
  split_ifs <;> simp

@[simp] theorem freeNew_lock : (freeNew newPage k).rest.lockDepth = k.rest.lockDepth := by
  cases newPage
  · rfl
  · exact freePage_lock

@[simp] theorem putPage_lock : (putPage k addr pte).rest.lockDepth = k.rest.lockDepth := by
  unfold putPage
  split_ifs <;> simp

@[simp] theorem allocPage_lock : (allocPage nap k ans).2.rest.lockDepth = k.rest.lockDepth := by
  unfold allocPage
  split
  · exact nap.lockDepth k
  · next hfree =>
    rw [getFreePage_spec hfree]
    exact nap.lockDepth k

theorem getFreePage_isFree {k' : Sys} (h : getFreePage k ans = some (page, k')) : isFree k page = true := by
  unfold getFreePage at h
  split at h
  · split_ifs at h with hfree
    obtain ⟨rfl, -⟩ := Prod.mk.inj (Option.some_inj.mp h)
    exact hfree
  · cases h

theorem allocPage_some (h : (allocPage nap k ans).1 = some page) :
    isFree (nap.run k) page = true ∧ (allocPage nap k ans).2 = setCount (nap.run k) page 1 := by
  unfold allocPage at *
  split at h
  · cases h
  · next hget =>
    cases h
    exact ⟨getFreePage_isFree hget, getFreePage_spec hget⟩

theorem allocPage_rest (nap : Nap) (k : Sys) (ans : Answer) :
    (allocPage nap k ans).2.pgd = (nap.run k).pgd ∧
      (allocPage nap k ans).2.rest.maxMapnr = (nap.run k).rest.maxMapnr := by
  unfold allocPage
  split
  · exact ⟨rfl, rfl⟩
  · next hfree =>
    rw [getFreePage_spec hfree]
    exact ⟨rfl, rfl⟩

theorem doAnonymousPage_lock :
    (doAnonymousPage nap k ans vma addr write).2.rest.lockDepth = k.rest.lockDepth := by
  have halloc : (allocPage nap k ans).2.rest.lockDepth = k.rest.lockDepth := allocPage_lock
  unfold doAnonymousPage
  split_ifs
  · split
    · next hpage =>
      rw [hpage] at halloc
      exact halloc
    · next hpage =>
      rw [hpage] at halloc
      simpa using halloc
  · simp

theorem nopage_lock {noShare : Bool} {k' : Sys} (h : nopage k ans noShare = some (page, k')) :
    k'.rest.lockDepth = k.rest.lockDepth := by
  rw [nopage] at h
  split_ifs at h
  · split at h
    · cases h
    · next hfree =>
      obtain ⟨rfl, rfl⟩ := Prod.mk.inj (Option.some_inj.mp h)
      rw [getFreePage_spec hfree]
      rfl
  · split at h
    · cases h
    · split_ifs at h
      obtain ⟨rfl, rfl⟩ := Prod.mk.inj (Option.some_inj.mp h)
      rfl

theorem swapCachePage_lock {k' : Sys} (h : swapCachePage k ans entry = some (page, k')) :
    k'.rest.lockDepth = k.rest.lockDepth := by
  rw [swapCachePage] at h
  split at h
  · obtain ⟨rfl, rfl⟩ := Prod.mk.inj (Option.some_inj.mp h)
    rfl
  split at h
  · cases h
  · next hfree =>
    obtain ⟨rfl, rfl⟩ := Prod.mk.inj (Option.some_inj.mp h)
    rw [getFreePage_spec hfree]
    rfl

theorem doNoPage_lock : (doNoPage nap k ans vma addr write).2.rest.lockDepth = k.rest.lockDepth - 1 := by
  unfold doNoPage
  by_cases hno : (!hasNopage vma) = true
  · rw [if_pos hno]
    exact doAnonymousPage_lock
  · rw [if_neg hno]
    split
    · simp [nap.lockDepth]
    · next hpage => simp [nopage_lock hpage, nap.lockDepth]

theorem swapPage_lock : (swapPage nap nap' k ans entry).2.rest.lockDepth = k.rest.lockDepth := by
  unfold swapPage
  split
  · exact nap.lockDepth k
  · next hpage => rw [nap'.lockDepth, swapCachePage_lock hpage, nap.lockDepth]

theorem swapIn_lock : (swapIn nap nap' k ans vma addr entry write).rest.lockDepth = k.rest.lockDepth := by
  have hpage : (swapPage nap nap' k ans entry).2.rest.lockDepth = k.rest.lockDepth := swapPage_lock
  unfold swapIn
  split
  · next hsome =>
    rw [hsome] at hpage
    split_ifs <;> simpa using hpage
  · next hsome =>
    rw [hsome] at hpage
    dsimp only
    split_ifs <;> simpa using hpage

theorem shmSwapIn_lock : (shmSwapIn nap nap' k ans vma entry).2.rest.lockDepth = k.rest.lockDepth := by
  have halloc : (allocPage nap k ans).2.rest.lockDepth = k.rest.lockDepth := allocPage_lock
  have hdone : ∀ (k : Sys) (pte : Pte), (shmDone k vma pte).2.rest.lockDepth = k.rest.lockDepth :=
    fun _ _ => rfl
  have hinstall : ∀ (k : Sys) (idx page : ℕ),
      (shmInstall k vma idx page).2.rest.lockDepth = k.rest.lockDepth := fun _ _ _ => rfl
  unfold shmSwapIn
  dsimp only
  split_ifs
  · exact hdone ..
  split
  · next hpage =>
    rw [hpage] at halloc
    exact halloc
  · next hpage =>
    rw [hpage] at halloc
    split_ifs <;> simpa [hdone, hinstall, nap'.lockDepth] using halloc

theorem doSwapPage_lock :
    (doSwapPage nap nap' k ans vma addr entry write).2.rest.lockDepth = k.rest.lockDepth - 1 := by
  have hshm : (shmSwapIn nap nap' k ans vma entry).2.rest.lockDepth = k.rest.lockDepth := shmSwapIn_lock
  unfold doSwapPage
  by_cases hs : (!hasSwapin vma) = true
  · rw [if_pos hs, unlockKernel_lock, swapIn_lock]
  rw [if_neg hs]
  split
  next hpage =>
  rw [hpage] at hshm
  dsimp only at hshm ⊢
  split_ifs <;> simp [hshm]

end Lock

/-! ### The page of `do_wp_page` -/

section Page
variable {nap : Nap} {k : Sys} {ans : Answer} {vma : VmArea} {addr page q : ℕ} {pte : Pte}

/-- The ways out of `do_wp_page` that keep the kernel lock. -/
def KeepsLock (k : Sys) (addr : ℕ) (pte : Pte) : Prop :=
  pteAt k.pgd addr ≠ pte ∨ ptePresent pte = false ∨ pteWrite pte = true ∨
    k.rest.maxMapnr ≤ ptePage pte / pageSize

theorem wpPage_lock (newPage : Option ℕ) :
    (KeepsLock k addr pte → (wpPage newPage k vma addr pte).2.rest.lockDepth = k.rest.lockDepth) ∧
      (¬ KeepsLock k addr pte → (wpPage newPage k vma addr pte).2.rest.lockDepth = k.rest.lockDepth - 1) := by
  unfold wpPage KeepsLock
  by_cases hsame : pteAt k.pgd addr ≠ pte
  · simp [hsame]
  by_cases hpres : ptePresent pte = true
  swap
  · simp [hsame, hpres]
  by_cases hwr : pteWrite pte = true
  · simp [hsame, hpres, hwr]
  by_cases hmap : k.rest.maxMapnr ≤ ptePage pte / pageSize
  · simp [hsame, hpres, hwr, hmap]
  simp only [hsame, hpres, hwr, hmap, Bool.not_true, Bool.false_eq_true, if_false, or_self,
    not_false_eq_true, false_implies, true_implies, true_and, Bool.true_eq_false]
  split_ifs
  · simp
  · simp
  · cases newPage <;> simp

theorem freePage_count_of_ne (h : q ≠ page) : (freePage k page).rest.count q = k.rest.count q := by
  unfold freePage
  split_ifs
  · rfl
  · apply Function.update_of_ne h

theorem freePage_count_self (h : k.rest.reserved page = false) :
    (freePage k page).rest.count page = k.rest.count page - 1 := by
  unfold freePage
  rw [if_neg (Bool.eq_false_iff.mp h)]
  apply Function.update_self

theorem freePage_reserved : (freePage k page).rest.reserved = k.rest.reserved := by
  unfold freePage
  split_ifs <;> rfl

theorem deleteFromSwapCache_count_of_ne (h : q ≠ page) :
    (deleteFromSwapCache k page).rest.count q = k.rest.count q := by
  unfold deleteFromSwapCache
  split
  · rfl
  · apply freePage_count_of_ne h

theorem deleteFromSwapCache_reserved : (deleteFromSwapCache k page).rest.reserved = k.rest.reserved := by
  unfold deleteFromSwapCache
  split
  · rfl
  · exact freePage_reserved

/-- A page with one user is free after `free_page`, or it is mapped. -/
def Placed (vma : VmArea) (addr page : ℕ) (k : Sys) : Prop :=
  k.rest.count page = 0 ∨
    k.rest.count page = 1 ∧ pteAt k.pgd addr = pteMkwrite (pteMkdirty (mkAreaPte vma page))

theorem Placed.free (hone : k.rest.count page = 1) (hres : k.rest.reserved page = false) :
    Placed vma addr page (freeNew (some page) k) := by
  left
  change (freePage k page).rest.count page = 0
  rw [freePage_count_self hres, hone]

theorem wpPage_placed (hone : k.rest.count page = 1) (hres : k.rest.reserved page = false) :
    Placed vma addr page (wpPage (some page) k vma addr pte).2 := by
  unfold wpPage
  dsimp only
  split_ifs with h₁ h₂ h₃ h₄ h₅ h₆
  · exact Placed.free hone hres
  · exact Placed.free hone hres
  · exact Placed.free hone hres
  · exact Placed.free hone hres
  · exact Placed.free (k := setPte (unlockKernel k) addr _) hone hres
  · have hne : page ≠ ptePage pte := fun he => by
      rw [← he, hone] at h₆
      exact absurd h₆.1 (by decide)
    apply Placed.free
    · exact (deleteFromSwapCache_count_of_ne hne).trans hone
    · exact (congrFun deleteFromSwapCache_reserved page).trans hres
  · have hne : page ≠ ptePage pte := fun he => h₅ (he ▸ hone)
    right
    constructor
    · exact (freePage_count_of_ne hne).trans hone
    · have hdirty : pteMkwrite (pteMkdirty (mkAreaPte vma page)) &&& PAGE_DIRTY = PAGE_DIRTY := by
        rw [pteMkwrite, and_and_mask (by decide), pteMkdirty, or_and_self]
      rw [(freePage_rest _ _).1, pteAt_setPte, setPteVal_of_ne (ne_zero_of_and hdirty (by decide))]

end Page

/-! ### Lock and page -/

section
variable (nap nap' : Nap) (k : Sys) (ans : Answer) (vma : VmArea) (addr : ℕ) (write : Bool)

/-- The state in which `do_wp_page` is called. -/
def wpState : Sys := setPte (lockKernel k) addr (pteMkyoung (pteAt k.pgd addr))

/-- The fault goes to `do_wp_page`: a write to a present entry without write access. -/
def ReachesWp : Prop :=
  write = true ∧ ptePresent (pteAt k.pgd addr) = true ∧ pteWrite (pteMkyoung (pteAt k.pgd addr)) = false

/-- The call releases the kernel lock as often as it is acquired. -/
def Balanced : Prop :=
  (handlePteFault nap nap' k ans vma addr write).2.rest.lockDepth = k.rest.lockDepth

/-- The page that `do_wp_page` allocates is freed or installed. -/
def Settled : Prop :=
  ∀ page, (allocPage nap (wpState k addr) ans).1 = some page →
    Placed vma addr page (doWpPage nap (wpState k addr) ans vma addr).2

/-- While `do_wp_page` slept its entry has changed, or the entry has a page that is not in
`mem_map`. -/
def Disturbed : Prop :=
  pteAt (nap.run (wpState k addr)).pgd addr ≠ pteAt (wpState k addr).pgd addr ∨
    (nap.run (wpState k addr)).rest.maxMapnr ≤ ptePage (pteAt (wpState k addr).pgd addr) / pageSize

theorem settled : Settled nap k ans vma addr := by
  intro page hpage
  obtain ⟨hfree, hk⟩ := allocPage_some hpage
  rw [doWpPage_eq, hpage, hk]
  apply wpPage_placed
  · apply Function.update_self
  · simp only [isFree, decide_eq_true_eq] at hfree
    exact Bool.not_eq_true' _ ▸ hfree.2.2.2.2.2

variable {k addr write} in
theorem ReachesWp.entry_eq (h : ReachesWp k addr write) :
    pteAt (wpState k addr).pgd addr = pteMkyoung (pteAt k.pgd addr) := by
  have hro := h.2.2
  have hne : pteMkyoung (pteAt k.pgd addr) ≠ 0 := by
    intro hzero
    rw [hzero] at hro
    cases hro
  unfold wpState
  rw [pteAt_setPte, setPteVal_of_ne hne]

variable {k addr write} in
theorem ReachesWp.entry (h : ReachesWp k addr write) :
    ptePresent (pteAt (wpState k addr).pgd addr) = true ∧
      pteWrite (pteAt (wpState k addr).pgd addr) = false := by
  rw [h.entry_eq]
  obtain ⟨-, hpres, hro⟩ := h
  refine ⟨?_, hro⟩
  have hswapped : pteMkyoung (pteAt k.pgd addr) &&& PAGE_SWAPPED = pteAt k.pgd addr &&& PAGE_SWAPPED :=
    and_and_mask (by decide)
  have hnone : pteNone (pteMkyoung (pteAt k.pgd addr)) = false := by
    by_contra hnone
    rw [Bool.not_eq_false, pteNone, decide_eq_true_eq] at hnone
    rw [hnone] at hro
    cases hro
  unfold ptePresent at hpres ⊢
  rw [hswapped, hnone]
  simp only [Bool.and_eq_true] at hpres
  simpa using hpres.2

theorem doWpPage_lock (h : ReachesWp k addr write) :
    (doWpPage nap (wpState k addr) ans vma addr).2.rest.lockDepth = k.rest.lockDepth ↔
      ¬ Disturbed nap k addr := by
  obtain ⟨hpres, hro⟩ := h.entry
  have hkeeps : KeepsLock (allocPage nap (wpState k addr) ans).2 addr (pteAt (wpState k addr).pgd addr) ↔
      Disturbed nap k addr := by
    unfold KeepsLock Disturbed
    rw [(allocPage_rest nap (wpState k addr) ans).1, (allocPage_rest nap (wpState k addr) ans).2, hpres, hro]
    simp
  have hdepth : (allocPage nap (wpState k addr) ans).2.rest.lockDepth = k.rest.lockDepth + 1 := allocPage_lock
  obtain ⟨hstay, hdown⟩ := @wpPage_lock (allocPage nap (wpState k addr) ans).2 vma addr
    (pteAt (wpState k addr).pgd addr) (allocPage nap (wpState k addr) ans).1
  rw [hdepth, hkeeps] at hstay hdown
  rw [doWpPage_eq]
  by_cases hdis : Disturbed nap k addr
  · rw [hstay hdis]
    exact iff_of_false (by omega) (not_not.mpr hdis)
  · rw [hdown hdis]
    exact iff_of_true (by omega) hdis

/-- **Locks and faults.**  `handle_pte_fault` leaves the kernel lock as it was, and the page of
`do_wp_page` is freed or installed, exactly if `do_wp_page` is not disturbed. -/
theorem balanced_iff :
    Balanced nap nap' k ans vma addr write ∧ Settled nap k ans vma addr ↔
      ¬ (ReachesWp k addr write ∧ Disturbed nap k addr) := by
  rw [and_iff_left (settled nap k ans vma addr)]
  have hback : (lockKernel k).rest.lockDepth - 1 = k.rest.lockDepth := add_sub_cancel_right _ _
  have hpgd : (lockKernel k).pgd = k.pgd := rfl
  unfold Balanced handlePteFault
  simp only [hpgd]
  by_cases hpres : ptePresent (pteAt k.pgd addr) = true
  swap
  · -- no page, or a page in swap space
    have hnot : ¬ (ReachesWp k addr write ∧ Disturbed nap k addr) := fun h => hpres h.1.2.1
    rw [if_pos (by simpa using hpres)]
    refine iff_of_true ?_ hnot
    split_ifs
    · exact doNoPage_lock.trans hback
    · exact doSwapPage_lock.trans hback
  rw [if_neg (by simpa using hpres)]
  by_cases hwr : write = true
  swap
  · have hnot : ¬ (ReachesWp k addr write ∧ Disturbed nap k addr) := fun h => hwr h.1.1
    rw [if_neg hwr]
    exact iff_of_true hback hnot
  rw [if_pos hwr]
  by_cases hro : pteWrite (pteMkyoung (pteAt k.pgd addr)) = true
  · have hnot : ¬ (ReachesWp k addr write ∧ Disturbed nap k addr) := fun h => by
      rw [h.1.2.2] at hro
      cases hro
    rw [if_neg (by simpa using hro)]
    exact iff_of_true hback hnot
  · have hreach : ReachesWp k addr write := ⟨hwr, hpres, Bool.not_eq_true _ ▸ hro⟩
    rw [if_pos (by simpa using hro), and_iff_right hreach]
    exact doWpPage_lock nap k ans vma addr write hreach

end

/-- A thread of the same address space has copied the page and mapped the copy. -/
def copiedMeanwhile : Nap := ⟨fun k => setPte k 0x1000 0x11011, fun _ => rfl⟩

/-- **The lock is kept.**  A write to a write-protected page, and while `do_wp_page` sleeps another
thread copies the page: the call returns with the kernel lock. -/
theorem race_keeps_lock :
    (bareSys (putPte (fun _ => .invalid) 0x1000 0x10201) []).rest.lockDepth = 0 ∧
      (handlePteFault copiedMeanwhile .still (bareSys (putPte (fun _ => .invalid) 0x1000 0x10201) [])
        noAnswer (privateArea 3) 0x1000 true).2.rest.lockDepth = 1 ∧
      ¬ Balanced copiedMeanwhile .still (bareSys (putPte (fun _ => .invalid) 0x1000 0x10201) [])
        noAnswer (privateArea 3) 0x1000 true := by
  have hafter : (handlePteFault copiedMeanwhile .still
      (bareSys (putPte (fun _ => .invalid) 0x1000 0x10201) [])
      noAnswer (privateArea 3) 0x1000 true).2.rest.lockDepth = 1 := by decide +kernel
  refine ⟨rfl, hafter, fun hbal => ?_⟩
  unfold Balanced at hbal
  rw [hafter] at hbal
  cases hbal

end I370Linux.FaultRaces
