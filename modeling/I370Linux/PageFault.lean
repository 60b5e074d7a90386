import I370Linux.UserCopy

/-! # Page faults and the copy of an address space

The model of `handle_mm_fault` with `do_no_page`, `do_swap_page` and `do_wp_page`, and of
`copy_page_range`, of `mm/memory.c`.  Frames go by their real address.

What the allocator, the file system and the swap device answer to a fault comes with the fault
(`Answer`); an answer that cannot be given, such as a page that is in use, counts as a failure.
The areas of System V shared memory, with the flag `VM_SHM`, are the ones whose operations have
`swapin` and no `nopage`.  No other task runs during a fault, so the tests whether an entry has
changed meanwhile are left out, and so are `min_flt`, `maj_flt`, `rss`, the readahead from swap space
and the signals. -/

namespace I370Linux.PageFault

open PagedStore Vma PageTable UserCopy Function

/-- What the rest of the kernel answers to one fault. -/
structure Answer where
  /-- A page for a page table can be had. -/
  table : Bool
  /-- `__get_free_page`. -/
  freePage : Option ℕ
  /-- The page in the page cache or the swap cache. -/
  cachedPage : Option ℕ
  /-- What the file holds. -/
  contents : ℕ → Byte

/-- The state of the frames and of swap space, and the page tables of a second address space. -/
structure Frames where
  other : Pgd
  count : ℕ → ℕ
  reserved : ℕ → Bool
  maxMapnr : ℕ
  /-- The page that `lookup_swap_cache` finds. -/
  swapCache : Pte → Option ℕ
  /-- The entry of a page in the swap cache. -/
  pageSwap : ℕ → Option Pte
  swapCount : Pte → ℕ
  swapFile : Pte → ℕ → Byte
  /-- `shp->shm_pages[idx]`, for the segment and the index in the offset of a swap entry. -/
  shmPages : ℕ → Pte
  zeroPage : ℕ
  emptyBadPage : ℕ
  /-- How often the kernel lock is held. -/
  lockDepth : ℤ
  answers : List Answer

abbrev Sys := Kernel Frames

/-! ### Pages -/

def setPte (k : Sys) (addr : ℕ) (pte : Pte) : Sys :=
  { k with pgd := putPte k.pgd addr (setPteVal pte) }

def setCount (k : Sys) (page n : ℕ) : Sys :=
  { k with rest := { k.rest with count := update k.rest.count page n } }

def fillPage (k : Sys) (page : ℕ) (c : ℕ → Byte) : Sys :=
  { k with mem := blit k.mem page c 0 pageSize }

def isFree (k : Sys) (page : ℕ) : Bool :=
  page % pageSize = 0 ∧ 0 < page ∧ page < taskSize ∧ page / pageSize < k.rest.maxMapnr ∧
    k.rest.count page = 0 ∧ !k.rest.reserved page

def getFreePage (k : Sys) (ans : Answer) : Option (ℕ × Sys) :=
  match ans.freePage with
  | some page => if isFree k page then some (page, setCount k page 1) else none
  | none => none

def freePage (k : Sys) (page : ℕ) : Sys :=
  if k.rest.reserved page then k else setCount k page (k.rest.count page - 1)

def swapFree (k : Sys) (entry : Pte) : Sys :=
  { k with rest := { k.rest with
      swapCount := update k.rest.swapCount entry (k.rest.swapCount entry - 1) } }

def deleteFromSwapCache (k : Sys) (page : ℕ) : Sys :=
  match k.rest.pageSwap page with
  | none => k
  | some entry =>
    let k := { k with rest := { k.rest with
      pageSwap := update k.rest.pageSwap page none
      swapCache := update k.rest.swapCache entry none } }
    swapFree (freePage k page) entry

def isPageShared (k : Sys) (page : ℕ) : Bool :=
  k.rest.reserved page ||
    decide ((k.rest.count page : ℤ) + (match k.rest.pageSwap page with
      | some entry => (k.rest.swapCount entry : ℤ) - 2
      | none => 0) > 1)

def freePageAndSwapCache (k : Sys) (page : ℕ) : Sys :=
  freePage (if (k.rest.pageSwap page).isSome && !isPageShared k page then deleteFromSwapCache k page
    else k) page

/-- `protection_map`.  `PAGE_COPY` is no write protection here. -/
def protectionMap (prot : BitVec 32) : BitVec 32 :=
  if prot &&& VM_WRITE ≠ 0 then if prot &&& VM_SHARED ≠ 0 then PAGE_SHARED else PAGE_COPY
  else if prot &&& (VM_READ ||| VM_EXEC) ≠ 0 then PAGE_READONLY
  else PAGE_NONE

theorem protectionMap_low (prot : BitVec 32) : protectionMap prot &&& PAGE_MASK = 0 := by
  rw [protectionMap]
  split_ifs <;> decide

theorem protectionMap_frame (prot : BitVec 32) : protectionMap prot &&& PFRA_MASK = 0 := by
  rw [protectionMap]
  split_ifs <;> decide

/-- `mk_pte` with the protection of the area. -/
def mkAreaPte (vma : VmArea) (page : ℕ) : Pte := mkPte page (protectionMap vma.vmPageProt)

/-- `nopage` of the operations of an area. -/
def hasNopage (vma : VmArea) : Bool := vma.vmOps ≠ none ∧ vma.vmFlags &&& VM_SHM = 0

/-- `swapin` of the operations of an area. -/
def hasSwapin (vma : VmArea) : Bool := vma.vmFlags &&& VM_SHM ≠ 0

def lockKernel (k : Sys) : Sys :=
  { k with rest := { k.rest with lockDepth := k.rest.lockDepth + 1 } }

def unlockKernel (k : Sys) : Sys :=
  { k with rest := { k.rest with lockDepth := k.rest.lockDepth - 1 } }

/-! ### Faults -/

def doAnonymousPage (k : Sys) (ans : Answer) (vma : VmArea) (addr : ℕ) (write : Bool) : Bool × Sys :=
  if write then
    match getFreePage k ans with
    | none => (false, k)
    | some (page, k) =>
      (true, setPte (fillPage k page fun _ => 0) addr (pteMkwrite (pteMkdirty (mkAreaPte vma page))))
  else (true, setPte k addr (pteWrprotect (mkAreaPte vma k.rest.zeroPage)))

/-- The `nopage` operation: a copy of the page if it may not be shared, or the page of the page
cache. -/
def nopage (k : Sys) (ans : Answer) (noShare : Bool) : Option (ℕ × Sys) :=
  if noShare then
    match getFreePage k ans with
    | none => none
    | some (page, k) => some (page, fillPage k page ans.contents)
  else
    match ans.cachedPage with
    | none => none
    | some page =>
      if 0 < k.rest.count page then some (page, setCount k page (k.rest.count page + 1)) else none

def doNoPage (k : Sys) (ans : Answer) (vma : VmArea) (addr : ℕ) (write : Bool) : Bool × Sys :=
  if !hasNopage vma then doAnonymousPage (unlockKernel k) ans vma addr write
  else
    match nopage k ans (if vma.vmFlags &&& VM_SHARED ≠ 0 then false else write) with
    | none => (false, unlockKernel k)
    | some (page, k) =>
      let entry := mkAreaPte vma page
      let entry :=
        if write then pteMkwrite (pteMkdirty entry)
        else if 1 < k.rest.count page ∧ vma.vmFlags &&& VM_SHARED = 0 then pteWrprotect entry
        else entry
      (true, setPte (unlockKernel k) addr entry)

/-- `lookup_swap_cache` and `read_swap_cache`. -/
def swapCachePage (k : Sys) (ans : Answer) (entry : Pte) : Option (ℕ × Sys) :=
  match k.rest.swapCache entry with
  | some page => some (page, setCount k page (k.rest.count page + 1))
  | none =>
    match getFreePage k ans with
    | none => none
    | some (page, k) =>
      let k := fillPage (setCount k page 2) page (k.rest.swapFile entry)
      some (page, { k with rest := { k.rest with
        swapCache := update k.rest.swapCache entry (some page)
        pageSwap := update k.rest.pageSwap page (some entry)
        swapCount := update k.rest.swapCount entry (k.rest.swapCount entry + 1) } })

def swapIn (k : Sys) (ans : Answer) (vma : VmArea) (addr : ℕ) (entry : Pte) (write : Bool) : Sys :=
  match swapCachePage k ans entry with
  | none => swapFree (setPte k addr (badPte k.rest.emptyBadPage)) entry
  | some (page, k) =>
    let k := swapFree k entry
    if !write || isPageShared k page then setPte k addr (mkAreaPte vma page)
    else
      setPte (deleteFromSwapCache k page) addr (pteMkwrite (pteMkdirty (mkAreaPte vma page)))

/-- `shm_swap_in`, for the segment of an attached area: the tests of the id and of the index are left out. -/
def shmSwapIn (k : Sys) (ans : Answer) (vma : VmArea) (entry : Pte) : Pte × Sys :=
  let idx := (entry >>> 12).toNat
  let pte := k.rest.shmPages idx
  if ptePresent pte then
    (pteModify pte (protectionMap vma.vmPageProt),
      setCount k (ptePage pte) (k.rest.count (ptePage pte) + 1))
  else
    match getFreePage k ans with
    | none => (badPte k.rest.emptyBadPage, k)
    | some (page, k) =>
      let k := if pteNone pte then fillPage k page fun _ => 0
        else swapFree (fillPage k page (k.rest.swapFile pte)) pte
      let pte := pteMkdirty (mkPte page PAGE_SHARED)
      let k := { k with rest := { k.rest with shmPages := update k.rest.shmPages idx pte } }
      (pteModify pte (protectionMap vma.vmPageProt), setCount k page (k.rest.count page + 1))

def doSwapPage (k : Sys) (ans : Answer) (vma : VmArea) (addr : ℕ) (entry : Pte) (write : Bool) :
    Bool × Sys :=
  if !hasSwapin vma then (true, unlockKernel (swapIn k ans vma addr entry write))
  else
    let (page, k) := shmSwapIn k ans vma entry
    let page :=
      if 1 < k.rest.count (ptePage page) ∧ vma.vmFlags &&& VM_SHARED = 0 then pteWrprotect page
      else page
    (true, unlockKernel (setPte k addr page))

/-- `do_wp_page`.  The way out for a page that is not in `mem_map` keeps the kernel lock. -/
def doWpPage (k : Sys) (ans : Answer) (vma : VmArea) (addr : ℕ) (pte : Pte) : Bool × Sys :=
  let oldPage := ptePage pte
  if k.rest.maxMapnr ≤ oldPage / pageSize then (false, k)
  else if k.rest.count oldPage = 1 then
    (true, setPte (unlockKernel k) addr (pteMkdirty (pteMkwrite pte)))
  else if k.rest.count oldPage = 2 ∧ (k.rest.pageSwap oldPage).any (fun e => k.rest.swapCount e = 1)
    then (true, setPte (unlockKernel (deleteFromSwapCache k oldPage)) addr
      (pteMkdirty (pteMkwrite pte)))
  else
    match getFreePage (unlockKernel k) ans with
    | none => (false, unlockKernel k)
    | some (newPage, k) =>
      let k := fillPage k newPage (if oldPage = k.rest.zeroPage then fun _ => 0
        else fun o => k.mem (oldPage + o))
      (true, freePage (setPte k addr (pteMkwrite (pteMkdirty (mkAreaPte vma newPage)))) oldPage)

def handlePteFault (k : Sys) (ans : Answer) (vma : VmArea) (addr : ℕ) (write : Bool) : Bool × Sys :=
  let k := lockKernel k
  let entry := pteAt k.pgd addr
  if !ptePresent entry then
    if pteNone entry then doNoPage k ans vma addr write
    else doSwapPage k ans vma addr entry write
  else
    let entry := pteMkyoung entry
    let k := setPte k addr entry
    if write then
      if !pteWrite entry then doWpPage k ans vma addr entry
      else (true, unlockKernel (setPte k addr (pteMkdirty entry)))
    else (true, unlockKernel k)

def noAnswer : Answer := ⟨false, none, none, fun _ => 0⟩

/-- `handle_mm_fault`, with `i370_pte_alloc`. If there is no page for a page table, the segment gets the bad one, which
`pmd_bad` does not recognise: it compares the entry with the first word of the bad table. -/
def handleMmFault (k : Sys) (vma : VmArea) (addr : ℕ) (write : Bool) : Bool × Sys :=
  let ans := k.rest.answers.headD noAnswer
  let k := { k with rest := { k.rest with answers := k.rest.answers.tail } }
  match k.pgd (segment addr) with
  | .bad _ => (true, k)
  | .table _ => handlePteFault k ans vma addr write
  | .invalid =>
    if ans.table then
      handlePteFault
        { k with pgd := update k.pgd (segment addr) (.table fun _ => pteCleared) }
        ans vma addr write
    else (false, { k with pgd := update k.pgd (segment addr) (.bad k.rest.emptyBadPage) })

/-- The handler as `make_pages_present` calls it. -/
def fault : FaultHandler Frames := fun k vma addr write => (handleMmFault k vma addr write).2

/-! ### The copy of an area -/

def isCow (vma : VmArea) : Bool := vma.vmFlags &&& (VM_SHARED ||| VM_MAYWRITE) = VM_MAYWRITE

def setOther (k : Sys) (addr : ℕ) (pte : Pte) : Sys :=
  { k with rest := { k.rest with other := putPte k.rest.other addr (setPteVal pte) } }

def swapDuplicate (k : Sys) (entry : Pte) : Sys :=
  { k with rest := { k.rest with
      swapCount := update k.rest.swapCount entry (k.rest.swapCount entry + 1) } }

/-- One turn of the inner loop of `copy_page_range`.  The bad page is a reserved one, so the bad table
is only read. -/
def copyOnePte (vma : VmArea) (k : Sys) (addr : ℕ) : Sys :=
  let pte := pteAt k.pgd addr
  if pteNone pte then k
  else if !ptePresent pte then setOther (swapDuplicate k pte) addr pte
  else
    let page := ptePage pte
    if k.rest.maxMapnr ≤ page / pageSize ∨ k.rest.reserved page then setOther k addr pte
    else
      let pte := if isCow vma then pteWrprotect pte else pte
      let k := if isCow vma then setPte k addr pte else k
      let pte := if vma.vmFlags &&& VM_SHARED ≠ 0 then pteMkclean pte else pte
      setCount (setOther k addr (pteMkold pte)) page (k.rest.count page + 1)

/-- A page table for the segment in the second address space, if there is a page for it. -/
def otherTable (tables : ℕ → Bool) (k : Sys) (addr : ℕ) : Bool × Sys :=
  match k.rest.other (segment addr) with
  | .invalid =>
    (tables (segment addr), { k with rest := { k.rest with
      other := update k.rest.other (segment addr)
        (if tables (segment addr) then .table fun _ => pteCleared else .bad k.rest.emptyBadPage) } })
  | _ => (true, k)

/-- The loops of `copy_page_range`; a segment without a table is skipped. -/
def copyLoop (tables : ℕ → Bool) (vma : VmArea) : ℕ → Sys → ℕ → Bool × Sys
  | 0, k, _ => (true, k)
  | n + 1, k, addr =>
    match k.pgd (segment addr) with
    | .invalid =>
      let addr := (addr + 2 ^ 20) / 2 ^ 20 * 2 ^ 20
      if vma.vmEnd ≤ addr then (true, k) else copyLoop tables vma n k addr
    | _ =>
      match otherTable tables k addr with
      | (false, k) => (false, k)
      | (true, k) =>
        let k := copyOnePte vma k addr
        if vma.vmEnd ≤ addr + pageSize then (true, k)
        else copyLoop tables vma n k (addr + pageSize)

/-- `copy_page_range` to the second address space. `tables` says for which segments there is a page for a page table; the
result is whether all went well. -/
def copyPageRange (tables : ℕ → Bool) (k : Sys) (vma : VmArea) : Bool × Sys :=
  copyLoop tables vma ((vma.vmEnd - vma.vmStart) / pageSize) k vma.vmStart

/-- A machine with the pages below `0x10000` reserved and `0x100` page frames, of which the one at `0x10000` is in use. -/
def bareSys (pgd : Pgd) (areas : List VmArea) : Sys where
  mem := fun _ => 0
  pgd := pgd
  areas := areas
  rest :=
    { other := fun _ => .invalid
      count := fun f => if f = 0x10000 then 1 else 0
      reserved := fun f => f < 0x10000
      maxMapnr := 0x100
      swapCache := fun _ => none
      pageSwap := fun _ => none
      swapCount := fun _ => 0
      swapFile := fun _ _ => 0
      shmPages := fun _ => pteCleared
      zeroPage := 0x2000
      emptyBadPage := 0x3000
      lockDepth := 0
      answers := [] }

end I370Linux.PageFault
