import I370Linux.MmapAvl

/-! # The areas of an address space

The model of `find_vma`, `find_vma_prev`, `insert_vm_struct`, `build_mmap_avl` and
`merge_segments` of `mm/mmap.c`.

A `vm_area_struct` is named by a number and `Mm.vma` gives its fields, since the list, the tree and
the cache share the structures and the calls edit them in place.  The list `mm->mmap` is the list of
the names in the order of `vm_next`.  Left out are the fields of an area that no function here reads
(the links of the i_mmap ring), the page tables, and the reference counts of files; `vm_page_prot`
is kept as the index into `protection_map`. -/

namespace I370Linux.Vma

open MmapAvl

abbrev pageSize : ℕ := 4096
abbrev taskSize : ℕ := 0x80000000
abbrev avlMinMapCount : ℤ := 32
abbrev maxMapCount : ℤ := 65536

/-- `PAGE_ALIGN`, on an `unsigned long`. -/
def pageAlign (n : ℕ) : ℕ := (n + (pageSize - 1)) % 2 ^ 32 / pageSize * pageSize

abbrev VM_READ : BitVec 32 := 0x0001
abbrev VM_WRITE : BitVec 32 := 0x0002
abbrev VM_EXEC : BitVec 32 := 0x0004
abbrev VM_SHARED : BitVec 32 := 0x0008
abbrev VM_MAYREAD : BitVec 32 := 0x0010
abbrev VM_MAYWRITE : BitVec 32 := 0x0020
abbrev VM_MAYEXEC : BitVec 32 := 0x0040
abbrev VM_MAYSHARE : BitVec 32 := 0x0080
abbrev VM_GROWSDOWN : BitVec 32 := 0x0100
abbrev VM_SHM : BitVec 32 := 0x0400
abbrev VM_DENYWRITE : BitVec 32 := 0x0800
abbrev VM_EXECUTABLE : BitVec 32 := 0x1000
abbrev VM_LOCKED : BitVec 32 := 0x2000
abbrev VM_IO : BitVec 32 := 0x4000

/-- A `vm_area_struct`. -/
@[ext]
structure VmArea where
  vmStart : ℕ
  vmEnd : ℕ
  vmPageProt : BitVec 32
  vmFlags : BitVec 32
  vmOps : Option ℕ
  vmOffset : BitVec 32
  vmFile : Option ℕ
  vmPte : ℕ
deriving DecidableEq, Repr

namespace VmArea

def locked (a : VmArea) : Bool := a.vmFlags &&& VM_LOCKED != 0

def pages (a : VmArea) : ℤ := (a.vmEnd - a.vmStart : ℕ) / (pageSize : ℤ)

def Contains (a : VmArea) (addr : ℕ) : Prop := a.vmStart ≤ addr ∧ addr < a.vmEnd

instance (a : VmArea) (addr : ℕ) : Decidable (a.Contains addr) :=
  inferInstanceAs (Decidable (_ ∧ _))

end VmArea

/-- A `mm_struct` with its areas. -/
structure Mm where
  vma : ℕ → VmArea
  mmap : List ℕ
  mmapAvl : AvlTree ℕ
  mmapCache : Option ℕ
  mapCount : ℤ
  totalVm : ℤ
  lockedVm : ℤ
  defFlags : BitVec 32
  brk : ℕ
  endCode : ℕ

namespace Mm

/-- `vm_avl_key`. -/
def key (mm : Mm) (i : ℕ) : ℕ := (mm.vma i).vmEnd

def areas (mm : Mm) : List VmArea := mm.mmap.map mm.vma

def setVma (mm : Mm) (i : ℕ) (a : VmArea) : Mm := { mm with vma := Function.update mm.vma i a }

/-- An address space of these areas, too few for a tree. -/
def ofAreas (as : List VmArea) : Mm where
  vma := fun i => as.getD i ⟨0, 0, 0, 0, none, 0, none, 0⟩
  mmap := List.range as.length
  mmapAvl := .nil
  mmapCache := none
  mapCount := as.length
  totalVm := (as.map (·.pages)).sum
  lockedVm := (as.map fun a => if a.locked then a.pages else 0).sum
  defFlags := 0
  brk := 0
  endCode := 0

/-- A structure from `vm_area_cachep`: one that is not in use. -/
def kmemCacheAlloc (mm : Mm) : ℕ := mm.mmap.foldr max 0 + 1

end Mm

/-! ### Lookup -/

/-- The chain of `vm_next` from the link of `prev` on, or from `mm->mmap`. -/
def vmNext (l : List ℕ) : Option ℕ → List ℕ
  | none => l
  | some p => (l.dropWhile (· ≠ p)).tail

/-- The walk of `find_vma` down the tree; `vma` is the best area so far. -/
def treeFind (v : ℕ → VmArea) (addr : ℕ) : AvlTree ℕ → Option ℕ → Option ℕ
  | .nil, vma => vma
  | .node l i _ r, vma =>
    if addr < (v i).vmEnd then
      if (v i).vmStart ≤ addr then some i else treeFind v addr l (some i)
    else treeFind v addr r vma

/-- `find_vma` without its cache. -/
def lookupVma (mm : Mm) (addr : ℕ) : Option ℕ :=
  if mm.mmapAvl = .nil then mm.mmap.find? (fun i => addr < (mm.vma i).vmEnd)
  else treeFind mm.vma addr mm.mmapAvl none

/-- `find_vma`, with the cache it leaves. -/
def findVma (mm : Mm) (addr : ℕ) : Option ℕ × Mm :=
  match mm.mmapCache.filter (fun i => decide ((mm.vma i).Contains addr)) with
  | some i => (some i, mm)
  | none =>
    match lookupVma mm addr with
    | some i => (some i, { mm with mmapCache := some i })
    | none => (none, mm)

/-- The list walk of `find_vma_prev`. -/
def walkPrev (v : ℕ → VmArea) (addr : ℕ) : Option ℕ → List ℕ → Option ℕ × Option ℕ
  | prev, [] => (none, prev)
  | prev, i :: l =>
    if (v i).vmEnd ≤ addr then walkPrev v addr (some i) l else (some i, prev)

/-- The walk of `find_vma_prev` down the tree; an area is kept with its left son. -/
def treeFindPrev (v : ℕ → VmArea) (addr : ℕ) :
    AvlTree ℕ → Option (AvlTree ℕ × ℕ) → Option ℕ → Option ℕ → Option (AvlTree ℕ × ℕ) × Option ℕ
  | .nil, vma, _, prev => (vma, prev)
  | .node l i _ r, vma, lastTurnRight, prev =>
    if addr < (v i).vmEnd then
      if (v i).vmStart ≤ addr then (some (l, i), lastTurnRight)
      else treeFindPrev v addr l (some (l, i)) lastTurnRight lastTurnRight
    else treeFindPrev v addr r vma (some i) prev

/-- The last right son, starting with `prev` for an empty tree. -/
def rightmost (prev : Option ℕ) : AvlTree ℕ → Option ℕ
  | .nil => prev
  | .node _ i _ r => rightmost (some i) r

/-- `find_vma_prev`: the area and `*pprev`. -/
def findVmaPrev (mm : Mm) (addr : ℕ) : Option ℕ × Option ℕ :=
  if mm.mmapAvl = .nil then walkPrev mm.vma addr none mm.mmap
  else
    match treeFindPrev mm.vma addr mm.mmapAvl none none none with
    | (some (l, i), prev) => (some i, rightmost prev l)
    | (none, _) => (none, none)

/-! ### Insertion -/

/-- Link `i` in behind `prev`. -/
def linkAfter (i : ℕ) : Option ℕ → List ℕ → List ℕ
  | none, l => i :: l
  | some _, [] => []
  | some p, j :: l => if j = p then j :: i :: l else j :: linkAfter i (some p) l

def buildMmapAvl (mm : Mm) : AvlTree ℕ := mm.mmap.foldl (fun t i => avlInsert mm.key i t) .nil

/-- `insert_vm_struct`, without the i_mmap ring. -/
def insertVmStruct (mm : Mm) (i : ℕ) : Mm :=
  let mm :=
    if mm.mmapAvl = .nil then
      let below := fun j => decide ((mm.vma j).vmStart ≤ (mm.vma i).vmStart)
      { mm with mmap := mm.mmap.takeWhile below ++ i :: mm.mmap.dropWhile below }
    else
      let (t, prev, _) := avlInsertNeighbours mm.key i mm.mmapAvl
      { mm with mmapAvl := t, mmap := linkAfter i prev mm.mmap }
  let mm := { mm with mapCount := mm.mapCount + 1 }
  if avlMinMapCount ≤ mm.mapCount ∧ mm.mmapAvl = .nil then
    { mm with mmapAvl := buildMmapAvl mm }
  else mm

/-- Take `i` out of the list and, if there is one, out of the tree. -/
def unlink (mm : Mm) (i : ℕ) : Mm :=
  { mm with
    mmap := mm.mmap.erase i
    mmapAvl := if mm.mmapAvl = .nil then .nil else avlRemove mm.key i mm.mmapAvl }

/-! ### Merging -/

/-- The tests of `merge_segments` on two neighbours. -/
def mergeable (prev mpnt : VmArea) : Bool :=
  mpnt.vmFile = prev.vmFile && mpnt.vmPte = prev.vmPte && mpnt.vmOps = prev.vmOps &&
    mpnt.vmFlags = prev.vmFlags && prev.vmEnd = mpnt.vmStart &&
    (if mpnt.vmFile ≠ none ∨ mpnt.vmFlags &&& VM_SHM ≠ 0 then
      prev.vmOffset + BitVec.ofNat 32 prev.vmEnd - BitVec.ofNat 32 prev.vmStart = mpnt.vmOffset
    else true)

/-- Merge `mpnt` into `prev`; `mpnt` is freed. -/
def mergeInto (mm : Mm) (prev mpnt : ℕ) : Mm :=
  { (unlink mm mpnt).setVma prev { mm.vma prev with vmEnd := (mm.vma mpnt).vmEnd } with
    mapCount := mm.mapCount - 1 }

/-- The loop of `merge_segments`, over the areas behind `prev`. -/
def mergeLoop (endAddr : ℕ) : Mm → ℕ → List ℕ → Mm
  | mm, _, [] => mm
  | mm, prev, mpnt :: rest =>
    if (mm.vma prev).vmStart < endAddr then
      if mergeable (mm.vma prev) (mm.vma mpnt) then
        mergeLoop endAddr (mergeInto mm prev mpnt) prev rest
      else mergeLoop endAddr mm mpnt rest
    else mm

def mergeSegments (mm : Mm) (startAddr endAddr : ℕ) : Mm :=
  match findVmaPrev mm startAddr with
  | (none, _) => mm
  | (some mpnt, prev1) =>
    let prev := prev1.getD mpnt
    { mergeLoop endAddr mm prev (vmNext mm.mmap (some prev)) with mmapCache := none }

end I370Linux.Vma
