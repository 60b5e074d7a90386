import I370Linux.Munmap

/-! # The calls that change the areas of an address space

The model of `get_unmapped_area`, `do_mmap` and `sys_brk` of `mm/mmap.c`, `sys_mprotect` of
`mm/mprotect.c`, `do_mlock` with its callers of `mm/mlock.c`, and `sys_mremap` of `mm/mremap.c`.

What the rest of the kernel contributes to a call comes with the call: whether an allocation
succeeds, the resource limits, the file and what its `mmap` operation does to the new area.
`make_pages_present` is its lookup alone, since page tables are not part of this model. -/

namespace I370Linux.Vma

open MmapAvl

abbrev PROT_WRITE : BitVec 32 := 2
abbrev PROT_ALL : BitVec 32 := 7
abbrev MAP_SHARED : BitVec 32 := 0x01
abbrev MAP_PRIVATE : BitVec 32 := 0x02
abbrev MAP_TYPE : BitVec 32 := 0x0f
abbrev MAP_FIXED : BitVec 32 := 0x10
abbrev MAP_NORESERVE : BitVec 32 := 0x40
abbrev MREMAP_MAYMOVE : BitVec 32 := 1

/-- `make_pages_present`, as far as the areas go: its `find_vma`. -/
def makePagesPresent (mm : Mm) (addr : ℕ) : Mm := (findVma mm addr).2

/-! ### Mapping -/

/-- The loop of `get_unmapped_area`, along the areas from `vmm` on. -/
def gapFrom (v : ℕ → VmArea) (len : ℕ) : ℕ → List ℕ → ℕ
  | addr, [] => if taskSize - len < addr then 0 else addr
  | addr, vmm :: l =>
    if taskSize - len < addr then 0
    else if addr + len ≤ (v vmm).vmStart then addr
    else gapFrom v len (v vmm).vmEnd l

/-- `get_unmapped_area`; 0 is failure. -/
def getUnmappedArea (mm : Mm) (addr len : ℕ) : ℕ × Mm :=
  if len > taskSize then (0, mm)
  else
    let addr := pageAlign (if addr = 0 then taskSize / 3 else addr)
    match findVma mm addr with
    | (none, mm) => (gapFrom mm.vma len addr [], mm)
    | (some vmm, mm) => (gapFrom mm.vma len addr (vmm :: vmNext mm.mmap (some vmm)), mm)

/-- An open file, with what its `mmap` operation makes of an area. -/
structure File where
  fMode : BitVec 32
  isAppend : Bool
  locksVerifyLocked : Bool
  hasMmap : Bool
  iWritecount : ℤ
  mmapOp : Except Errno (VmAttr × BitVec 32)

structure MmapEnv where
  rlimMemlock : ℕ
  rlimAs : ℕ
  vmEnoughMemory : Bool
  allocVma : Bool
  allocExtra : Bool

/-- The checks of `do_mmap` on the type of the mapping and the file. -/
def checkFile (file : Option File) (prot flags : BitVec 32) : Option Errno :=
  match file with
  | none => if flags &&& MAP_TYPE ≠ MAP_PRIVATE then some .EINVAL else none
  | some f =>
    if flags &&& MAP_TYPE = MAP_SHARED then
      if prot &&& PROT_WRITE ≠ 0 ∧ f.fMode &&& 2 = 0 then some .EACCES
      else if f.isAppend ∧ f.fMode &&& 2 ≠ 0 then some .EACCES
      else if f.locksVerifyLocked then some .EAGAIN
      else if f.fMode &&& 1 = 0 then some .EACCES
      else none
    else if flags &&& MAP_TYPE = MAP_PRIVATE then
      if f.fMode &&& 1 = 0 then some .EACCES else none
    else some .EINVAL

/-- `vm_flags` of the arguments of `do_mmap`, and what it adds for the file. -/
def newFlags (mm : Mm) (file : Option File) (prot flags : BitVec 32) : BitVec 32 :=
  let fl := (prot &&& VM_READ) ||| (prot &&& VM_WRITE) ||| (prot &&& VM_EXEC) |||
    ((flags &&& VM_GROWSDOWN) ||| (flags &&& VM_DENYWRITE) ||| (flags &&& VM_EXECUTABLE)) |||
    mm.defFlags
  match file with
  | none => fl ||| (VM_MAYREAD ||| VM_MAYWRITE ||| VM_MAYEXEC)
  | some f =>
    let fl := if f.fMode &&& 1 ≠ 0 then fl ||| (VM_MAYREAD ||| VM_MAYWRITE ||| VM_MAYEXEC) else fl
    if flags &&& MAP_SHARED ≠ 0 then
      let fl := fl ||| (VM_SHARED ||| VM_MAYSHARE)
      if f.fMode &&& 2 = 0 then fl &&& ~~~(VM_MAYWRITE ||| VM_SHARED) else fl
    else fl

/-- The file's `mmap` operation; it does not change where the area is. -/
def callMmap (file : Option File) (a : VmArea) : Except Errno VmArea :=
  match file with
  | none => .ok a
  | some f =>
    if a.vmFlags &&& VM_DENYWRITE ≠ 0 ∧ 0 < f.iWritecount then .error .ETXTBSY
    else
      match f.mmapOp with
      | .error e => .error e
      | .ok (attr, off) => .ok { a with
          vmFlags := attr.vmFlags
          vmPageProt := attr.vmPageProt
          vmOps := attr.vmOps
          vmFile := attr.vmFile
          vmPte := attr.vmPte
          vmOffset := off }

/-- The end of `do_mmap`: the area is linked in, merged and counted.  Its fields are read before
the merge. -/
def mapArea (mm : Mm) (a : VmArea) : Mm :=
  let vma := mm.kmemCacheAlloc
  let mm := insertVmStruct (mm.setVma vma a) vma
  let mm := mergeSegments mm a.vmStart a.vmEnd
  let mm := mm.charge a.locked a.pages
  if a.locked then makePagesPresent mm a.vmStart else mm

/-- `do_mmap` from the point where the address is known. -/
def doMmapAt (mm : Mm) (env : MmapEnv) (file : Option File) (addr len : ℕ)
    (prot flags off : BitVec 32) : Except Errno ℕ × Mm :=
  if file.any (fun f => !f.hasMmap) then (.error .ENODEV, mm)
  else if !env.allocVma then (.error .ENOMEM, mm)
  else
    let fl := newFlags mm file prot flags
    let a : VmArea := ⟨addr, addr + len, fl &&& 0xf, fl, none, off, none, 0⟩
    let u := doMunmap mm env.allocExtra addr len
    if u.error ≠ none then (.error .ENOMEM, u.mm)
    else if (u.mm.totalVm * pageSize + len) % 2 ^ 32 > env.rlimAs then (.error .ENOMEM, u.mm)
    else if fl &&& (VM_SHARED ||| VM_WRITE) = VM_WRITE ∧ flags &&& MAP_NORESERVE = 0 ∧
        !env.vmEnoughMemory then (.error .ENOMEM, u.mm)
    else
      match callMmap file a with
      | .error e => (.error e, u.mm)
      | .ok a => (.ok addr, mapArea u.mm a)

def doMmap (mm : Mm) (env : MmapEnv) (file : Option File) (addr len : ℕ)
    (prot flags off : BitVec 32) : Except Errno ℕ × Mm :=
  let len := pageAlign len
  if len = 0 then (.ok addr, mm)
  else if len > taskSize ∨ addr > taskSize - len then (.error .EINVAL, mm)
  else if 2 ^ 32 ≤ off.toNat + len then (.error .EINVAL, mm)
  else if mm.mapCount > maxMapCount then (.error .ENOMEM, mm)
  else if mm.defFlags &&& VM_LOCKED ≠ 0 ∧
      (mm.lockedVm * pageSize + len) % 2 ^ 32 > env.rlimMemlock then (.error .EAGAIN, mm)
  else
    match checkFile file prot flags with
    | some e => (.error e, mm)
    | none =>
      if flags &&& MAP_FIXED ≠ 0 then
        if addr % pageSize ≠ 0 then (.error .EINVAL, mm)
        else doMmapAt mm env file addr len prot flags off
      else
        let (addr, mm) := getUnmappedArea mm addr len
        if addr = 0 then (.error .ENOMEM, mm)
        else doMmapAt mm env file addr len prot flags off

def findVmaIntersection (mm : Mm) (startAddr endAddr : ℕ) : Option ℕ × Mm :=
  match findVma mm startAddr with
  | (some i, mm) => (if endAddr ≤ (mm.vma i).vmStart then none else some i, mm)
  | (none, mm) => (none, mm)

/-- `sys_brk`; `rlimData` is `none` for `RLIM_INFINITY`. -/
def sysBrk (mm : Mm) (env : MmapEnv) (rlimData : Option ℕ) (brk : ℕ) : ℕ × Mm :=
  if brk < mm.endCode then (mm.brk, mm)
  else
    let newbrk := pageAlign brk
    let oldbrk := pageAlign mm.brk
    if oldbrk = newbrk then (brk, { mm with brk := brk })
    else if brk ≤ mm.brk then
      let u := doMunmap mm env.allocExtra newbrk ((oldbrk + 2 ^ 32 - newbrk) % 2 ^ 32)
      if u.error = none then (brk, { u.mm with brk := brk }) else (u.mm.brk, u.mm)
    else if rlimData.any (fun r => brk - mm.endCode > r) then (mm.brk, mm)
    else
      match findVmaIntersection mm oldbrk ((newbrk + pageSize) % 2 ^ 32) with
      | (some _, mm) => (mm.brk, mm)
      | (none, mm) =>
        if !env.vmEnoughMemory then (mm.brk, mm)
        else
          match doMmap mm env none oldbrk ((newbrk + 2 ^ 32 - oldbrk) % 2 ^ 32) PROT_ALL
              (MAP_FIXED ||| MAP_PRIVATE) 0 with
          | (.ok a, mm) => if a = oldbrk then (brk, { mm with brk := brk }) else (mm.brk, mm)
          | (.error _, mm) => (mm.brk, mm)

/-! ### Changing the flags of a range

The `mprotect_fixup` and `mlock_fixup` functions are the same but for the fields they set, `set`,
and the error for a failed allocation. -/

section Fixup

variable (set : VmArea → VmArea)

def fixupAll (mm : Mm) (vma : ℕ) : Mm := mm.setVma vma (set (mm.vma vma))

/-- The head of the area, up to `fin`, moves to a new structure with the new flags. -/
def fixupStart (mm : Mm) (vma fin : ℕ) : Mm :=
  let a := mm.vma vma
  let n := mm.kmemCacheAlloc
  insertVmStruct ((mm.setVma vma (a.tailFrom fin)).setVma n (set (a.headTo fin))) n

/-- The tail of the area, from `start` on, moves to a new structure with the new flags. -/
def fixupEnd (mm : Mm) (vma start : ℕ) : Mm :=
  let a := mm.vma vma
  let n := mm.kmemCacheAlloc
  insertVmStruct ((mm.setVma vma (a.headTo start)).setVma n (set (a.tailFrom start))) n

/-- Both ends of the area move to new structures; the area keeps the middle. -/
def fixupMiddle (mm : Mm) (vma start fin : ℕ) : Mm :=
  let a := mm.vma vma
  let left := mm.kmemCacheAlloc
  let right := left + 1
  let mm := ((mm.setVma vma (set ((a.tailFrom start).headTo fin))).setVma left
    (a.headTo start)).setVma right (a.tailFrom fin)
  insertVmStruct (insertVmStruct mm left) right

/-- The choice between the four; `alloc` tells which of its allocations succeed. -/
def fixup (mm : Mm) (alloc : Bool × Bool) (vma start fin : ℕ) : Option Mm :=
  if start = (mm.vma vma).vmStart then
    if fin = (mm.vma vma).vmEnd then some (fixupAll set mm vma)
    else if alloc.1 then some (fixupStart set mm vma fin) else none
  else if fin = (mm.vma vma).vmEnd then
    if alloc.1 then some (fixupEnd set mm vma start) else none
  else if alloc.1 && alloc.2 then some (fixupMiddle set mm vma start fin)
  else none

end Fixup

def mprotectFixup (mm : Mm) (alloc : Bool × Bool) (vma start fin : ℕ) (newflags : BitVec 32) :
    Option Mm :=
  if newflags = (mm.vma vma).vmFlags then some mm
  else fixup (fun a => { a with vmFlags := newflags, vmPageProt := newflags &&& 0xf })
    mm alloc vma start fin

def mlockFixup (mm : Mm) (alloc : Bool × Bool) (vma start fin : ℕ) (newflags : BitVec 32) :
    Option Mm :=
  if newflags = (mm.vma vma).vmFlags then some mm
  else
    match fixup (fun a => { a with vmFlags := newflags }) mm alloc vma start fin with
    | none => none
    | some mm =>
      let pages : ℤ := (fin - start : ℕ) / (pageSize : ℤ)
      some (makePagesPresent { mm with
        lockedVm := mm.lockedVm + if newflags &&& VM_LOCKED ≠ 0 then pages else -pages } start)

/-- The loop of `sys_mprotect` and `do_mlock` over the areas of a range: `body` treats one area, `gap` is the error where the
areas do not adjoin, `rest` is the list behind `vma`. -/
def rangeLoop (body : Mm → ℕ → ℕ → ℕ → Except Errno Mm) (gap : Errno) (fin : ℕ) :
    List ℕ → ℕ → Mm → ℕ → Option Errno × Mm
  | rest, vma, mm, nstart =>
    let tmp := (mm.vma vma).vmEnd
    if fin ≤ tmp then
      match body mm vma nstart fin with
      | .error e => (some e, mm)
      | .ok mm => (none, mm)
    else
      match body mm vma nstart tmp with
      | .error e => (some e, mm)
      | .ok mm =>
        match rest with
        | [] => (some gap, mm)
        | next :: rest =>
          if (mm.vma next).vmStart ≠ tmp then (some gap, mm)
          else rangeLoop body gap fin rest next mm tmp

/-- The common part of `sys_mprotect` and `do_mlock`: look the start up, run the loop, merge. -/
def changeRange (body : Mm → ℕ → ℕ → ℕ → Except Errno Mm) (gap : Errno) (mm : Mm)
    (start fin : ℕ) : Option Errno × Mm :=
  match findVma mm start with
  | (none, mm) => (some gap, mm)
  | (some vma, mm) =>
    if (mm.vma vma).vmStart > start then (some gap, mm)
    else
      let (error, mm) := rangeLoop body gap fin (vmNext mm.mmap (some vma)) vma mm start
      (error, mergeSegments mm start fin)

/-- `sys_mprotect`; `alloc` answers the allocations made for an area. -/
def sysMprotect (mm : Mm) (alloc : ℕ → Bool × Bool) (start len : ℕ) (prot : BitVec 32) :
    Option Errno × Mm :=
  if start % pageSize ≠ 0 then (some .EINVAL, mm)
  else
    let fin := (start + pageAlign len) % 2 ^ 32
    if fin < start then (some .EINVAL, mm)
    else if prot &&& ~~~PROT_ALL ≠ 0 then (some .EINVAL, mm)
    else if fin = start then (none, mm)
    else
      changeRange (fun mm vma start fin =>
        let newflags := prot ||| ((mm.vma vma).vmFlags &&& ~~~PROT_ALL)
        if newflags &&& ~~~(newflags >>> 4) &&& 0xf ≠ 0 then .error .EACCES
        else
          match mprotectFixup mm (alloc vma) vma start fin newflags with
          | none => .error .ENOMEM
          | some mm => .ok mm) .EFAULT mm start fin

def doMlock (mm : Mm) (capable : Bool) (alloc : ℕ → Bool × Bool) (start len : ℕ) (on : Bool) :
    Option Errno × Mm :=
  if !capable then (some .EPERM, mm)
  else
    let fin := (start + pageAlign len) % 2 ^ 32
    if fin < start then (some .EINVAL, mm)
    else if fin = start then (none, mm)
    else
      changeRange (fun mm vma start fin =>
        let newflags := (mm.vma vma).vmFlags ||| VM_LOCKED
        let newflags := if on then newflags else newflags &&& ~~~VM_LOCKED
        match mlockFixup mm (alloc vma) vma start fin newflags with
        | none => .error .EAGAIN
        | some mm => .ok mm) .ENOMEM mm start fin

/-- `sys_mlock` and `sys_munlock`: the range is widened to whole pages. -/
def sysMlock (mm : Mm) (capable withinLimits : Bool) (alloc : ℕ → Bool × Bool) (start len : ℕ)
    (on : Bool) : Option Errno × Mm :=
  let len := (len + start % pageSize + (pageSize - 1)) % 2 ^ 32 / pageSize * pageSize
  let start := start / pageSize * pageSize
  if on ∧ !withinLimits then (some .ENOMEM, mm)
  else doMlock mm capable alloc start len on

/-! ### Moving -/

/-- What the rest of the kernel answers to `sys_mremap`; `stale` is what a `vm_area_struct` that was
freed on the way holds when it is read. -/
structure MremapEnv extends MmapEnv where
  movePageTables : Bool
  stale : VmArea

/-- `move_vma` up to the merge: the new area, its structure and the address space. -/
def moveIn (mm : Mm) (env : MremapEnv) (vma addr newLen : ℕ) : Option (VmArea × ℕ) × Mm :=
  if !env.allocVma then (none, mm)
  else
    let (newAddr, mm) := getUnmappedArea mm addr newLen
    if newAddr = 0 ∨ !env.movePageTables then (none, mm)
    else
      let a := mm.vma vma
      let n : VmArea := { a with
        vmStart := newAddr
        vmEnd := newAddr + newLen
        vmOffset := a.vmOffset + BitVec.ofNat 32 (addr - a.vmStart) }
      let newVma := mm.kmemCacheAlloc
      let mm := insertVmStruct (mm.setVma newVma n) newVma
      (some (n, newVma), mergeSegments mm n.vmStart n.vmEnd)

/-- `move_vma`.  After the merge and `do_munmap` it reads the flags and bounds of `new_vma`, which
the merge frees if it joins the area to its predecessor. -/
def moveVma (mm : Mm) (env : MremapEnv) (vma addr oldLen newLen : ℕ) : Except Errno ℕ × Mm :=
  match moveIn mm env vma addr newLen with
  | (none, mm) => (.error .ENOMEM, mm)
  | (some (n, newVma), mm) =>
    let freed := newVma ∉ mm.mmap
    let mm := (doMunmap mm env.allocExtra addr oldLen).mm
    let seen := if freed then env.stale else mm.vma newVma
    let mm := mm.charge seen.locked (newLen / pageSize)
    (.ok n.vmStart, if seen.locked then makePagesPresent mm seen.vmStart else mm)

/-- Where `sys_mremap` gets without moving the area: it is done, or it calls `move_vma`. -/
inductive MremapPlan where
  | done (ret : Except Errno ℕ) (mm : Mm)
  | move (mm : Mm) (vma oldLen newLen : ℕ)

/-- `max_addr` of `sys_mremap`: where the gap behind an area ends. -/
def maxAddr (mm : Mm) (vma : ℕ) : ℕ :=
  match vmNext mm.mmap (some vma) with
  | [] => taskSize
  | next :: _ => (mm.vma next).vmStart

/-- `sys_mremap` up to its call of `move_vma`. -/
def mremapPlan (mm : Mm) (env : MremapEnv) (addr oldLen newLen : ℕ) (flags : BitVec 32) :
    MremapPlan :=
  if addr % pageSize ≠ 0 then .done (.error .EINVAL) mm
  else
    let oldLen := pageAlign oldLen
    let newLen := pageAlign newLen
    if newLen ≤ oldLen then
      .done (.ok addr) (doMunmap mm env.allocExtra ((addr + newLen) % 2 ^ 32) (oldLen - newLen)).mm
    else
      match findVma mm addr with
      | (none, mm) => .done (.error .EFAULT) mm
      | (some vma, mm) =>
        let a := mm.vma vma
        if a.vmStart > addr then .done (.error .EFAULT) mm
        else if oldLen > a.vmEnd - addr then .done (.error .EFAULT) mm
        else if a.locked ∧
            (mm.lockedVm * pageSize + (newLen - oldLen : ℕ)) % 2 ^ 32 > env.rlimMemlock then
          .done (.error .EAGAIN) mm
        else if (mm.totalVm * pageSize + (newLen - oldLen : ℕ)) % 2 ^ 32 > env.rlimAs then
          .done (.error .ENOMEM) mm
        else if a.vmFlags &&& (VM_SHARED ||| VM_WRITE) = VM_WRITE ∧ flags &&& MAP_NORESERVE = 0 ∧
            !env.vmEnoughMemory then .done (.error .ENOMEM) mm
        else
          -- the lengths differ here, so the test of the source against moving is met
          if oldLen = a.vmEnd - addr ∧ newLen ≤ maxAddr mm vma - addr then
            let mm := (mm.setVma vma { a with vmEnd := addr + newLen }).charge a.locked
              ((newLen - oldLen : ℕ) / (pageSize : ℤ))
            .done (.ok addr) (if a.locked then makePagesPresent mm (addr + oldLen) else mm)
          else if flags &&& MREMAP_MAYMOVE ≠ 0 then .move mm vma oldLen newLen
          else .done (.error .ENOMEM) mm

def sysMremap (mm : Mm) (env : MremapEnv) (addr oldLen newLen : ℕ) (flags : BitVec 32) :
    Except Errno ℕ × Mm :=
  match mremapPlan mm env addr oldLen newLen flags with
  | .done ret mm => (ret, mm)
  | .move mm vma oldLen newLen => moveVma mm env vma addr oldLen newLen

/-! ### The calls as steps -/

/-- A call on the address space, with what the rest of the kernel answers. -/
inductive Call where
  | mmap (env : MmapEnv) (file : Option File) (addr len : ℕ) (prot flags off : BitVec 32)
  | munmap (alloc : Bool) (addr len : ℕ)
  | mprotect (alloc : ℕ → Bool × Bool) (start len : ℕ) (prot : BitVec 32)
  | mlock (capable withinLimits : Bool) (alloc : ℕ → Bool × Bool) (start len : ℕ) (on : Bool)
  | mremap (env : MremapEnv) (addr oldLen newLen : ℕ) (flags : BitVec 32)
  | brk (env : MmapEnv) (rlimData : Option ℕ) (addr : ℕ)

def Call.run (mm : Mm) : Call → Mm
  | .mmap env file addr len prot flags off => (doMmap mm env file addr len prot flags off).2
  | .munmap alloc addr len => (doMunmap mm alloc addr len).mm
  | .mprotect alloc start len prot => (sysMprotect mm alloc start len prot).2
  | .mlock capable withinLimits alloc start len on =>
    (sysMlock mm capable withinLimits alloc start len on).2
  | .mremap env addr oldLen newLen flags => (sysMremap mm env addr oldLen newLen flags).2
  | .brk env rlimData addr => (sysBrk mm env rlimData addr).2

/-- Every call can be made in every state. -/
def step (mm : Mm) (c : Call) : Option Mm := some (c.run mm)

/-- The call reads `VM_LOCKED` from a freed structure and finds a bit that is not the area's. -/
def Call.misread (mm : Mm) : Call → Bool
  | .mremap env addr oldLen newLen flags =>
    match mremapPlan mm env addr oldLen newLen flags with
    | .done _ _ => false
    | .move mm vma _ newLen =>
      match moveIn mm env vma addr newLen with
      | (none, _) => false
      | (some (n, newVma), mm) => decide (newVma ∉ mm.mmap) && (env.stale.locked != n.locked)
  | _ => false

end I370Linux.Vma
