import I370Linux.Runs
import I370Linux.Links
import I370Linux.PteAlgebra

/-! # The slots of the swap areas

The model of `scan_swap_map`, `get_swap_page` and `swap_free` of `mm/swapfile.c`, of
`swap_duplicate` of `mm/swap_state.c`, and of what a successful `sys_swapon` sets up.  The areas are
the array `swap_info`, chained by priority in `swap_list`; `-1` is `none`.  The loop of
`get_swap_page` has no bound of its own: it runs here with a fuel of twice the number of areas, and
`none` is an exhausted fuel.

Left out is what the accounting does not read: the file and the device of an area, and `pages`. -/

namespace I370Linux.SwapMap

open PageTable Function
open PageFault (swpType swpOffset swpEntry swpEntry_spec)

abbrev maxSwapfiles : ℕ := 8
abbrev swapfileCluster : ℕ := 256
abbrev SWAP_MAP_MAX : ℕ := 0x7fff
abbrev SWAP_MAP_BAD : ℕ := 0x8000
abbrev SWP_USED : BitVec 32 := 1
abbrev SWP_WRITEOK : BitVec 32 := 3
abbrev SHM_SWP_TYPE : BitVec 32 := 0x20

/-- A `swap_info_struct`. -/
structure SwapInfo where
  flags : BitVec 32
  swapMap : ℕ → ℕ
  swapLockmap : ℕ → Bool
  lowestBit : ℕ
  highestBit : ℕ
  clusterNext : ℕ
  clusterNr : ℕ
  prio : ℤ
  max : ℕ
  next : Option ℕ

/-- The swap areas with `swap_list`, `nr_swap_pages` and the `least_priority` of `sys_swapon`. -/
structure Swap where
  nrSwapfiles : ℕ
  swapInfo : ℕ → SwapInfo
  head : Option ℕ
  next : Option ℕ
  nrSwapPages : ℤ
  leastPriority : ℤ

namespace Swap

def empty : Swap where
  nrSwapfiles := 0
  swapInfo := fun _ => ⟨0, fun _ => 0, fun _ => false, 0, 0, 0, 0, 0, 0, none⟩
  head := none
  next := none
  nrSwapPages := 0
  leastPriority := 0

def setInfo (s : Swap) (type : ℕ) (p : SwapInfo) : Swap :=
  { s with swapInfo := update s.swapInfo type p }

end Swap

/-! ### Allocation -/

namespace SwapInfo

/-- The test of both loops of `scan_swap_map`. -/
def usable (si : SwapInfo) (offset : ℕ) : Bool := si.swapMap offset = 0 && !si.swapLockmap offset

/-- The first usable slot from `offset` to `highest_bit`. -/
def firstUsable (si : SwapInfo) (offset : ℕ) : Option ℕ :=
  (List.range' offset (si.highestBit + 1 - offset)).find? si.usable

def clusterSlot (si : SwapInfo) : Option ℕ :=
  if si.clusterNr ≠ 0 then si.firstUsable si.clusterNext else none

/-- The code at `got_page`, apart from the counter. -/
def gotPage (si : SwapInfo) (offset : ℕ) : SwapInfo :=
  { si with
    swapMap := update si.swapMap offset 1
    highestBit := if offset = si.highestBit then (si.highestBit + (2 ^ 32 - 1)) % 2 ^ 32
      else si.highestBit
    clusterNext := offset }

end SwapInfo

/-- The offset, the area and `nr_swap_pages` after the scan; 0 is no slot. -/
def scanSwapMap (si : SwapInfo) (nrSwapPages : ℤ) : ℕ × SwapInfo × ℤ :=
  match si.clusterSlot with
  | some offset =>
    (offset, { si with clusterNr := si.clusterNr - 1 }.gotPage offset, nrSwapPages - 1)
  | none =>
    -- a cluster loop that finds nothing leaves the cursor behind the last slot it looked at
    let clusterNext :=
      if si.clusterNr ≠ 0 then Nat.max si.clusterNext (si.highestBit + 1) else si.clusterNext
    let si := { si with clusterNext := clusterNext, clusterNr := swapfileCluster }
    match si.firstUsable si.lowestBit with
    | some offset => (offset, { si with lowestBit := offset }.gotPage offset, nrSwapPages - 1)
    | none => (0, si, nrSwapPages)

/-- Where `swap_list.next` goes after an allocation from the area `p`. -/
def cursorAfter (s : Swap) (p : SwapInfo) : Option ℕ :=
  match p.next with
  | none => s.head
  | some type => if p.prio ≠ (s.swapInfo type).prio then s.head else some type

/-- The scan of one area in the loop of `get_swap_page`. -/
def tryArea (s : Swap) (type : ℕ) : ℕ × Swap :=
  if (s.swapInfo type).flags &&& SWP_WRITEOK = SWP_WRITEOK then
    let r := scanSwapMap (s.swapInfo type) s.nrSwapPages
    (r.1, { s with swapInfo := update s.swapInfo type r.2.1, nrSwapPages := r.2.2 })
  else (0, s)

/-- The loop of `get_swap_page`. -/
def getSwapLoop : ℕ → Swap → ℕ → Bool → Option (Pte × Swap)
  | 0, _, _, _ => none
  | fuel + 1, s, type, wrapped =>
    let p := s.swapInfo type
    let r := tryArea s type
    let s := r.2
    if r.1 ≠ 0 then
      some (swpEntry (BitVec.ofNat 32 type) (BitVec.ofNat 32 r.1),
        { s with next := cursorAfter s p })
    else if wrapped then
      match p.next with
      | none => some (0, s)
      | some type => getSwapLoop fuel s type true
    else
      match p.next with
      | none => s.head.bind fun head => getSwapLoop fuel s head true
      | some type =>
        if p.prio ≠ (s.swapInfo type).prio then
          s.head.bind fun head => getSwapLoop fuel s head true
        else getSwapLoop fuel s type false

def getSwapPage (s : Swap) : Option (Pte × Swap) :=
  match s.next with
  | none => some (0, s)
  | some type =>
    if s.nrSwapPages = 0 then some (0, s)
    else getSwapLoop (2 * s.nrSwapfiles) s type false

/-! ### References to a slot -/

/-- The area and the slot that an entry names. -/
def slot (entry : Pte) : ℕ × ℕ := ((swpType entry).toNat, (swpOffset entry).toNat)

/-- The cursor after a free in an area of a higher priority than the one it stands at. -/
def rewound (s : Swap) (prio : ℤ) : Option ℕ :=
  match s.next with
  | none => none
  | some type => if (s.swapInfo type).prio < prio then s.head else some type

namespace SwapInfo

/-- The bounds of an area are widened to a slot that is freed. -/
def widen (p : SwapInfo) (offset : ℕ) : SwapInfo :=
  { p with
    lowestBit := if offset < p.lowestBit then offset else p.lowestBit
    highestBit := if p.highestBit < offset then offset else p.highestBit }

end SwapInfo

/-- The entry names an existing slot of an area in use. -/
def valid (s : Swap) (entry : Pte) : Bool :=
  entry ≠ 0 && swpType entry &&& SHM_SWP_TYPE = 0 && (slot entry).1 < s.nrSwapfiles &&
    (s.swapInfo (slot entry).1).flags &&& SWP_USED ≠ 0 &&
    (slot entry).2 < (s.swapInfo (slot entry).1).max

def swapFree (s : Swap) (entry : Pte) : Swap :=
  let (type, offset) := slot entry
  let p := s.swapInfo type
  if entry = 0 then s
  else if swpType entry &&& SHM_SWP_TYPE ≠ 0 then s
  else if s.nrSwapfiles ≤ type then s
  else if p.flags &&& SWP_USED = 0 then s
  else
    let s := { s with next := rewound s p.prio }
    if p.max ≤ offset then s
    else
      let p := p.widen offset
      if p.swapMap offset = 0 then s.setInfo type p
      else if p.swapMap offset < SWAP_MAP_MAX then
        let count := p.swapMap offset - 1
        { s.setInfo type { p with swapMap := update p.swapMap offset count } with
          nrSwapPages := if count = 0 then s.nrSwapPages + 1 else s.nrSwapPages }
      else s.setInfo type p

/-- The result is 1 where a reference was added. -/
def swapDuplicate (s : Swap) (entry : Pte) : ℕ × Swap :=
  let (type, offset) := slot entry
  let p := s.swapInfo type
  if entry = 0 then (0, s)
  else if swpType entry &&& SHM_SWP_TYPE ≠ 0 then (0, s)
  else if s.nrSwapfiles ≤ type then (0, s)
  else if p.max ≤ offset then (0, s)
  else if p.swapMap offset = 0 then (0, s)
  else
    let count := if p.swapMap offset < SWAP_MAP_MAX then p.swapMap offset + 1 else SWAP_MAP_MAX
    (1, s.setInfo type { p with swapMap := update p.swapMap offset count })

/-! ### `sys_swapon` -/

/-- The header of a swap file: the bits of the old format with the magic cleared, or the last page
and the bad pages of the new one. -/
inductive Header
  | version1 (bits : ℕ → Bool)
  | version2 (lastPage : ℕ) (badpages : List ℕ)

/-- What `sys_swapon` makes of the header. -/
structure Setup where
  swapMap : ℕ → ℕ
  lowestBit : ℕ
  highestBit : ℕ
  max : ℕ
  nrGoodPages : ℤ

/-- One turn of the loop over the bits of an old header. -/
def bitTurn (bits : ℕ → Bool) (r : Setup) (i : ℕ) : Setup :=
  if bits i then
    { r with
      lowestBit := if r.lowestBit = 0 then i else r.lowestBit
      highestBit := i
      max := i + 1
      nrGoodPages := r.nrGoodPages + 1 }
  else r

/-- The loop over the bits from 1 to `n`. -/
def bitLoop (bits : ℕ → Bool) (n : ℕ) : Setup :=
  (List.range' 1 n).foldl (bitTurn bits) ⟨fun _ => 0, 0, 0, 1, 0⟩

/-- The map that the bits of an old header give. -/
def Setup.withBits (r : Setup) (bits : ℕ → Bool) : Setup :=
  { r with swapMap := fun i => if bits i then 0 else SWAP_MAP_BAD }

abbrev maxSwapBadpages : ℕ := 637

/-- The two cases of the switch over the version; `none` is a header that is refused. -/
def Header.setup : Header → Option Setup
  | version1 bits => some ((bitLoop bits (8 * Vma.pageSize - 1)).withBits bits)
  | version2 lastPage badpages =>
    if maxSwapBadpages < badpages.length then none
    else if 0xfffff ≤ lastPage then none
    else if badpages.any fun page => decide (page = 0 ∨ 2 ^ 31 ≤ page ∨ lastPage ≤ page) then none
    else some
      { swapMap := badpages.foldl (fun map page => update map page SWAP_MAP_BAD) fun _ => 0
        lowestBit := 1
        highestBit := (lastPage + (2 ^ 32 - 1)) % 2 ^ 32
        max := lastPage
        nrGoodPages := lastPage - badpages.length }

/-- The place of a priority in the list: the area before it and the one after it. -/
def insertPoint (s : Swap) (prio : ℤ) : ℕ → Option ℕ → Option ℕ → Option ℕ × Option ℕ
  | 0, prev, i => (prev, i)
  | _ + 1, prev, none => (prev, none)
  | fuel + 1, prev, some i =>
    if (s.swapInfo i).prio ≤ prio then (prev, some i)
    else insertPoint s prio fuel (some i) (s.swapInfo i).next

/-- The index of the area that `sys_swapon` takes. -/
def unusedType (s : Swap) : ℕ :=
  ((List.range s.nrSwapfiles).find? fun type => (s.swapInfo type).flags &&& SWP_USED = 0).getD
    s.nrSwapfiles

/-- The area that a header sets up, without its link. -/
def Setup.area (r : Setup) (prio : ℤ) (clusterNext : ℕ) : SwapInfo where
  flags := SWP_WRITEOK
  swapMap := update r.swapMap 0 SWAP_MAP_BAD
  swapLockmap := fun _ => false
  lowestBit := r.lowestBit
  highestBit := r.highestBit
  clusterNext := clusterNext
  clusterNr := 0
  prio := prio
  max := r.max
  next := none

/-- The area `p` entered in the list. -/
def insertArea (s : Swap) (type : ℕ) (p : SwapInfo) : Swap :=
  match insertPoint s p.prio s.nrSwapfiles none s.head with
  | (none, i) => { s.setInfo type { p with next := i } with head := some type, next := some type }
  | (some prev, i) =>
    (s.setInfo type { p with next := i }).setInfo prev { s.swapInfo prev with next := some type }

/-- A successful `sys_swapon`. -/
def sysSwapon (s : Swap) (swapFlags : BitVec 32) (header : Header) : Option Swap :=
  let type := unusedType s
  if maxSwapfiles ≤ type then none
  else
    let least := if swapFlags &&& 0x8000 ≠ 0 then s.leastPriority else s.leastPriority - 1
    let prio : ℤ := if swapFlags &&& 0x8000 ≠ 0 then (swapFlags &&& 0x7fff).toNat else least
    match header.setup with
    | none => none
    | some r =>
      if r.nrGoodPages = 0 then none
      else
        let s := insertArea s type (r.area prio (s.swapInfo type).clusterNext)
        some { s with
          nrSwapfiles := if s.nrSwapfiles ≤ type then type + 1 else s.nrSwapfiles
          leastPriority := least
          nrSwapPages := s.nrSwapPages + r.nrGoodPages }

/-! ### Runs -/

inductive Call
  | swapon (swapFlags : BitVec 32) (header : Header)
  | getSwapPage
  | swapDuplicate (entry : Pte)
  | swapFree (entry : Pte)
  | setLock (type offset : ℕ) (locked : Bool)

/-- A bit of `swap_lockmap` set or cleared. -/
def setLock (s : Swap) (type offset : ℕ) (locked : Bool) : Swap :=
  s.setInfo type { s.swapInfo type with
    swapLockmap := update (s.swapInfo type).swapLockmap offset locked }

def step (s : Swap) : Call → Option Swap
  | .swapon swapFlags header => sysSwapon s swapFlags header
  | .getSwapPage => (getSwapPage s).map Prod.snd
  | .swapDuplicate entry => some (swapDuplicate s entry).2
  | .swapFree entry => some (swapFree s entry)
  | .setLock type offset locked => some (setLock s type offset locked)

end I370Linux.SwapMap
