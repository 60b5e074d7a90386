import I370Linux.Runs
import I370Linux.DyadicBlocks

/-! # The buddy allocator

The model of `free_pages_ok`, `RMQUEUE`, `EXPAND` and `free_area_init` of `mm/page_alloc.c`.  The
free area of order `k` is its queue of page numbers, first entry first, and its bitmap with one bit
for each pair of buddies.  Page numbers in the free path are 32-bit words, since it computes with
the negative mask `~0 << order`: `-mask` is the size of a block and `map_nr & mask` its start.

Taking an entry off a queue goes through the entry's own links; `removeMemQueue` fails when the
page is not on the queue it is taken off, where the source would follow links that are not there.

`Sys` adds the blocks that are handed out and not given back.  The pressure on memory that decides
whether `__get_free_pages` goes on to `RMQUEUE`, the swap cache and the flag `PG_referenced` are left
out. -/

namespace I370Linux.Buddy

open Runs DyadicBlocks Function

def nrMemLists : ℕ := 6

/-- The allocator's data: `queue k` and `map k` are `free_area[k]`, the rest is `mem_map`. -/
structure Mem where
  maxMapnr : ℕ
  queue : ℕ → List ℕ
  map : ℕ → ℕ → Bool
  nrFreePages : BitVec 32
  reserved : ℕ → Bool
  dma : ℕ → Bool
  count : ℕ → ℤ

/-- `change_bit` on the bitmap of order `k`. -/
def Mem.changeBit (m : Mem) (k index : ℕ) : Mem :=
  { m with map := update m.map k (update (m.map k) index (!m.map k index)) }

def Mem.addMemQueue (m : Mem) (k i : ℕ) : Mem :=
  { m with queue := update m.queue k (i :: m.queue k) }

/-- `remove_mem_queue` of a page that should be on the queue of order `k`. -/
def Mem.removeMemQueue (m : Mem) (k i : ℕ) : Option Mem :=
  if i ∈ m.queue k then some { m with queue := update m.queue k ((m.queue k).erase i) }
  else none

/-! ### Freeing -/

/-- The loop of `free_pages_ok` and the `add_mem_queue` behind it.  The fuel is the number of
lists. -/
def freeLoop (m : Mem) : ℕ → ℕ → BitVec 32 → BitVec 32 → BitVec 32 → Option Mem
  | 0, _, _, _, _ => none
  | fuel + 1, k, index, mapNr, mask =>
    if mask + (1 : BitVec 32) <<< (nrMemLists - 1) = 0 then some (m.addMemQueue k mapNr.toNat)
    else
      let bit := m.map k index.toNat
      let m := m.changeBit k index.toNat
      if !bit then some (m.addMemQueue k mapNr.toNat)
      else
        match m.removeMemQueue k (mapNr ^^^ -mask).toNat with
        | none => none
        | some m =>
          let mask := mask <<< 1
          freeLoop m fuel (k + 1) (index >>> 1) (mapNr &&& mask) mask

def freePagesOk (m : Mem) (mapNr : BitVec 32) (order : ℕ) : Option Mem :=
  let index := mapNr >>> (1 + order)
  let mask := (~~~(0 : BitVec 32)) <<< order
  freeLoop { m with nrFreePages := m.nrFreePages - mask } nrMemLists order index (mapNr &&& mask) mask

def Mem.releases (m : Mem) (mapNr : ℕ) : Bool :=
  mapNr < m.maxMapnr && !m.reserved mapNr && m.count mapNr - 1 = 0

def freePages (m : Mem) (mapNr order : ℕ) : Option Mem :=
  if mapNr < m.maxMapnr then
    if m.reserved mapNr then some m
    else
      let m := { m with count := update m.count mapNr (m.count mapNr - 1) }
      if m.count mapNr = 0 then freePagesOk m (BitVec.ofNat 32 mapNr) order else some m
  else some m

/-! ### Allocating -/

/-- `EXPAND`: the block of order `high` at `index` goes down to order `low`, the lower half goes to
its list each time.  The result is the block that is left. -/
def expand (low : ℕ) : ℕ → ℕ → Mem → ℕ × Mem
  | 0, index, m => (index, { m with count := update m.count index 1 })
  | high + 1, index, m =>
    if high + 1 > low then
      expand low high (index + 2 ^ high)
        ((m.addMemQueue high index).changeBit high (index / 2 ^ (1 + high)))
    else (index, { m with count := update m.count index 1 })

/-- `RMQUEUE`, from the list `newOrder` on, of which `n` lists are left. -/
def rmqueue (m : Mem) (gfpDma : Bool) (order : ℕ) : ℕ → ℕ → Option (ℕ × Mem)
  | 0, _ => none
  | n + 1, newOrder =>
    match (m.queue newOrder).find? fun ret => !gfpDma || m.dma ret with
    | some ret =>
      let m := { m with
        queue := update m.queue newOrder ((m.queue newOrder).erase ret) }
      let m := m.changeBit newOrder (ret / 2 ^ (1 + newOrder))
      let m := { m with nrFreePages := m.nrFreePages - (1 : BitVec 32) <<< order }
      some (expand order newOrder ret m)
    | none => rmqueue m gfpDma order n (newOrder + 1)

/-- `__get_free_pages`, once it is allowed to allocate. -/
def getFreePages (m : Mem) (gfpDma : Bool) (order : ℕ) : Option (ℕ × Mem) :=
  if order ≥ nrMemLists then none else rmqueue m gfpDma order (nrMemLists - order) order

/-! ### The system -/

structure Sys where
  mem : Mem
  held : List (ℕ × ℕ)

/-- `claim`: a reserved page gets its first user (`clear_bit(PG_reserved)`, `atomic_set(count, 1)`). `share`: one more user
of a block (`atomic_inc`). -/
inductive Event
  | claim (p : ℕ)
  | get (gfpDma : Bool) (order : ℕ)
  | share (b : ℕ × ℕ)
  | free (b : ℕ × ℕ)

def step (s : Sys) : Event → Option Sys
  | .claim p =>
    if p < s.mem.maxMapnr ∧ s.mem.reserved p = true then
      some {
        mem := { s.mem with
          reserved := update s.mem.reserved p false
          count := update s.mem.count p 1 }
        held := (p, 0) :: s.held }
    else none
  | .get gfpDma order =>
    (getFreePages s.mem gfpDma order).map fun r => { mem := r.2, held := (r.1, order) :: s.held }
  | .share b =>
    if b ∈ s.held then
      some { s with mem := { s.mem with
        count := update s.mem.count b.1 (s.mem.count b.1 + 1) } }
    else none
  | .free b =>
    if b ∈ s.held then
      (freePages s.mem b.1 b.2).map fun m =>
        { mem := m, held := if s.mem.releases b.1 then s.held.erase b else s.held }
    else none

/-- `free_area_init` for the memory below `endMem`: all pages are reserved, all queues empty and all bitmaps clear. -/
def freeAreaInit (endMem : BitVec 32) (dma : ℕ → Bool) : Sys where
  mem := {
    maxMapnr := endMem.toNat / 2 ^ 12
    queue := fun _ => []
    map := fun _ _ => false
    nrFreePages := 0
    reserved := fun _ => true
    dma := dma
    count := fun _ => 0 }
  held := []

end I370Linux.Buddy
