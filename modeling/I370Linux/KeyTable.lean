import I370Linux.Runs
import I370Linux.Registry

/-! # The keys of message queues and shared segments

`sys_msgget` (`ipc/msg.c`) and `sys_shmget` (`ipc/shm.c`) find an object by its key or make one.  The
tables `msgque` and `shm_segs` have 128 slots each.  `findkey` looks at the slots up to `max_msqid` resp.
`max_shmid` and sleeps at a slot that is being made (`IPC_NOID`).  `newque` and `newseg` mark a free slot,
sleep in `kmalloc` (`newseg` also in `vmalloc`), and raise the maximum only when they put the object into
the slot.

The two files differ in the limits and in the number of allocations; `Kind` stands for this difference.  A
call is at one of its sleep points, and a step takes it to the next one. -/

namespace I370Linux.KeyTable

open Runs Registry
open Function (update)

inductive Kind where
  | msg
  | shm
deriving DecidableEq, Repr

/-- `MSGMNI` and `SHMMNI`. -/
abbrev tableSize : ℕ := 128

/-- The value that `shmmax` has until `sysctl` changes it. -/
abbrev SHMMAX : ℤ := 0x3fa000
abbrev SHMMIN : ℤ := 1
abbrev SHMALL : ℤ := 1 <<< 22

/-- The arguments of a call; `size` is for segments only, and `allowed` says that `ipcperms` grants the
access that the flags ask for. -/
structure Args where
  key : ℤ
  creat : Bool
  excl : Bool
  size : ℤ
  allowed : Bool
deriving DecidableEq, Repr

abbrev IPC_PRIVATE : ℤ := 0

structure Obj where
  key : ℤ
  seq : ℕ
  segsz : ℤ
  npages : ℤ
  dest : Bool
deriving DecidableEq, Repr

inductive Slot where
  | unused
  | noid
  | live (o : Obj)
deriving DecidableEq, Repr

inductive Errno where
  | einval | enospc | enomem | enoent | eexist | eidrm | eacces
deriving DecidableEq, Repr

/-- Where a call is: asleep in `findkey` at a slot, or asleep in an allocation for its slot, with the number
of allocations that follow. -/
inductive Phase where
  | idle
  | scanning (a : Args) (id : ℕ)
  | allocating (a : Args) (id more : ℕ)
  | returned (r : Except Errno ℕ)
deriving DecidableEq

/-- A table with the calls under way.  `tot` is `shm_tot`; `events` is a ghost variable. -/
structure Table (τ : Type*) where
  slots : ℕ → Slot
  maxId : ℕ
  seq : ℕ
  tot : ℤ
  calls : τ → Phase
  events : List (Event ℤ)

inductive Scan where
  | found (id : ℕ)
  | missing
  | sleeps (id : ℕ)
deriving DecidableEq

namespace Table

variable {τ : Type*}

/-- The loop of `findkey` up to its next sleep; the first number says how many slots are left. -/
def findkeyLoop (w : Table τ) (key : ℤ) : ℕ → ℕ → Scan
  | 0, _ => .missing
  | n + 1, id =>
    match w.slots id with
    | .noid => .sleeps id
    | .unused => w.findkeyLoop key n (id + 1)
    | .live o => if key = o.key then .found id else w.findkeyLoop key n (id + 1)

/-- `findkey` from a slot on, which it reads again after a sleep without a look at the maximum. -/
def findkey (w : Table τ) (key : ℤ) (id : ℕ) : Scan := w.findkeyLoop key (w.maxId - id + 1) id

def freeSlot (w : Table τ) : Option ℕ := (List.range tableSize).find? fun id => w.slots id = .unused

def numpages (size : ℤ) : ℤ := (size + 4095) / 4096

/-- The limits of `newseg`. -/
def refuse (kind : Kind) (w : Table τ) (a : Args) : Option Errno :=
  match kind with
  | .msg => none
  | .shm =>
    if a.size < SHMMIN then some .einval
    else if w.tot + numpages a.size ≥ SHMALL then some .enospc
    else none

def moreAllocs : Kind → ℕ
  | .msg => 0
  | .shm => 1

/-- The end of `sys_msgget` resp. `sys_shmget` for a key that was found. -/
def existing (kind : Kind) (w : Table τ) (a : Args) (id : ℕ) : Except Errno ℕ :=
  match w.slots id with
  | .live o =>
    if kind = .shm ∧ o.dest then .error .eidrm
    else if kind = .shm ∧ a.size > o.segsz then .error .einval
    else if !a.allowed then .error .eacces
    else .ok (o.seq * tableSize + id)
  | _ => .error .eidrm

/-- `while (max && q[--max] == IPC_UNUSED);` -/
def lowerMax (slots : ℕ → Slot) : ℕ → ℕ
  | 0 => 0
  | m + 1 => if slots m = .unused then lowerMax slots m else m

variable [DecidableEq τ]

def setPhase (w : Table τ) (t : τ) (p : Phase) : Table τ := { w with calls := update w.calls t p }

/-- `newque` and `newseg` up to the first allocation. -/
def newId (kind : Kind) (w : Table τ) (t : τ) (a : Args) : Table τ :=
  match refuse kind w a with
  | some e => w.setPhase t (.returned (.error e))
  | none =>
    match w.freeSlot with
    | none => w.setPhase t (.returned (.error .enospc))
    | some id =>
      { w with slots := update w.slots id .noid }.setPhase t (.allocating a id (moreAllocs kind))

/-- A call that has come to the slot `id` in `findkey`. -/
def lookUp (kind : Kind) (w : Table τ) (t : τ) (a : Args) (id : ℕ) : Table τ :=
  match w.findkey a.key id with
  | .sleeps id => w.setPhase t (.scanning a id)
  | .missing => if a.creat then newId kind w t a else w.setPhase t (.returned (.error .enoent))
  | .found id =>
    if a.creat ∧ a.excl then w.setPhase t (.returned (.error .eexist))
    else w.setPhase t (.returned (existing kind w a id))

/-- `sys_msgget` resp. `sys_shmget`. -/
def get (kind : Kind) (w : Table τ) (t : τ) (a : Args) : Table τ :=
  if kind = .shm ∧ (a.size < 0 ∨ a.size > SHMMAX) then w.setPhase t (.returned (.error .einval))
  else if a.key = IPC_PRIVATE then newId kind w t a
  else lookUp kind w t a 0

def giveUp (w : Table τ) (t : τ) (id : ℕ) : Table τ :=
  { w with slots := update w.slots id .unused }.setPhase t (.returned (.error .enomem))

/-- The end of `newque` resp. `newseg`. -/
def publish (kind : Kind) (w : Table τ) (t : τ) (a : Args) (id : ℕ) : Table τ :=
  let npages := match kind with
    | .msg => 0
    | .shm => numpages a.size
  { w with
    tot := w.tot + npages
    maxId := if id > w.maxId then id else w.maxId
    slots := update w.slots id (.live ⟨a.key, w.seq, a.size, npages, false⟩)
    events := .created a.key :: w.events }.setPhase t (.returned (.ok (w.seq * tableSize + id)))

def allocated (kind : Kind) (w : Table τ) (t : τ) (a : Args) (id more : ℕ) (ok : Bool) : Table τ :=
  if !ok then w.giveUp t id
  else
    match more with
    | 0 => publish kind w t a id
    | more + 1 => w.setPhase t (.allocating a id more)

/-- `freeque` resp. `killseg`.  The first one lowers the maximum before it frees the slot and the other one
afterwards; the loop does not look at this slot.  The sequence number is kept in an `unsigned short`. -/
def remove (w : Table τ) (id : ℕ) (o : Obj) : Table τ :=
  { w with
    seq := (w.seq + 1) % (2 ^ 31 / tableSize) % 2 ^ 16
    slots := update w.slots id .unused
    maxId := if id = w.maxId then lowerMax w.slots w.maxId else w.maxId
    tot := w.tot - o.npages
    events := .removed o.key :: w.events }

end Table

/-- The calls, cut where they sleep. -/
inductive Op (τ : Type*) where
  | get (t : τ) (a : Args)
  /-- A sleeper in `findkey` runs. -/
  | wake (t : τ)
  | alloc (t : τ) (ok : Bool)
  | remove (id : ℕ)
  /-- `IPC_RMID` for a segment that is attached. -/
  | markDest (id : ℕ)

variable {τ : Type*} [DecidableEq τ]

def tableStep (kind : Kind) (w : Table τ) : Op τ → Option (Table τ)
  | .get t a =>
    match w.calls t with
    | .idle | .returned _ => some (w.get kind t a)
    | _ => none
  | .wake t =>
    match w.calls t with
    | .scanning a id => some (w.lookUp kind t a id)
    | _ => none
  | .alloc t ok =>
    match w.calls t with
    | .allocating a id more => some (w.allocated kind t a id more ok)
    | _ => none
  | .remove id =>
    match w.slots id with
    | .live o => some (w.remove id o)
    | _ => none
  | .markDest id =>
    match w.slots id with
    | .live o => some { w with slots := update w.slots id (.live { o with dest := true }) }
    | _ => none

abbrev System (τ : Type*) := Kind → Table τ

def step (s : System τ) (a : Kind × Op τ) : Option (System τ) :=
  (tableStep a.1 (s a.1) a.2).map (update s a.1)

def boot : System τ := fun _ => ⟨fun _ => .unused, 0, 0, 0, fun _ => .idle, []⟩

end I370Linux.KeyTable
