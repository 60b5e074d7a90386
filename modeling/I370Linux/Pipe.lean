import I370Linux.Runs
import I370Linux.CircularBuffer

/-! # Pipes

`pipe_read` and `pipe_write` of `fs/pipe.c`.  The bytes of a pipe are in one page, from `PIPE_START` on and
around its end.  A reader or writer that works on them has incremented `PIPE_LOCK`; writers also hold the
semaphore `i_atomic_write` for the whole call.  Both advance the length (and readers the start) before
they copy a chunk, and the copy may sleep at every byte of the user's buffer.

A call goes from one of its sleep points to the next one in a step.  The step of a writer that copies
brings the bytes of the user's buffer along, since another thread may be changing it.  Signals, the answers of
the user's buffers and the numbers of readers and writers are up to the environment. -/

namespace I370Linux.Pipe

open Runs CircularBuffer

abbrev Byte := BitVec 8
abbrev PIPE_BUF : ℕ := 4096

inductive Errno where
  | eagain | erestartsys | epipe
deriving DecidableEq, Repr

inductive Result where
  | bytes (n : ℤ)
  | error (e : Errno)
deriving DecidableEq, Repr

/-- A number of bytes as an `ssize_t`. -/
def ssize (n : ℕ) : ℤ := (BitVec.ofNat 32 n).toInt

/-- The local variables of a call: `count`, and `read` resp. `written`. The others are ghosts: the first `count`, the bytes
that went through the user's buffer, and the length of the stream when the call took the lock resp. the semaphore. -/
structure Call where
  nonblock : Bool
  count : ℕ
  done : ℕ
  total : ℕ
  moved : List Byte
  since : ℕ
deriving DecidableEq, Repr

def Call.new (count : ℕ) (nonblock : Bool) : Call := ⟨nonblock, count, 0, count, [], 0⟩

/-- Where a call is.  `readWait` and `writeWait` are in `interruptible_sleep_on`, `atomicWait` is in
`down_interruptible`; a copy has `left` bytes to go, from resp. to the byte `p` of the page. -/
inductive Phase where
  | idle
  | readWait (c : Call)
  | readCopy (c : Call) (p left : ℕ)
  | readDone (c : Call) (r : Result)
  | atomicWait (c : Call)
  | writeWait (c : Call) (free : ℕ)
  | writeCopy (c : Call) (p left : ℕ)
  | writeDone (c : Call) (r : Result)
deriving DecidableEq

/-- The pipe and its calls.  `atomic` says that `i_atomic_write` is free.  The streams `accepted` and
`delivered` are ghosts: the bytes copied in and out so far. -/
structure World (τ : Type*) where
  base : ℕ → Byte
  start : ℕ
  len : ℕ
  lock : ℕ
  readers : ℕ
  writers : ℕ
  atomic : Bool
  phase : τ → Phase
  accepted : List Byte
  delivered : List Byte

namespace World

variable {τ : Type*} [DecidableEq τ]

def setPhase (w : World τ) (t : τ) (p : Phase) : World τ := { w with phase := Function.update w.phase t p }

/-! ### `pipe_read` -/

/-- The loop under the lock, up to the copy of its next chunk, and what follows it. -/
def readLoop (w : World τ) (t : τ) (c : Call) : World τ :=
  if 0 < c.count ∧ w.len ≠ 0 then
    let chars := min (min (PIPE_BUF - w.start) c.count) w.len
    { w with start := (w.start + chars) % PIPE_BUF, len := w.len - chars }.setPhase t
      (.readCopy { c with count := c.count - chars, done := c.done + chars } w.start chars)
  else
    { w with lock := w.lock - 1 }.setPhase t (.readDone c
      (if c.done ≠ 0 then .bytes (ssize c.done) else if w.writers ≠ 0 then .error .eagain else .bytes 0))

def readStart (w : World τ) (t : τ) (c : Call) : World τ :=
  { w with lock := w.lock + 1 }.readLoop t { c with since := w.delivered.length }

/-- The loop of a reader that may block. -/
def readBlock (w : World τ) (t : τ) (c : Call) (signal : Bool) : World τ :=
  if w.len = 0 ∨ w.lock ≠ 0 then
    if w.len = 0 ∧ (w.writers = 0 ∨ c.count = 0) then w.setPhase t (.readDone c (.bytes 0))
    else if signal then w.setPhase t (.readDone c (.error .erestartsys))
    else w.setPhase t (.readWait c)
  else w.readStart t c

def pipeRead (w : World τ) (t : τ) (c : Call) (signal : Bool) : World τ :=
  if c.nonblock then
    if w.lock ≠ 0 then w.setPhase t (.readDone c (.error .eagain))
    else if w.len = 0 then
      w.setPhase t (.readDone c (if w.writers ≠ 0 then .error .eagain else .bytes 0))
    else w.readStart t c
  else w.readBlock t c signal

/-! ### `pipe_write` -/

def writeChunk (w : World τ) (t : τ) (c : Call) : World τ :=
  let pipeEnd := (w.start + w.len) % PIPE_BUF
  let chars := min (min (PIPE_BUF - pipeEnd) c.count) (PIPE_BUF - w.len)
  { w with len := w.len + chars }.setPhase t
    (.writeCopy { c with count := c.count - chars, done := c.done + chars } pipeEnd chars)

/-- The end of the call, from `errout` on. -/
def writeEnd (w : World τ) (t : τ) (c : Call) (err : Option Errno) : World τ :=
  { w with atomic := true }.setPhase t (.writeDone c
    (if ssize c.done ≠ 0 then .bytes (ssize c.done) else err.elim (.bytes 0) .error))

/-- The outer loop, up to a sleep or the first copy.  Where it takes the lock, `PIPE_FREE >= free > 0`, so that
the loop under the lock has a turn. -/
def writeLoop (w : World τ) (t : τ) (c : Call) (free : ℕ) (signal : Bool) : World τ :=
  if c.count = 0 then w.writeEnd t c none
  else if PIPE_BUF - w.len < free ∨ w.lock ≠ 0 then
    if w.readers = 0 then w.writeEnd t c (some .epipe)
    else if signal then w.writeEnd t c (some .erestartsys)
    else if c.nonblock then w.writeEnd t c (some .eagain)
    else w.setPhase t (.writeWait c free)
  else { w with lock := w.lock + 1 }.writeChunk t c

def writeNext (w : World τ) (t : τ) (c : Call) (signal : Bool) : World τ :=
  if 0 < c.count ∧ PIPE_BUF - w.len ≠ 0 then w.writeChunk t c
  else { w with lock := w.lock - 1 }.writeLoop t c 1 signal

/-- `down_interruptible`, and the call from there on. -/
def writeDown (w : World τ) (t : τ) (c : Call) (signal : Bool) : World τ :=
  if w.atomic then
    { w with atomic := false }.writeLoop t { c with since := w.accepted.length }
      (if c.count ≤ PIPE_BUF then c.count else 1) signal
  else if signal then w.setPhase t (.writeDone c (.error .erestartsys))
  else w.setPhase t (.atomicWait c)

def pipeWrite (w : World τ) (t : τ) (c : Call) (signal : Bool) : World τ :=
  if w.readers = 0 then w.setPhase t (.writeDone c (.error .epipe))
  else w.writeDown t c signal

/-! ### The copies -/

/-- The bytes of the page that a piece of `copy_to_user` reads. -/
def slice (w : World τ) (p n : ℕ) : List Byte := (List.range n).map fun k => w.base (p + k)

/-- A piece of `copy_to_user`. -/
def copyOut (w : World τ) (t : τ) (c : Call) (p left n : ℕ) : World τ :=
  let w' := { w with delivered := w.delivered ++ w.slice p n }
  let c := { c with moved := c.moved ++ w.slice p n }
  if n < left then w'.setPhase t (.readCopy c (p + n) (left - n)) else w'.readLoop t c

/-- A piece of `copy_from_user`. -/
def copyIn (w : World τ) (t : τ) (c : Call) (p left : ℕ) (bytes : List Byte) (signal : Bool) : World τ :=
  let w' := { w with base := store w.base p bytes, accepted := w.accepted ++ bytes }
  let c := { c with moved := c.moved ++ bytes }
  if bytes.length < left then w'.setPhase t (.writeCopy c (p + bytes.length) (left - bytes.length))
  else w'.writeNext t c signal

end World

/-- The calls, cut where they sleep. -/
inductive Op (τ : Type*) where
  | read (t : τ) (count : ℕ) (nonblock signal : Bool)
  | write (t : τ) (count : ℕ) (nonblock signal : Bool)
  /-- A sleeper outside the copies runs. -/
  | wake (t : τ) (signal : Bool)
  | copyOut (t : τ) (n : ℕ)
  | copyIn (t : τ) (bytes : List Byte) (signal : Bool)
  /-- A copy stops at an address that is not accessible; no caller looks at its result. -/
  | fault (t : τ) (signal : Bool)
  /-- Ends of the pipe are opened and closed. -/
  | ends (readers writers : ℕ)

variable {τ : Type*} [DecidableEq τ]

def Phase.free : Phase → Bool
  | .idle | .readDone .. | .writeDone .. => true
  | _ => false

def step (w : World τ) : Op τ → Option (World τ)
  | .read t count nonblock signal =>
    if (w.phase t).free then some (w.pipeRead t (.new count nonblock) signal) else none
  | .write t count nonblock signal =>
    if (w.phase t).free then some (w.pipeWrite t (.new count nonblock) signal) else none
  | .wake t signal =>
    match w.phase t with
    | .readWait c => some (w.readBlock t c signal)
    | .atomicWait c => some (w.writeDown t c signal)
    | .writeWait c free => some (w.writeLoop t c free signal)
    | _ => none
  | .copyOut t n =>
    match w.phase t with
    | .readCopy c p left => if 0 < n ∧ n ≤ left then some (w.copyOut t c p left n) else none
    | _ => none
  | .copyIn t bytes signal =>
    match w.phase t with
    | .writeCopy c p left =>
      if 0 < bytes.length ∧ bytes.length ≤ left then some (w.copyIn t c p left bytes signal) else none
    | _ => none
  | .fault t signal =>
    match w.phase t with
    | .readCopy c _ _ => some (w.readLoop t c)
    | .writeCopy c _ _ => some (w.writeNext t c signal)
    | _ => none
  | .ends readers writers => some { w with readers, writers }

def boot (base : ℕ → Byte) : World τ where
  base
  start := 0
  len := 0
  lock := 0
  readers := 1
  writers := 1
  atomic := true
  phase _ := .idle
  accepted := []
  delivered := []

end I370Linux.Pipe
