import I370Linux.Runs

/-! # POSIX record locks of an inode

The model of `posix_make_lock` and `posix_lock_file` of `fs/locks.c`.  An inode's lock list `i_flock`
is a list of `FileLock`s in list order.  `posix_lock_file` walks it with the pointer-to-pointer
`before`; here the walk is a zipper, the locks already passed and the locks still to come.  Midway
the code lets `caller` point at a lock that is in the list (`caller = fl`), so that what it later
writes through `caller` changes that list element: `Scan.callerAt` is the position of that element,
and `Scan.setCaller` writes both.

Offsets are `off_t`, a signed 32-bit `long`: every sum goes through `offT`.  The files, dentries and
wait queues behind a lock, and `fl_notify`, `fl_u`, are left out; no branch of the modelled
functions reads them. -/

namespace I370Linux.PosixLocks

inductive LockType
  | rdlck
  | wrlck
  | unlck
  deriving DecidableEq, Repr

/-- `struct file_lock`; `flPosix` is the flag `FL_POSIX` of `fl_flags`. -/
structure FileLock where
  flOwner : ℕ
  flPid : ℕ
  flPosix : Bool
  flType : LockType
  flStart : ℤ
  flEnd : ℤ
  deriving DecidableEq, Repr

/-- A value stored in an `off_t`: 32 bits, two's complement. -/
def offT (z : ℤ) : ℤ := Int.bmod z (2 ^ 32)

def offsetMax : ℤ := 0x7fffffff

theorem offT_of_range {z : ℤ} (h0 : -(2 ^ 31) ≤ z) (h1 : z < 2 ^ 31) : offT z = z := by
  unfold offT
  rw [Int.bmod_def]
  omega

theorem offT_range (z : ℤ) : -(2 ^ 31) ≤ offT z ∧ offT z < 2 ^ 31 := by
  unfold offT
  rw [Int.bmod_def]
  omega

theorem offT_past_max : offT (offsetMax + 1) = -(2 ^ 31) := by decide

/-! ### Making a lock from a user's request -/

/-- `struct flock` as read from the user; `l_start` and `l_len` are `off_t`. -/
structure Flock where
  lType : ℤ
  lWhence : ℤ
  lStart : ℤ
  lLen : ℤ
  deriving DecidableEq, Repr

/-- What the call reads from the file and from `current`: the file position (`loff_t`), the
inode's size, the owner `current->files` and the pid. -/
structure Opener where
  fPos : ℤ
  iSize : ℤ
  files : ℕ
  pid : ℕ
  deriving DecidableEq, Repr

/-- The lock types of the `l_type` codes `F_RDLCK`, `F_WRLCK` and `F_UNLCK`. -/
def lockTypeOf (code : ℤ) : Option LockType :=
  if code = 0 then some .rdlck
  else if code = 1 then some .wrlck
  else if code = 2 then some .unlck
  else none

/-- The base of the range: start of file, current position or end of file. -/
def whenceBase (f : Opener) (code : ℤ) : Option ℤ :=
  if code = 0 then some 0
  else if code = 1 then some (offT f.fPos)
  else if code = 2 then some (offT f.iSize)
  else none

def posixMakeLock (f : Opener) (l : Flock) : Option FileLock := do
  let ty ← lockTypeOf l.lType
  let base ← whenceBase f l.lWhence
  let start := offT (base + l.lStart)
  let len := offT l.lLen
  if start < 0 ∨ len < 0 then none
  else
    let stop := offT (offT (start + len) - 1)
    some {
      flOwner := f.files
      flPid := f.pid
      flPosix := true
      flType := ty
      flStart := start
      flEnd := if len = 0 ∨ stop < 0 then offsetMax else stop }

/-- A byte range that `posix_make_lock` can produce. -/
def InRange (fl : FileLock) : Prop :=
  0 ≤ fl.flStart ∧ fl.flStart ≤ fl.flEnd ∧ fl.flEnd ≤ offsetMax

instance (fl : FileLock) : Decidable (InRange fl) :=
  inferInstanceAs (Decidable (_ ∧ _ ∧ _))

/-! ### Conflicts -/

def locksSameOwner (fl1 fl2 : FileLock) : Bool :=
  fl1.flOwner = fl2.flOwner && fl1.flPid = fl2.flPid

def locksOverlap (fl1 fl2 : FileLock) : Bool :=
  fl1.flEnd ≥ fl2.flStart && fl2.flEnd ≥ fl1.flStart

def locksConflict (callerFl sysFl : FileLock) : Bool :=
  if !locksOverlap callerFl sysFl then false
  else
    match callerFl.flType with
    | .rdlck => sysFl.flType = .wrlck
    | .wrlck => true
    | .unlck => false

def posixLocksConflict (callerFl sysFl : FileLock) : Bool :=
  if !sysFl.flPosix || locksSameOwner callerFl sysFl then false
  else locksConflict callerFl sysFl

/-! ### The walk over the owner's locks -/

/-- The local variables of the second loop of `posix_lock_file`. -/
structure Scan where
  /-- the locks before `*before`, from the first one with the caller's owner on -/
  before : List FileLock
  caller : FileLock
  /-- the position in `before` of the lock `caller` points at, once it points into the list -/
  callerAt : Option ℕ
  added : Bool
  /-- the position of the lock `left` points at -/
  left : Option ℕ

/-- `before = &fl->fl_next`. -/
def Scan.next (s : Scan) (fl : FileLock) : Scan := { s with before := s.before ++ [fl] }

/-- Write through `caller`: the list element too if `caller` points into the list. -/
def Scan.setCaller (s : Scan) (c : FileLock) : Scan :=
  match s.callerAt with
  | some k => { s with caller := c, before := s.before.set k c }
  | none => { s with caller := c }

/-- `caller = fl; added = 1;` and on to the next lock. -/
def Scan.adopt (s : Scan) (fl : FileLock) : Scan :=
  { s with
    before := s.before ++ [fl]
    caller := fl
    callerAt := some s.before.length
    added := true }

/-- The range from the lower start to the higher end of two locks, written to one of them. -/
def merged (fl caller : FileLock) : FileLock :=
  { fl with
    flStart := if fl.flStart > caller.flStart then caller.flStart else fl.flStart
    flEnd := if fl.flEnd < caller.flEnd then caller.flEnd else fl.flEnd }

/-- The old lock `fl` with the range and the type of the new one. -/
def replaced (fl caller : FileLock) : FileLock :=
  { fl with flStart := caller.flStart, flEnd := caller.flEnd, flType := caller.flType }

/-- `left->fl_end = caller->fl_start - 1`. -/
def endBefore (caller fl : FileLock) : FileLock := { fl with flEnd := offT (caller.flStart - 1) }

/-- `right->fl_start = caller->fl_end + 1`. -/
def startAfter (caller fl : FileLock) : FileLock := { fl with flStart := offT (caller.flEnd + 1) }

/-- The locks `l` after `left->fl_end = caller->fl_start - 1`. -/
def trimLeft (left : Option ℕ) (caller : FileLock) (l : List FileLock) : List FileLock :=
  match left with
  | some k => l.modify k (endBefore caller)
  | none => l

/-- What follows the loop. `right` tells that the loop stopped at `right = fl`, the first lock of `rest`; then `left ==
right` exactly if `left` is its position, and the second new lock becomes a copy of it in front of everything inserted here.
-/
def finish (s : Scan) (right : Bool) (rest : List FileLock) : List FileLock :=
  if !s.added && s.caller.flType = .unlck then s.before ++ rest
  else
    let passed := trimLeft s.left s.caller s.before
    let newFl := if s.added then [] else [s.caller]
    match right, rest with
    | true, fl :: rest =>
      let newFl2 := if s.left = some s.before.length then [endBefore s.caller fl] else []
      passed ++ newFl2 ++ newFl ++ startAfter s.caller fl :: rest
    | _, rest => passed ++ newFl ++ rest

/-- The second loop of `posix_lock_file` and what follows it: `break` is a call of `finish`. -/
def processLocks (s : Scan) : List FileLock → List FileLock
  | [] => finish s false []
  | fl :: rest =>
    if !locksSameOwner s.caller fl then finish s false (fl :: rest)
    else if s.caller.flType = fl.flType then
      if fl.flEnd < offT (s.caller.flStart - 1) then processLocks (s.next fl) rest
      else if fl.flStart > offT (s.caller.flEnd + 1) then finish s false (fl :: rest)
      else if s.added then processLocks (s.setCaller (merged s.caller fl)) rest
      else processLocks (s.adopt (merged fl s.caller)) rest
    else
      if fl.flEnd < s.caller.flStart then processLocks (s.next fl) rest
      else if fl.flStart > s.caller.flEnd then finish s false (fl :: rest)
      else
        let s := { s with
          added := s.added || s.caller.flType = .unlck
          left := if fl.flStart < s.caller.flStart then some s.before.length else s.left }
        if fl.flEnd > s.caller.flEnd then finish s true (fl :: rest)
        else if fl.flStart ≥ s.caller.flStart then
          if s.added then processLocks s rest
          else processLocks (s.adopt (replaced fl s.caller)) rest
        else processLocks (s.next fl) rest

def Scan.start (caller : FileLock) : Scan :=
  { before := [], caller, callerAt := none, added := false, left := none }

/-- The test of the first loop: skip locks owned by other processes. -/
def skips (caller fl : FileLock) : Bool := !fl.flPosix || !locksSameOwner caller fl

/-- `posix_lock_file` from the label "Find the first old lock with the same owner" on. -/
def applyLock (caller : FileLock) (iFlock : List FileLock) : List FileLock :=
  iFlock.takeWhile (skips caller) ++
    processLocks (Scan.start caller) (iFlock.dropWhile (skips caller))

/-! ### The call -/

inductive Errno
  | enolck
  | eagain
  | edeadlk
  | erestartsys
  | einval
  deriving DecidableEq, Repr

/-- How a call ends: it returns 0 and leaves a new list, it returns an error, or it goes to sleep
on the lock it conflicts with, to repeat the search when it is woken. -/
inductive Outcome
  | done (iFlock : List FileLock)
  | fail (e : Errno)
  | sleeps
  deriving DecidableEq, Repr

/-- What the surroundings answer during a call: whether both `locks_empty_lock` succeed, what
`posix_locks_deadlock` says about the blocking lock, whether a signal is pending. -/
structure Env where
  allocated : Bool
  deadlock : Bool
  signalPending : Bool
  deriving DecidableEq, Repr

/-- `posix_lock_file`, up to its return or to its going to sleep. -/
def posixLockFile (env : Env) (wait : Bool) (caller : FileLock) (iFlock : List FileLock) :
    Outcome :=
  if !env.allocated then .fail .enolck
  else if caller.flType ≠ .unlck && iFlock.any (posixLocksConflict caller) then
    if !wait then .fail .eagain
    else if env.deadlock then .fail .edeadlk
    else if env.signalPending then .fail .erestartsys
    else .sleeps
  else .done (applyLock caller iFlock)

/-- One call as `fcntl_setlk` makes it. -/
structure Call where
  opener : Opener
  flock : Flock
  wait : Bool
  env : Env
  deriving DecidableEq, Repr

/-- How a whole call ends: `posix_make_lock`, then `posix_lock_file`. -/
def fcntlSetlk (iFlock : List FileLock) (c : Call) : Outcome :=
  match posixMakeLock c.opener c.flock with
  | none => .fail .einval
  | some caller => posixLockFile c.env c.wait caller iFlock

/-- One step of an inode's lock list.  A call that fails or sleeps leaves the list as it is; a
woken sleeper is a further call with the same request. -/
def step (iFlock : List FileLock) (c : Call) : Option (List FileLock) :=
  match fcntlSetlk iFlock c with
  | .done l => some l
  | .fail _ => some iFlock
  | .sleeps => some iFlock

end I370Linux.PosixLocks
