import I370Linux.Runs
import I370Linux.Links

/-! # The family tree of the tasks

The pointers between tasks: the ring of all tasks through `next_task` and `prev_task`, the list of the
children of a task through `p_cptr`, `p_osptr` and `p_ysptr` with the youngest first, the two parents
`p_pptr` and `p_opptr`, and the hash of the pids.  They are edited by the macros `REMOVE_LINKS` and
`SET_LINKS` (`include/linux/sched.h`), `hash_pid` and `unhash_pid`, and by the loop of `exit_notify`
(`kernel/exit.c`), which takes the children of a task off its list one by one.

The calls are `do_fork` from `SET_LINKS` on, `exit_notify`, `sys_wait4`, which may sleep between finding a
zombie and reaping it, and the change of the parent by an attach of `ptrace`.  A pointer to a task is
`none` for `init_task` where the source never has a null pointer there, and for a null pointer elsewhere. -/

namespace I370Linux.FamilyTree

open Runs Links Function

/-- The fields of all tasks.  `used` are the `task_struct`s that are linked and not yet freed; `waiting`
is the zombie that a task in `sys_wait4` has found. -/
structure World (ι : Type*) where
  links : DLinks ι
  pptr : ι → Option ι
  opptr : ι → Option ι
  cptr : Option ι → Option ι
  osptr : ι → Option ι
  ysptr : ι → Option ι
  pid : ι → ℕ
  hash : Fin 128 → List ι
  zombie : ι → Bool
  childReaper : Option ι
  used : ι → Bool
  waiting : ι → Option ι

/-- `pid_hashfn`, with `PIDHASH_SZ` 128. -/
def pidHashfn (pid : ℕ) : Fin 128 := Fin.ofNat 128 (pid >>> 8 ^^^ pid)

namespace World

variable {ι : Type*}

def findTaskByPid (w : World ι) (pid : ℕ) : Option ι :=
  (w.hash (pidHashfn pid)).find? fun a => w.pid a = pid

variable [DecidableEq ι]

def hashPid (w : World ι) (p : ι) : World ι :=
  { w with hash := update w.hash (pidHashfn (w.pid p)) (p :: w.hash (pidHashfn (w.pid p))) }

def unhashPid (w : World ι) (p : ι) : World ι := { w with hash := fun h => (w.hash h).erase p }

/-- The field `p_ysptr` of the child behind a pointer, if there is one. -/
def setYounger (w : World ι) (o : Option ι) (y : Option ι) : World ι :=
  match o with
  | some o => { w with ysptr := update w.ysptr o y }
  | none => w

/-- The second half of `REMOVE_LINKS`. -/
def unlinkSibling (w : World ι) (p : ι) : World ι :=
  let w := w.setYounger (w.osptr p) (w.ysptr p)
  match w.ysptr p with
  | some y => { w with osptr := update w.osptr y (w.osptr p) }
  | none => { w with cptr := update w.cptr (w.pptr p) (w.osptr p) }

def removeLinks (w : World ι) (p : ι) : World ι := { w with links := w.links.unlink p }.unlinkSibling p

/-- The second half of `SET_LINKS`, which the loop of `exit_notify` repeats. -/
def linkSibling (w : World ι) (p : ι) : World ι :=
  let w := { w with
    ysptr := update w.ysptr p none
    osptr := update w.osptr p (w.cptr (w.pptr p)) }
  let w := w.setYounger (w.osptr p) (some p)
  { w with cptr := update w.cptr (w.pptr p) (some p) }

def setLinks (w : World ι) (p : ι) : World ι := { w with links := w.links.insertBefore none p }.linkSibling p

/-! ### The calls -/

/-- `do_fork` from `SET_LINKS` on; a task with pid 0 is not linked. -/
def doFork (w : World ι) (parent : Option ι) (p : ι) (pid : ℕ) : World ι :=
  if pid = 0 then w
  else
    let w := { w with
      pptr := update w.pptr p parent
      opptr := update w.opptr p parent
      cptr := update w.cptr (some p) none
      pid := update w.pid p pid
      zombie := update w.zombie p false
      waiting := update w.waiting p none
      used := update w.used p true }
    (w.setLinks p).hashPid p

/-- The loop of `forget_original_parent`, from the task `p` on. -/
def forgetOriginalParent (w : World ι) (father : ι) : ℕ → Option ι → Option (World ι)
  | 0, _ => none
  | _ + 1, none => some w
  | fuel + 1, some p =>
    let w := if w.opptr p = some father then { w with opptr := update w.opptr p w.childReaper } else w
    w.forgetOriginalParent father fuel (w.links.next (some p))

/-- One turn of the loop of `exit_notify`: the youngest child goes to its original parent. -/
def passChild (w : World ι) (current p : ι) : World ι :=
  { w with
    cptr := update w.cptr (some current) (w.osptr p)
    pptr := update w.pptr p (w.opptr p) }.linkSibling p

def passChildren (w : World ι) (current : ι) : ℕ → Option (World ι)
  | 0 => none
  | fuel + 1 =>
    match w.cptr (some current) with
    | none => some w
    | some p => (w.passChild current p).passChildren current fuel

/-- The exit of a task: it is a zombie, and `exit_notify` follows. -/
def exitNotify (w : World ι) (current : ι) (fuel : ℕ) : Option (World ι) := do
  let w := { w with zombie := update w.zombie current true }
  let w ← w.forgetOriginalParent current fuel (w.links.next none)
  w.passChildren current fuel

def release (w : World ι) (p : ι) : World ι :=
  let w := (w.unhashPid p).removeLinks p
  { w with used := update w.used p false }

/-- `sys_wait4` up to the copies to the user: the first zombie among the children that its arguments
select. -/
def waitFind (w : World ι) (current : ι) (selects : ι → Bool) (fuel : ℕ) : Option (World ι) :=
  (seek w.osptr (fun p => selects p && w.zombie p) (fun _ => false) fuel (w.cptr (some current))).map fun p =>
    { w with waiting := update w.waiting current p }

/-- `sys_wait4` behind the copies; `ok` says that they succeed. -/
def waitEnd (w : World ι) (current p : ι) (ok : Bool) : World ι :=
  let w := { w with waiting := update w.waiting current none }
  if ok then
    if w.opptr p ≠ w.pptr p then
      let w := w.removeLinks p
      { w with pptr := update w.pptr p (w.opptr p) }.setLinks p
    else w.release p
  else w

def attach (w : World ι) (current p : ι) : World ι :=
  let w := w.removeLinks p
  { w with pptr := update w.pptr p (some current) }.setLinks p

def Runs (w : World ι) (t : ι) : Prop := w.used t = true ∧ w.zombie t = false ∧ w.waiting t = none

instance (w : World ι) (t : ι) : Decidable (w.Runs t) := inferInstanceAs (Decidable (_ ∧ _ ∧ _))

end World

/-- The calls, cut where they can sleep. -/
inductive Op (ι : Type*) where
  | fork (parent : Option ι) (p : ι) (pid : ℕ)
  /-- The thread `init`, forked by `init_task`, becomes `child_reaper`. -/
  | init (current : ι)
  | exit (current : ι)
  | waitFind (current : ι) (selects : ι → Bool)
  | waitEnd (current : ι) (ok : Bool)
  | attach (current p : ι)

variable {ι : Type*} [DecidableEq ι]

/-- When a call can be made.  A new task gets a `task_struct` that is not in use. -/
def enabled (w : World ι) : Op ι → Bool
  | .fork parent p _ => w.used p = false ∧ ∀ t ∈ parent, w.Runs t
  | .init current => w.Runs current ∧ w.childReaper = none ∧ w.opptr current = none
  | .exit current | .waitFind current _ => w.Runs current
  | .waitEnd current _ => w.waiting current ≠ none
  | .attach current p => w.Runs current ∧ w.used p ∧ p ≠ current

/-- A call; it is `none` if a loop does not end within the fuel. -/
def effect (w : World ι) (fuel : ℕ) : Op ι → Option (World ι)
  | .fork parent p pid => some (w.doFork parent p pid)
  | .init current => some { w with childReaper := some current }
  | .exit current => w.exitNotify current fuel
  | .waitFind current selects => w.waitFind current selects fuel
  | .waitEnd current ok => (w.waiting current).map fun p => w.waitEnd current p ok
  | .attach current p => some (w.attach current p)

def step (w : World ι) (a : Op ι × ℕ) : Option (World ι) :=
  if enabled w a.1 then effect w a.2 a.1 else none

end I370Linux.FamilyTree
