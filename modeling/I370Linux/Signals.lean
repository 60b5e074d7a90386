import I370Linux.Runs

/-! # Signals

The model of `kernel/signal.c`: sending, forcing and dequeuing a signal, the calls that change the mask
and the action, and the queue of the real-time signals.

A task has the set of its pending signals, the set of those it blocks and the flag `sigpending`, which
`send_sig_info` sets and `recalc_sigpending` computes.  The entries of all queues are in one memory of
`signal_queue` structures; `sigqueue_tail` points at a field, which is the head of the queue or the link
of an entry (`World.load`, `World.store`).

What the calls do to the state of the task (`wake_up_process`, `exit_code`) is left out. -/

namespace I370Linux.Signals

open Runs Function

abbrev NSIG : ℕ := 64
abbrev SIGKILL : ℕ := 9
abbrev SIGCHLD : ℕ := 17
abbrev SIGCONT : ℕ := 18
abbrev SIGSTOP : ℕ := 19
abbrev SIGTSTP : ℕ := 20
abbrev SIGTTIN : ℕ := 21
abbrev SIGTTOU : ℕ := 22
abbrev SIGURG : ℕ := 23
abbrev SIGWINCH : ℕ := 28
abbrev SIGRTMIN : ℕ := 32

abbrev EPERM : ℤ := 1
abbrev ESRCH : ℤ := 3
abbrev EAGAIN : ℤ := 11
abbrev EFAULT : ℤ := 14
abbrev EINVAL : ℤ := 22

/-! ### Sets of signals -/

/-- A `sigset_t`; word 0 is the low half. -/
abbrev SigSet := BitVec 64

/-- `sigmask`, a mask for word 0. -/
def sigmask (sig : ℕ) : BitVec 32 := 1 <<< (sig - 1)

namespace SigSet

def sigismember (s : SigSet) (sig : ℕ) : Bool := s.getLsbD (sig - 1)

def sigaddset (s : SigSet) (sig : ℕ) : SigSet := s ||| BitVec.twoPow 64 (sig - 1)

def sigdelset (s : SigSet) (sig : ℕ) : SigSet := s &&& ~~~BitVec.twoPow 64 (sig - 1)

def sigaddsetmask (s : SigSet) (mask : BitVec 32) : SigSet := s ||| mask.setWidth 64

def sigdelsetmask (s : SigSet) (mask : BitVec 32) : SigSet := s &&& ~~~mask.setWidth 64

def setLow (s : SigSet) (word : BitVec 32) : SigSet :=
  (s &&& ~~~(BitVec.allOnes 32).setWidth 64) ||| word.setWidth 64

end SigSet

/-! ### Tasks -/

/-- A `siginfo_t`; `value` stands for the rest of the union. -/
structure Siginfo where
  signo : ℤ
  errno : ℤ
  code : ℤ
  pid : ℤ
  uid : ℤ
  value : ℤ
deriving DecidableEq, Repr

abbrev SI_USER : ℤ := 0
abbrev SI_KERNEL : ℤ := 0x80

/-- The argument `info`: the pointers 0 and 1, or a structure. -/
inductive InfoArg where
  | null
  | kernel
  | ptr (info : Siginfo)
deriving DecidableEq, Repr

/-- `sa_handler`. -/
inductive Handler where
  | dfl
  | ign
  | user (entry : ℕ)
deriving DecidableEq, Repr

/-- The address of a `signal_queue` entry. -/
abbrev Addr := ℕ

/-- `sig` is the `signal_struct`, none after an exit.  `sigqueueTail` points at the field `sigqueue` (`none`)
or at the link of an entry. -/
structure Task where
  sig : Option ℕ
  signal : SigSet
  blocked : SigSet
  sigpending : Bool
  sigqueue : Option Addr
  sigqueueTail : Option Addr
  ptraced : Bool
  pid : ℤ
  uid : ℤ
  euid : ℤ
  suid : ℤ
  session : ℤ
  capSysAdmin : Bool
deriving DecidableEq, Repr

namespace Task

def recalcSigpending (p : Task) : Task := { p with sigpending := p.signal &&& ~~~p.blocked ≠ 0 }

/-- The signals that cancel others, or are cancelled. -/
def jobControl (sig : ℕ) : Bool :=
  sig = SIGKILL ∨ sig = SIGCONT ∨ sig = SIGSTOP ∨ sig = SIGTSTP ∨ sig = SIGTTIN ∨ sig = SIGTTOU

/-- The `switch` of `send_sig_info`. -/
def cancel (p : Task) (sig : ℕ) : Task :=
  if sig = SIGKILL ∨ sig = SIGCONT then
    let stops := sigmask SIGSTOP ||| sigmask SIGTSTP ||| sigmask SIGTTOU ||| sigmask SIGTTIN
    recalcSigpending { p with signal := p.signal.sigdelsetmask stops }
  else if sig = SIGSTOP ∨ sig = SIGTSTP ∨ sig = SIGTTIN ∨ sig = SIGTTOU then
    recalcSigpending { p with signal := p.signal.sigdelset SIGCONT }
  else p

/-- The end of `send_sig_info`: the signal is pending. -/
def mark (p : Task) (sig : ℕ) : Task :=
  { p with
    signal := p.signal.sigaddset sig
    sigpending := if p.blocked.sigismember sig then p.sigpending else true }

def forget (p : Task) (sig : ℕ) : Task := recalcSigpending { p with signal := p.signal.sigdelset sig }

end Task

def InfoArg.fromUser : InfoArg → Bool
  | null => true
  | kernel => false
  | ptr info => info.code ≤ 0

/-- The `siginfo_t` of the entry for a signal. -/
def InfoArg.fill (info : InfoArg) (sig : ℕ) (current : Task) : Siginfo :=
  match info with
  | null => ⟨sig, 0, SI_USER, current.pid, current.uid, 0⟩
  | kernel => ⟨sig, 0, SI_KERNEL, 0, 0, 0⟩
  | ptr info => info

/-- `info->si_code`, which is also read through the pointers 0 and 1: `low` is what stands there. -/
def InfoArg.code (info : InfoArg) (low : ℤ) : ℤ :=
  match info with
  | ptr info => info.code
  | _ => low

/-- The permission check of `send_sig_info`. -/
def refused (current t : Task) (sig : ℤ) (info : InfoArg) : Bool :=
  info.fromUser ∧ (sig ≠ SIGCONT ∨ current.session ≠ t.session) ∧ current.euid ≠ t.suid ∧
    current.euid ≠ t.uid ∧ current.uid ≠ t.suid ∧ current.uid ≠ t.uid ∧ ¬ current.capSysAdmin

/-! ### The state -/

/-- All tasks, the actions of each `signal_struct`, and the entries of the queues. -/
structure World (ι : Type*) where
  task : ι → Task
  action : ℕ → ℕ → Handler
  next : Addr → Option Addr
  info : Addr → Siginfo
  live : Addr → Bool
  nrQueuedSignals : ℤ
  maxQueuedSignals : ℤ

variable {ι : Type*} [DecidableEq ι]

namespace World

def setTask (w : World ι) (t : ι) (p : Task) : World ι := { w with task := update w.task t p }

/-- A field that holds a link of the queue of a task: `sigqueue`, or the `next` of an entry. -/
def load (w : World ι) (t : ι) : Option Addr → Option Addr
  | none => (w.task t).sigqueue
  | some q => w.next q

def store (w : World ι) (t : ι) (loc p : Option Addr) : World ι :=
  match loc with
  | none => w.setTask t { w.task t with sigqueue := p }
  | some q => { w with next := update w.next q p }

def setTail (w : World ι) (t : ι) (loc : Option Addr) : World ι :=
  w.setTask t { w.task t with sigqueueTail := loc }

/-- `kmem_cache_free` of an entry. -/
def freeEntry (w : World ι) (q : Addr) : World ι :=
  { w with live := update w.live q false, nrQueuedSignals := w.nrQueuedSignals - 1 }

def enqueue (w : World ι) (t : ι) (q : Addr) (info : Siginfo) : World ι :=
  let w := { w with
    live := update w.live q true
    nrQueuedSignals := w.nrQueuedSignals + 1
    next := update w.next q none
    info := update w.info q info }
  (w.store t (w.task t).sigqueueTail (some q)).setTail t (some q)

/-- The first field from `pp` on whose entry is for the signal, or that ends the queue. -/
def findEntry (w : World ι) (t : ι) (sig : ℕ) : ℕ → Option Addr → Option (Option Addr)
  | 0, _ => none
  | fuel + 1, pp =>
    match w.load t pp with
    | none => some pp
    | some q => if (w.info q).signo = sig then some pp else w.findEntry t sig fuel (some q)

/-! ### Sending -/

def ignoredSignal (w : World ι) (sig : ℕ) (t : ι) : Bool :=
  let p := w.task t
  if p.ptraced || p.blocked.sigismember sig then false
  else
    match p.sig with
    | none => true
    | some h =>
      match w.action h sig with
      | .dfl => sig = SIGCONT ∨ sig = SIGWINCH ∨ sig = SIGCHLD ∨ sig = SIGURG
      | .ign => sig ≠ SIGCHLD
      | .user _ => false

/-- The entry that a real-time signal gets; `q` is what `kmem_cache_alloc` returns. -/
def newEntry (w : World ι) (q : Option Addr) : Option Addr :=
  if w.nrQueuedSignals < w.maxQueuedSignals then q else none

/-- `send_sig_info` behind the `switch`. -/
def deliver (w : World ι) (current t : ι) (sig : ℕ) (info : InfoArg) (q : Option Addr) (low : ℤ) :
    ℤ × World ι :=
  if w.ignoredSignal sig t then (0, w)
  else if sig < SIGRTMIN then
    if (w.task t).signal.sigismember sig then (0, w) else (0, w.setTask t ((w.task t).mark sig))
  else
    match w.newEntry q with
    | some q =>
      let w := w.enqueue t q (info.fill sig (w.task current))
      (0, w.setTask t ((w.task t).mark sig))
    | none =>
      if info.code low < 0 then (-EAGAIN, w) else (0, w.setTask t ((w.task t).mark sig))

def sendSigInfo (w : World ι) (current t : ι) (sig : ℤ) (info : InfoArg) (q : Option Addr) (low : ℤ) :
    ℤ × World ι :=
  if sig < 0 ∨ sig > NSIG then (-EINVAL, w)
  else if refused (w.task current) (w.task t) sig info then (-EPERM, w)
  else if sig = 0 ∨ (w.task t).sig = none then (0, w)
  else
    let sig := sig.toNat
    (w.setTask t ((w.task t).cancel sig)).deliver current t sig info q low

/-- `force_sig_info` before it sends: the signal is neither ignored nor blocked. -/
def unblock (w : World ι) (t : ι) (sig h : ℕ) : World ι :=
  { w.setTask t { w.task t with blocked := (w.task t).blocked.sigdelset sig } with
    action := if w.action h sig = .ign then
      update w.action h (update (w.action h) sig .dfl) else w.action }

def forceSigInfo (w : World ι) (current t : ι) (sig : ℕ) (info : InfoArg) (q : Option Addr) (low : ℤ) :
    ℤ × World ι :=
  match (w.task t).sig with
  | none => (-ESRCH, w)
  | some h => (w.unblock t sig h).sendSigInfo current t sig info q low

/-! ### Dequeuing -/

end World

/-- The argument `mask` of `dequeue_signal`: the field `blocked` of the task, or another set. -/
inductive Mask where
  | blocked
  | other (set : SigSet)
deriving DecidableEq, Repr

def Mask.set (mask : Mask) (p : Task) : SigSet :=
  match mask with
  | blocked => p.blocked
  | other set => set

/-- What `dequeue_signal` returns; `queued` says that the information is that of an entry. -/
structure Delivery where
  sig : ℕ
  info : Siginfo
  queued : Bool
deriving DecidableEq, Repr

def Delivery.plain (sig : ℕ) : Delivery := ⟨sig, ⟨sig, 0, 0, 0, 0, 0⟩, false⟩

namespace World

/-- Take the entry at `pp` out of the queue. -/
def unqueue (w : World ι) (t : ι) (pp : Option Addr) (q : Addr) : World ι :=
  let w₁ := w.store t pp (w.next q)
  (if w.next q = none then w₁.setTail t pp else w₁).freeEntry q

/-- `dequeue_signal`; the loops over the queue make less than `fuel` turns. -/
def dequeueSignal (w : World ι) (current : ι) (mask : Mask) (fuel : ℕ) :
    Option (Option Delivery × World ι) :=
  let p := w.task current
  let x := p.signal &&& ~~~mask.set p
  if x = 0 then
    some (none, if mask = .blocked ∧ p.sigpending then w.setTask current { p with sigpending := false }
      else w)
  else
    let sig := x.ctz.toNat + 1
    if sig < SIGRTMIN then some (some (.plain sig), w.setTask current (p.forget sig))
    else
      match w.findEntry current sig fuel none with
      | none => none
      | some pp =>
        match w.load current pp with
        | none => some (some (.plain sig), w.setTask current (p.forget sig))
        | some q =>
          let w₁ := w.unqueue current pp q
          match w₁.findEntry current sig fuel pp with
          | none => none
          | some pp' =>
            let p := w₁.task current
            let p := if w₁.load current pp' = none then p.forget sig else p.recalcSigpending
            some (some ⟨sig, w.info q, true⟩, w₁.setTask current p)

/-! ### The mask and the actions -/

abbrev SIG_BLOCK : ℤ := 0
abbrev SIG_UNBLOCK : ℤ := 1
abbrev SIG_SETMASK : ℤ := 2

/-- `sys_rt_sigprocmask`; a pointer is null, or `copy_from_user` gives a set or fails, or
`copy_to_user` succeeds or fails. -/
def sysRtSigprocmask (w : World ι) (current : ι) (how : ℤ) (set : Option (Option SigSet))
    (oset : Option Bool) (sizeOk : Bool) : ℤ × World ι :=
  let p := w.task current
  let copyOut : ℤ := if oset = some false then -EFAULT else 0
  if !sizeOk then (-EINVAL, w)
  else
    match set with
    | none => (copyOut, w)
    | some none => (-EFAULT, w)
    | some (some set) =>
      let set := set.sigdelsetmask (sigmask SIGKILL ||| sigmask SIGSTOP)
      -- an unknown `how` stores the new set, too
      let blocked := if how = SIG_BLOCK then p.blocked ||| set
        else if how = SIG_UNBLOCK then p.blocked &&& ~~~set else set
      let known := how = SIG_BLOCK ∨ how = SIG_UNBLOCK ∨ how = SIG_SETMASK
      (if known then copyOut else -EINVAL,
        w.setTask current (Task.recalcSigpending { p with blocked := blocked }))

def sysSigprocmask (w : World ι) (current : ι) (how : ℤ) (set : Option (Option (BitVec 32)))
    (oset : Option Bool) : ℤ × World ι :=
  let p := w.task current
  let copyOut : ℤ := if oset = some false then -EFAULT else 0
  match set with
  | none => (copyOut, w)
  | some none => (-EFAULT, w)
  | some (some set) =>
    let set := set &&& ~~~(sigmask SIGKILL ||| sigmask SIGSTOP)
    let blocked := if how = SIG_BLOCK then p.blocked.sigaddsetmask set
      else if how = SIG_UNBLOCK then p.blocked.sigdelsetmask set
      else if how = SIG_SETMASK then p.blocked.setLow set else p.blocked
    let known := how = SIG_BLOCK ∨ how = SIG_UNBLOCK ∨ how = SIG_SETMASK
    (if known then copyOut else -EINVAL,
      w.setTask current (Task.recalcSigpending { p with blocked := blocked }))

/-- The loop of `do_sigaction` that takes the entries for a signal out of the queue. -/
def discardEntries (w : World ι) (t : ι) (sig : ℕ) : ℕ → Option Addr → Option (World ι)
  | 0, _ => none
  | fuel + 1, pp =>
    match w.load t pp with
    | none => some w
    | some q =>
      if (w.info q).signo ≠ sig then w.discardEntries t sig fuel (some q)
      else ((w.store t pp (w.next q)).freeEntry q).discardEntries t sig fuel pp

/-- The new action makes a pending signal be discarded. -/
def discards (sig : ℕ) (act : Handler) : Bool :=
  act = .ign ∨ act = .dfl ∧ (sig = SIGCONT ∨ sig = SIGCHLD ∨ sig = SIGWINCH)

/-- `do_sigaction` of a task that has the `signal_struct` `h`. -/
def doSigaction (w : World ι) (current : ι) (h : ℕ) (sig : ℤ) (act : Option Handler) (fuel : ℕ) :
    Option (ℤ × World ι) :=
  if sig < 1 ∨ sig > NSIG ∨ act.isSome ∧ (sig = SIGKILL ∨ sig = SIGSTOP) then some (-EINVAL, w)
  else
    match act with
    | none => some (0, w)
    | some act =>
      let sig := sig.toNat
      let w := { w with
        action := update w.action h (update (w.action h) sig act) }
      if discards sig act then
        let w' := if sig ≥ SIGRTMIN ∧ (w.task current).signal.sigismember sig then
          w.discardEntries current sig fuel none else some w
        w'.map fun w => (0, w.setTask current ((w.task current).forget sig))
      else some (0, w)

/-- The loop of `flush_signals`. -/
def freeEntries (w : World ι) : ℕ → Option Addr → Option (World ι)
  | 0, _ => none
  | _ + 1, none => some w
  | fuel + 1, some q => (w.freeEntry q).freeEntries fuel (w.next q)

def flushSignals (w : World ι) (t : ι) (fuel : ℕ) : Option (World ι) :=
  let q := (w.task t).sigqueue
  (w.setTask t { w.task t with sigpending := false, signal := 0, sigqueue := none, sigqueueTail := none })
    |>.freeEntries fuel q

end World

/-! ### Runs -/

/-- The calls; `fuel` is more than the number of turns that the loops over a queue make. -/
inductive Op (ι : Type*) where
  | send (current t : ι) (sig : ℤ) (info : InfoArg) (q : Option Addr) (low : ℤ)
  | force (current t : ι) (sig : ℕ) (info : InfoArg) (q : Option Addr) (low : ℤ)
  | dequeue (current : ι) (mask : Mask) (fuel : ℕ)
  | rtSigprocmask (current : ι) (how : ℤ) (set : Option (Option SigSet)) (oset : Option Bool)
      (sizeOk : Bool)
  | sigprocmask (current : ι) (how : ℤ) (set : Option (Option (BitVec 32))) (oset : Option Bool)
  | sigaction (current : ι) (sig : ℤ) (act : Option Handler) (fuel : ℕ)
  | flush (t : ι) (fuel : ℕ)

/-- An allocation gives an entry that is not in use. -/
def World.allocatable (w : World ι) (q : Option Addr) : Bool := q.all fun q => !w.live q

/-- One call.  Signals are forced with a number of a signal, and a task that calls `do_sigaction` has a
`signal_struct`. -/
def step (w : World ι) : Op ι → Option (World ι)
  | .send current t sig info q low =>
    if w.allocatable q then some (w.sendSigInfo current t sig info q low).2 else none
  | .force current t sig info q low =>
    if w.allocatable q ∧ 1 ≤ sig ∧ sig ≤ NSIG then some (w.forceSigInfo current t sig info q low).2
    else none
  | .dequeue current mask fuel => (w.dequeueSignal current mask fuel).map Prod.snd
  | .rtSigprocmask current how set oset sizeOk =>
    some (w.sysRtSigprocmask current how set oset sizeOk).2
  | .sigprocmask current how set oset => some (w.sysSigprocmask current how set oset).2
  | .sigaction current sig act fuel =>
    (w.task current).sig.bind fun h => (w.doSigaction current h sig act fuel).map Prod.snd
  | .flush t fuel => w.flushSignals t fuel

end I370Linux.Signals
