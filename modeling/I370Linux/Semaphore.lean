import I370Linux.Runs
import I370Linux.Census

/-! # Kernel semaphores: `down`, `down_interruptible` and `up`

A semaphore is a pair of 32-bit counters and a wait queue.  `down` decrements `count` and sleeps
when the result is negative; `up` increments it and, when the result is not positive, banks one unit
in `waking` and wakes the sleepers, which compete for it with `waking_non_zero`.  A task of
`__down_interruptible` that finds a signal pending gives its decrement back to `count` and returns
`-EINTR`.

The model is a step function over the tasks' program counters: every atomic primitive, every change
of `tsk->state`, every queue operation and every wake-up is a step of its own, so that the runs are
all interleavings.  `acquired` and `upped` are ghost counters of the successful returns from a
`down` and of the `up`s performed.

The bookkeeping invariant is `Inv`: the units banked by `up` (in `waking`, or about to be) are
exactly the sleepers that `count` no longer accounts for.  It is kept by every step except a
give-back while `count` is not negative (`step_inv`), and such a give-back creates a unit
(`giveUp_creates_unit`).

The increment is a parameter.  `exactInc` is an exact one; `laInc` is what `LA` makes in
`atomic_inc_return`, which is the same only from -1 on (`step_laInc`). -/

namespace I370Linux.Semaphore

open Runs

inductive DownKind where
  | uninterruptible
  | interruptible
deriving DecidableEq, Repr

/-- `tsk->state`, as far as semaphores use it. -/
inductive TaskState where
  | running
  | interruptible
  | uninterruptible
deriving DecidableEq, Repr

/-- What a slow-path `down` returns. -/
inductive Ret where
  | ok
  | eintr
deriving DecidableEq, Repr

/-- Where a task stands in `down`, `down_interruptible` or `up`: the next primitive it performs. -/
inductive Pc where
  /-- Outside the semaphore code. -/
  | idle
  /-- `DOWN_HEAD`: `tsk->state = (task_state)`. -/
  | setState (k : DownKind)
  /-- `add_wait_queue(&sem->wait, &wait)`. -/
  | addWaitQueue (k : DownKind)
  /-- Top of the loop: `waking_non_zero(sem, tsk)`. -/
  | wakingNonZero (k : DownKind)
  /-- `__down_interruptible`: `signal_pending(tsk)`. -/
  | signalPending
  /-- `__down_interruptible`: `atomic_inc(&sem->count)`, give up on the down operation. -/
  | giveUp
  /-- `schedule()`. -/
  | schedule (k : DownKind)
  /-- `DOWN_TAIL`: `tsk->state = (task_state)`, back to the top of the loop. -/
  | resetState (k : DownKind)
  /-- `DOWN_TAIL`: `tsk->state = TASK_RUNNING`. -/
  | setRunning (r : Ret)
  /-- `remove_wait_queue(&sem->wait, &wait)` and return. -/
  | removeWaitQueue (r : Ret)
  /-- `__up`: `wake_one_more(sem)`. -/
  | wakeOneMore
  /-- `__up`: `wake_up(&sem->wait)`. -/
  | wakeUp
deriving DecidableEq, Repr

def DownKind.taskState : DownKind → TaskState
  | .uninterruptible => .uninterruptible
  | .interruptible => .interruptible

/-- One semaphore with its tasks. -/
structure Sys (ι : Type) where
  count : ℤ
  waking : ℤ
  pc : ι → Pc
  state : ι → TaskState
  /-- Membership of the wait queue `sem->wait`. -/
  waiting : ι → Bool
  signal : ι → Bool
  /-- Successful returns from `down` and `down_interruptible`. -/
  acquired : ℕ
  /-- Calls of `up` that have performed their `atomic_inc_return`. -/
  upped : ℕ
  /-- Returns of `-EINTR`. -/
  interrupted : ℕ

/-- What can happen next: a task enters the semaphore code, a task performs its next primitive, a
signal becomes pending, or an idle task handles its signals. -/
inductive Event (ι : Type) where
  | down (t : ι)
  | downInterruptible (t : ι)
  | up (t : ι)
  | run (t : ι)
  | signal (t : ι)
  | flushSignals (t : ι)
deriving DecidableEq, Repr

/-- Two's-complement wrap-around of a 32-bit `int`. -/
def wrap32 (x : ℤ) : ℤ := Int.bmod x (2 ^ 32)

theorem wrap32_eq {x : ℤ} (h₁ : -2 ^ 31 ≤ x) (h₂ : x < 2 ^ 31) : wrap32 x = x := by
  unfold wrap32
  rw [Int.bmod_eq_of_le] <;> omega

/-- An exact `atomic_inc_return`. -/
def exactInc (x : ℤ) : ℤ := wrap32 (x + 1)

/-- `atomic_inc_return` with `LA`, whose result has 31 bits. -/
def laInc (x : ℤ) : ℤ := (x + 1) % 2 ^ 31

/-- `sema_init(sem, n)`: nobody is inside. -/
def init {ι : Type} (n : ℕ) : Sys ι :=
  { count := n, waking := 0, pc := fun _ => .idle, state := fun _ => .running,
    waiting := fun _ => false, signal := fun _ => false, acquired := 0, upped := 0, interrupted := 0 }

variable {ι : Type}

section

variable [DecidableEq ι]

namespace Sys

/-- Move task `t` to `p`. -/
def goto (s : Sys ι) (t : ι) (p : Pc) : Sys ι := { s with pc := Function.update s.pc t p }

def setTaskState (s : Sys ι) (t : ι) (x : TaskState) : Sys ι :=
  { s with state := Function.update s.state t x }

def setWaiting (s : Sys ι) (t : ι) (b : Bool) : Sys ι :=
  { s with waiting := Function.update s.waiting t b }

end Sys

/-- `down` and `down_interruptible` up to their first branch: `atomic_dec_return(&sem->count) < 0`. -/
def downEntry (s : Sys ι) (t : ι) (k : DownKind) : Sys ι :=
  let c := wrap32 (s.count - 1)
  if c < 0 then { s with count := c }.goto t (.setState k)
  else { s with count := c, acquired := s.acquired + 1 }

/-- `up` up to its first branch: `atomic_inc_return(&sem->count) <= 0`. -/
def upEntry (inc : ℤ → ℤ) (s : Sys ι) (t : ι) : Sys ι :=
  let c := inc s.count
  if c ≤ 0 then { s with count := c, upped := s.upped + 1 }.goto t .wakeOneMore
  else { s with count := c, upped := s.upped + 1 }

/-- `waking_non_zero`, that is `atomic_dec_if_positive(&sem->waking)`. -/
def tryWaking (s : Sys ι) (t : ι) (k : DownKind) : Sys ι :=
  if 0 < s.waking then { s with waking := s.waking - 1 }.goto t (.setRunning .ok)
  else
    match k with
    | .uninterruptible => s.goto t (.schedule .uninterruptible)
    | .interruptible => s.goto t .signalPending

/-- `schedule()` returns once the task is runnable; an interruptible sleeper with a signal pending
is made runnable by `schedule` itself. -/
def schedule (s : Sys ι) (t : ι) (k : DownKind) : Option (Sys ι) :=
  if s.state t = .running ∨ (s.state t = .interruptible ∧ s.signal t = true) then
    some ((s.setTaskState t .running).goto t (.resetState k))
  else none

/-- `wake_up(&sem->wait)`: every task on the queue becomes runnable. -/
def wakeUp (s : Sys ι) : Sys ι :=
  { s with state := fun t => if s.waiting t then .running else s.state t }

def leave (s : Sys ι) (t : ι) : Ret → Sys ι
  | .ok => { s.setWaiting t false with acquired := s.acquired + 1 }.goto t .idle
  | .eintr => { s.setWaiting t false with interrupted := s.interrupted + 1 }.goto t .idle

/-- The next primitive of task `t`. -/
def runTask (inc : ℤ → ℤ) (s : Sys ι) (t : ι) : Option (Sys ι) :=
  match s.pc t with
  | .idle => none
  | .setState k => some ((s.setTaskState t k.taskState).goto t (.addWaitQueue k))
  | .addWaitQueue k => some ((s.setWaiting t true).goto t (.wakingNonZero k))
  | .wakingNonZero k => some (tryWaking s t k)
  | .signalPending => some (s.goto t (if s.signal t then .giveUp else .schedule .interruptible))
  | .giveUp => some ({ s with count := inc s.count }.goto t (.setRunning .eintr))
  | .schedule k => schedule s t k
  | .resetState k => some ((s.setTaskState t k.taskState).goto t (.wakingNonZero k))
  | .setRunning r => some ((s.setTaskState t .running).goto t (.removeWaitQueue r))
  | .removeWaitQueue r => some (leave s t r)
  | .wakeOneMore => some ({ s with waking := inc s.waking }.goto t .wakeUp)
  | .wakeUp => some ((wakeUp s).goto t .idle)

def step (inc : ℤ → ℤ) (s : Sys ι) : Event ι → Option (Sys ι)
  | .down t => if s.pc t = .idle then some (downEntry s t .uninterruptible) else none
  | .downInterruptible t => if s.pc t = .idle then some (downEntry s t .interruptible) else none
  | .up t => if s.pc t = .idle then some (upEntry inc s t) else none
  | .run t => runTask inc s t
  | .signal t =>
    let s' := { s with signal := Function.update s.signal t true }
    some (if s.state t = .interruptible then s'.setTaskState t .running else s')
  | .flushSignals t =>
    if s.pc t = .idle then some { s with signal := Function.update s.signal t false } else none

end

/-! ### Wake-ups -/

/-- The task is on the wait queue. -/
def isQueued : Pc → Bool
  | .wakingNonZero _ | .signalPending | .giveUp | .schedule _ | .resetState _ | .setRunning _
  | .removeWaitQueue _ => true
  | _ => false

/-- The task has found no unit in `waking` and sleeps or is about to. -/
def isDozing : Pc → Bool
  | .signalPending | .schedule _ => true
  | _ => false

/-- A unit in `waking` keeps the tasks on the queue awake, unless its wake-up is still to come. -/
structure Awake (s : Sys ι) : Prop where
  queued : ∀ t, isQueued (s.pc t) = true → s.waiting t = true
  awake : 0 < s.waking → (∀ u, s.pc u ≠ .wakeUp) → ∀ t, isDozing (s.pc t) = true → s.state t = .running

theorem init_awake (n : ℕ) : Awake (init n : Sys ι) := by constructor <;> simp [init, isQueued]

section

variable {s s' : Sys ι} {t : ι} (h : Awake s)
include h

theorem Awake.congr (hpc : s'.pc = s.pc) (hwaking : s'.waking = s.waking) (hwait : s'.waiting = s.waiting)
    (hstate : ∀ u, s.state u = .running → s'.state u = .running) : Awake s' := by
  refine ⟨by rw [hpc, hwait]; exact h.queued, fun hpos hno u hu => ?_⟩
  rw [hwaking] at hpos
  rw [hpc] at hno hu
  exact hstate u (h.awake hpos hno u hu)

variable [DecidableEq ι]

/-- Task `t` goes to `p`, and what it changed before that is its own or `waking`. -/
theorem Awake.goto {p : Pc} (hpc : s'.pc = s.pc) (ht : s.pc t ≠ .wakeUp)
    (hother : ∀ u, u ≠ t → s'.waiting u = s.waiting u ∧ s'.state u = s.state u)
    (hwaking : s'.waking ≤ s.waking ∨ p = .wakeUp) (hqueued : isQueued p = true → s'.waiting t = true)
    (hawake : isDozing p = true → 0 < s'.waking → (∀ u, s.pc u ≠ .wakeUp) → s'.state t = .running) :
    Awake (s'.goto t p) := by
  have hself : (s'.goto t p).pc t = p := Function.update_self ..
  have hne : ∀ u, u ≠ t → (s'.goto t p).pc u = s.pc u := fun u hu => by
    rw [← hpc]
    exact Function.update_of_ne hu ..
  refine ⟨fun u hu => ?_, fun hpos hno u hu => ?_⟩
  · obtain rfl | hut := eq_or_ne u t
    · exact hqueued (hself ▸ hu)
    · rw [hne u hut] at hu
      exact (hother u hut).1.trans (h.queued u hu)
  · have hnone : ∀ u, s.pc u ≠ .wakeUp := fun v => by
      obtain rfl | hvt := eq_or_ne v t
      · exact ht
      · rw [← hne v hvt]
        exact hno v
    obtain rfl | hut := eq_or_ne u t
    · exact hawake (hself ▸ hu) hpos hnone
    · rw [hne u hut] at hu
      have hle := hwaking.resolve_right fun hp => hno t (hself.trans hp)
      exact (hother u hut).2.trans (h.awake (lt_of_lt_of_le hpos hle) hnone u hu)

theorem runTask_awake {inc : ℤ → ℤ} (hs : runTask inc s t = some s') : Awake s' := by
  have hq := h.queued t
  unfold runTask at hs
  cases hpc : s.pc t with
  | idle => rw [hpc] at hs; cases hs
  | setState k | addWaitQueue k | giveUp | resetState k | setRunning r =>
    rw [hpc] at hs hq; cases hs
    refine h.goto rfl (by simp [hpc]) ?_ (.inl le_rfl) ?_ ?_ <;>
      simp_all [Sys.setTaskState, Sys.setWaiting, isQueued, isDozing]
  | wakingNonZero k =>
    rw [hpc] at hs hq; cases hs
    unfold tryWaking
    split_ifs with hpos
    · refine h.goto rfl (by simp [hpc]) (fun _ _ => ⟨rfl, rfl⟩) (.inl (by simp)) (fun _ => hq rfl) ?_
      simp [isDozing]
    · cases k <;> exact h.goto rfl (by simp [hpc]) (fun _ _ => ⟨rfl, rfl⟩) (.inl le_rfl) (fun _ => hq rfl)
        fun _ hlt => absurd hlt hpos
  | signalPending =>
    rw [hpc] at hs hq; cases hs
    exact h.goto rfl (by simp [hpc]) (fun _ _ => ⟨rfl, rfl⟩) (.inl le_rfl) (fun _ => hq rfl)
      fun _ hpos hno => h.awake hpos hno t (by rw [hpc]; rfl)
  | schedule k =>
    rw [hpc] at hs hq
    obtain ⟨-, rfl⟩ := of_guard hs
    refine h.goto rfl (by simp [hpc]) ?_ (.inl le_rfl) ?_ ?_ <;>
      simp_all [Sys.setTaskState, isQueued, isDozing]
  | removeWaitQueue r =>
    rw [hpc] at hs; cases hs
    cases r <;> refine h.goto rfl (by simp [hpc]) ?_ (.inl le_rfl) ?_ ?_ <;>
      simp_all [Sys.setWaiting, isQueued, isDozing]
  | wakeOneMore =>
    rw [hpc] at hs; cases hs
    refine h.goto rfl (by simp [hpc]) ?_ (.inr rfl) ?_ ?_ <;> simp [isQueued, isDozing]
  | wakeUp =>
    rw [hpc] at hs; cases hs
    -- whoever dozes is on the queue, so the wake-up reaches it
    have hpcs : ∀ (f : Pc → Bool) (_ : f .idle = false) u, f (((wakeUp s).goto t .idle).pc u) = true →
        f (s.pc u) = true := fun f hf u hu => by
      obtain rfl | hut := eq_or_ne u t
      · simp [Sys.goto, hf] at hu
      · simpa [Sys.goto, wakeUp, hut] using hu
    refine ⟨fun u hu => h.queued u (hpcs _ rfl u hu), fun _ _ u hu => ?_⟩
    have hd := hpcs _ rfl u hu
    have hw : s.waiting u = true := h.queued u (by cases hp : s.pc u <;> simp_all [isDozing, isQueued])
    simp [Sys.goto, wakeUp, hw]

end

theorem step_awake [DecidableEq ι] (inc : ℤ → ℤ) (s : Sys ι) (e : Event ι) (s' : Sys ι) (h : Awake s)
    (hs : step inc s e = some s') : Awake s' := by
  cases e with
  | down t | downInterruptible t | up t =>
    obtain ⟨ht, rfl⟩ := of_guard hs
    simp only [downEntry, upEntry]
    split_ifs
    · refine h.goto rfl (by simp [ht]) ?_ (.inl le_rfl) ?_ ?_ <;> simp [isQueued, isDozing]
    · exact h.congr rfl rfl rfl fun _ => id
  | run t => exact runTask_awake h hs
  | signal t =>
    simp only [step, Option.some.injEq] at hs
    subst hs
    split_ifs
    · refine h.congr rfl rfl rfl fun u hu => ?_
      by_cases hut : u = t <;> simp [Sys.setTaskState, hut, hu]
    · exact h.congr rfl rfl rfl fun _ => id
  | flushSignals t =>
    obtain ⟨-, rfl⟩ := of_guard hs
    exact h.congr rfl rfl rfl fun _ => id

/-! ### Units and the bookkeeping invariant -/

/-- The task has decremented `count` and neither got a unit nor given up. -/
def isWaiter : Pc → Bool
  | .setState _ | .addWaitQueue _ | .wakingNonZero _ | .signalPending | .giveUp | .schedule _
  | .resetState _ => true
  | _ => false

/-- The task has taken a unit from `waking` and is on its way out. -/
def isGranted : Pc → Bool
  | .setRunning .ok | .removeWaitQueue .ok => true
  | _ => false

/-- The task is about to bank a unit in `waking`. -/
def isBanking : Pc → Bool
  | .wakeOneMore => true
  | _ => false

variable [Fintype ι]

/-- The units that can still be acquired without a further `up`: those of `count`, those banked in
`waking` or about to be, and those of the tasks on their way out with one. -/
def Sys.free (s : Sys ι) : ℤ :=
  max s.count 0 + s.waking + census isBanking s.pc + census isGranted s.pc

/-- Successful downs minus ups do not exceed `n`. -/
def Bounded (n : ℕ) (s : Sys ι) : Prop := (s.acquired : ℤ) - s.upped ≤ n

/-- No unit was consumed or created other than by a successful down or an up. -/
def Conserved (n : ℕ) (s : Sys ι) : Prop := s.free + s.acquired = n + s.upped

/-- The counters stay 32-bit values, the banked units match the sleepers that `count` no longer
accounts for, and `count` is the ledger of all downs and ups. -/
structure Inv (n : ℕ) (s : Sys ι) : Prop where
  count_ge : -2 ^ 31 ≤ s.count
  count_lt : s.count < 2 ^ 31
  waking_nonneg : 0 ≤ s.waking
  waking_lt : s.waking < 2 ^ 31
  bank : s.waking + census isBanking s.pc = census isWaiter s.pc + min s.count 0
  ledger : s.count + census isWaiter s.pc + census isGranted s.pc + s.acquired = n + s.upped

variable {n : ℕ} {s s' : Sys ι} {t : ι}

theorem Inv.conserved (h : Inv n s) : Conserved n s := by
  have hb := h.bank
  have hl := h.ledger
  unfold Conserved Sys.free
  omega

theorem Inv.bounded (h : Inv n s) : Bounded n s := by
  have hc := h.conserved
  have hw := h.waking_nonneg
  have hB := census_nonneg isBanking s.pc
  have hG := census_nonneg isGranted s.pc
  unfold Conserved Sys.free at hc
  unfold Bounded
  omega

theorem init_inv (hn : n < 2 ^ 31) : Inv n (init n : Sys ι) := by
  have h0 : ∀ p : Pc → Bool, p .idle = false → census p (fun _ : ι => Pc.idle) = 0 :=
    fun p hp => census_eq_zero (fun _ => hp)
  constructor <;> simp only [init, h0 isBanking rfl, h0 isWaiter rfl, h0 isGranted rfl] <;>
    push_cast <;> omega

/-! ### The steps that keep the books -/

/-- The condition under which a step keeps the books: no counter step overflows 32 bits, and the
give-back of an interrupted task finds `count` still negative. -/
def keepsBooks (s : Sys ι) : Event ι → Bool
  | .down _ | .downInterruptible _ => decide (-2 ^ 31 < s.count)
  | .up _ => decide (s.count < 2 ^ 31 - 1)
  | .run t =>
    match s.pc t with
    | .giveUp => decide (s.count < 0)
    | .wakeOneMore => decide (s.waking < 2 ^ 31 - 1)
    | _ => true
  | .signal _ | .flushSignals _ => true

def phase (p : Pc) : Bool × Bool × Bool := (isWaiter p, isGranted p, isBanking p)

def books (s : Sys ι) : ℤ × ℤ × (ι → Pc) × ℕ × ℕ := (s.count, s.waking, s.pc, s.acquired, s.upped)

section

variable (h : Inv n s)
include h

theorem Inv.congr (hs : books s' = books s) : Inv n s' := by
  simp only [books, Prod.mk.injEq] at hs
  obtain ⟨hc, hw, hp, ha, hu⟩ := hs
  obtain ⟨h1, h2, h3, h4, h5, h6⟩ := h
  constructor <;> simp only [hc, hw, hp, ha, hu] <;> assumption

variable [DecidableEq ι]

theorem Inv.goto {p : Pc} (hs : books s' = books s) (hp : phase p = phase (s.pc t)) :
    Inv n (s'.goto t p) := by
  have hpc : s'.pc = s.pc := congrArg (·.2.2.1) hs
  simp only [phase, Prod.mk.injEq, ← hpc] at hp
  obtain ⟨h1, h2, h3, h4, h5, h6⟩ := h.congr hs
  refine ⟨h1, h2, h3, h4, ?_, ?_⟩ <;> simp only [Sys.goto, census_update, hp] <;> omega

theorem downEntry_inv (ht : s.pc t = .idle)
    (hc : -2 ^ 31 < s.count) (k : DownKind) : Inv n (downEntry s t k) := by
  obtain ⟨h1, h2, h3, h4, h5, h6⟩ := h
  have hwrap : wrap32 (s.count - 1) = s.count - 1 := wrap32_eq (by omega) (by omega)
  unfold downEntry
  simp only [hwrap]
  split_ifs with hneg
  · refine ⟨by simp only [Sys.goto]; omega, by simp only [Sys.goto]; omega, h3, h4, ?_, ?_⟩ <;>
      simp only [Sys.goto, census_update, ht, isWaiter, isBanking, isGranted] <;> simp <;> omega
  · refine ⟨by simp only; omega, by simp only; omega, h3, h4, ?_, ?_⟩ <;> push_cast <;> omega

theorem upEntry_inv (ht : s.pc t = .idle) (hc : s.count < 2 ^ 31 - 1) : Inv n (upEntry exactInc s t) := by
  obtain ⟨h1, h2, h3, h4, h5, h6⟩ := h
  have hwrap : exactInc s.count = s.count + 1 := wrap32_eq (by omega) (by omega)
  unfold upEntry
  simp only [hwrap]
  split_ifs with hle
  · refine ⟨by simp only [Sys.goto]; omega, by simp only [Sys.goto]; omega, h3, h4, ?_, ?_⟩ <;>
      simp only [Sys.goto, census_update, ht, isWaiter, isBanking, isGranted] <;> simp <;> omega
  · refine ⟨by simp only; omega, by simp only; omega, h3, h4, ?_, ?_⟩ <;> push_cast <;> omega

theorem tryWaking_inv {k : DownKind} (ht : s.pc t = .wakingNonZero k) : Inv n (tryWaking s t k) := by
  unfold tryWaking
  split_ifs with hpos
  · obtain ⟨h1, h2, h3, h4, h5, h6⟩ := h
    refine ⟨h1, h2, by simp only [Sys.goto]; omega, by simp only [Sys.goto]; omega, ?_, ?_⟩ <;>
      simp only [Sys.goto, census_update, ht, isWaiter, isBanking, isGranted] <;> simp <;> omega
  · cases k <;> exact h.goto rfl (by rw [ht]; rfl)

theorem leave_inv {r : Ret} (ht : s.pc t = .removeWaitQueue r) : Inv n (leave s t r) := by
  obtain ⟨h1, h2, h3, h4, h5, h6⟩ := h
  cases r <;> refine ⟨h1, h2, h3, h4, ?_, ?_⟩ <;>
    simp only [leave, Sys.goto, Sys.setWaiting, census_update, ht, isWaiter, isBanking, isGranted] <;>
    simp <;> omega

theorem runTask_inv (hk : keepsBooks s (.run t) = true) (hs : runTask exactInc s t = some s') : Inv n s' := by
  unfold runTask at hs
  simp only [keepsBooks] at hk
  cases hpc : s.pc t with
  | idle => rw [hpc] at hs; cases hs
  | setState k | addWaitQueue k | resetState k | wakeUp =>
    rw [hpc] at hs; cases hs
    exact h.goto rfl (by rw [hpc]; rfl)
  | wakingNonZero k => rw [hpc] at hs; cases hs; exact tryWaking_inv h hpc
  | signalPending =>
    rw [hpc] at hs; cases hs
    split_ifs <;> exact h.goto rfl (by rw [hpc]; rfl)
  | giveUp =>
    rw [hpc] at hs hk; cases hs
    simp only [decide_eq_true_eq] at hk
    obtain ⟨h1, h2, h3, h4, h5, h6⟩ := h
    have hwrap : exactInc s.count = s.count + 1 := wrap32_eq (by omega) (by omega)
    refine ⟨?_, ?_, h3, h4, ?_, ?_⟩ <;>
      simp only [Sys.goto, census_update, hpc, hwrap, isWaiter, isBanking, isGranted] <;>
      simp <;> omega
  | schedule k =>
    rw [hpc] at hs
    obtain ⟨-, rfl⟩ := of_guard hs
    exact h.goto rfl (by rw [hpc]; rfl)
  | setRunning r =>
    rw [hpc] at hs; cases hs
    exact h.goto rfl (by rw [hpc]; cases r <;> rfl)
  | removeWaitQueue r => rw [hpc] at hs; cases hs; exact leave_inv h hpc
  | wakeOneMore =>
    rw [hpc] at hs hk; cases hs
    simp only [decide_eq_true_eq] at hk
    obtain ⟨h1, h2, h3, h4, h5, h6⟩ := h
    have hwrap : exactInc s.waking = s.waking + 1 := wrap32_eq (by omega) (by omega)
    refine ⟨h1, h2, by simp only [Sys.goto, hwrap]; omega, by simp only [Sys.goto, hwrap]; omega, ?_, ?_⟩ <;>
      simp only [Sys.goto, census_update, hpc, hwrap, isWaiter, isBanking, isGranted] <;>
      simp <;> omega

end

variable [DecidableEq ι]

theorem step_inv (s : Sys ι) (e : Event ι) (s' : Sys ι) (h : Inv n s)
    (hk : keepsBooks s e = true) (hs : step exactInc s e = some s') : Inv n s' := by
  cases e with
  | down t | downInterruptible t =>
    obtain ⟨ht, rfl⟩ := of_guard hs
    exact downEntry_inv h ht (of_decide_eq_true hk) _
  | up t =>
    obtain ⟨ht, rfl⟩ := of_guard hs
    exact upEntry_inv h ht (of_decide_eq_true hk)
  | run t => exact runTask_inv h hk hs
  | signal t =>
    simp only [step, Option.some.injEq] at hs
    split_ifs at hs <;> subst hs <;> exact h.congr rfl
  | flushSignals t =>
    obtain ⟨-, rfl⟩ := of_guard hs
    exact h.congr rfl

/-- A give-back while `count` is not negative creates a unit: an `up` has already banked the unit
of the interrupted task in `waking`. -/
theorem giveUp_creates_unit (h : Inv n s) (ht : s.pc t = .giveUp)
    (hc : 0 ≤ s.count) (hlt : s.count < 2 ^ 31 - 1) (hs : step exactInc s (.run t) = some s') :
    s'.free + s'.acquired = n + s'.upped + 1 := by
  have hcons := h.conserved
  have hwrap : exactInc s.count = s.count + 1 := wrap32_eq (by omega) (by omega)
  simp only [step, runTask, ht, hwrap, Option.some.injEq] at hs
  subst hs
  unfold Conserved Sys.free at hcons
  simp only [Sys.free, Sys.goto, census_update, ht, isBanking, isGranted]
  simp
  omega

/-- **Semaphore units.** In every run whose steps meet `keepsBooks`, the successful downs minus the ups never exceed the
initial count and no unit is lost or created; and the first step that gives back to a count that is not negative creates one.
-/
theorem semUnits_of_keepsBooks (n : ℕ) (hn : n < 2 ^ 31) (s : Sys ι)
    (hr : ReachesBy (step exactInc) (fun s e => keepsBooks s e = true) (init n) s) :
    Bounded n s ∧ Conserved n s ∧
      ∀ t s', s.pc t = .giveUp → 0 ≤ s.count → s.count < 2 ^ 31 - 1 →
        step exactInc s (.run t) = some s' → ¬ Conserved n s' := by
  have hI : Inv n s := hr.invariant (init_inv hn) step_inv
  refine ⟨hI.bounded, hI.conserved, ?_⟩
  intro t s' ht hc hlt hs hcons
  have := giveUp_creates_unit hI ht hc hlt hs
  unfold Conserved at hcons
  omega

/-- A contended mutex: task 1 is interrupted while task 0 still holds it, gives its decrement back
to a negative count, and task 2 gets the unit that task 0 then banks. -/
def contendedTrace : List (Event (Fin 3)) :=
  [.down 0, .downInterruptible 1, .down 2, .run 1, .run 1, .run 1, .run 2, .run 2, .run 2,
    .signal 1, .run 1, .run 1, .run 1, .run 1, .up 0, .run 0, .run 0, .run 2, .run 2, .run 2,
    .run 2, .run 2]

theorem semUnits_contended : ∃ s : Sys (Fin 3),
    (s.acquired, s.upped, s.interrupted) = (2, 1, 1) ∧ Bounded 1 s ∧ Conserved 1 s := by
  have hx : (exec (step exactInc) keepsBooks (init 1) contendedTrace).map
      (fun s => (s.acquired, s.upped, s.interrupted)) = some (2, 1, 1) := by decide
  obtain ⟨s, hs, hc⟩ := Option.map_eq_some_iff.mp hx
  obtain ⟨hb, hcons, _⟩ := semUnits_of_keepsBooks 1 (by decide) s (ReachesBy.of_exec _ _ _ hs)
  exact ⟨s, hc, hb, hcons⟩

/-- Tasks 0 to 3 on a mutex: task 1 is interrupted in `down_interruptible` between its failed
`waking_non_zero` and its give-back, and task 0's `up` falls into that window. -/
def windowTrace : List (Event (Fin 4)) :=
  [.down 0, .downInterruptible 1, .run 1, .run 1, .run 1, .signal 1, .run 1,
    .up 0, .run 0, .run 0, .run 1, .run 1, .run 1,
    .down 2, .down 3, .run 3, .run 3, .run 3, .run 3, .run 3]

/-- A mutex held by two tasks at once after one `up` and one interrupted `down_interruptible`. -/
theorem mutex_held_twice : ∃ s : Sys (Fin 4), Reaches (step exactInc) (init 1) s ∧ ¬ Bounded 1 s := by
  obtain ⟨s, hs, hacquired, hupped⟩ : ∃ s : Sys (Fin 4), Reaches (step exactInc) (init 1) s ∧ s.acquired = 3 ∧ s.upped = 1 :=
    Reaches.exists_of_exec windowTrace (by decide)
  refine ⟨s, hs, ?_⟩
  unfold Bounded
  omega

/-! ### No lost wake-up -/

/-- A task outside the semaphore code or asleep in it. -/
def Rests (s : Sys ι) (t : ι) : Prop := s.pc t = .idle ∨ ∃ k, s.pc t = .schedule k ∧ s.state t ≠ .running

/-- `LA` increments the count exactly: an `up` or a give-back finds at most one sleeper in it. -/
def incFits (s : Sys ι) : Event ι → Bool
  | .up _ => decide (-1 ≤ s.count)
  | .run t => s.pc t ≠ .giveUp ∨ -1 ≤ s.count
  | _ => true

theorem laInc_eq {x : ℤ} (h₁ : -1 ≤ x) (h₂ : x < 2 ^ 31 - 1) : laInc x = exactInc x := by
  rw [exactInc, wrap32_eq (by omega) (by omega), laInc]
  omega

theorem step_laInc {e : Event ι} (h : Inv n s) (hk : keepsBooks s e = true) (hf : incFits s e = true) :
    step laInc s e = step exactInc s e := by
  cases e with
  | up t =>
    rw [step, upEntry, laInc_eq (of_decide_eq_true hf) (of_decide_eq_true hk)]
    rfl
  | run t =>
    simp only [step, runTask]
    simp only [keepsBooks] at hk
    simp only [incFits, decide_eq_true_eq] at hf
    cases hpc : s.pc t with
    | giveUp =>
      rw [hpc] at hk
      have hneg := of_decide_eq_true hk
      simp only [laInc_eq (hf.resolve_left (not_not.mpr hpc)) (by omega)]
    | wakeOneMore =>
      rw [hpc] at hk
      have hpos := h.waking_nonneg
      simp only [laInc_eq (show -1 ≤ s.waking by omega) (of_decide_eq_true hk)]
    | _ => rfl
  | _ => rfl

/-- **No lost wake-up.** In every run of the code as it is whose steps meet `keepsBooks` and `incFits`, once no task can go
on inside the semaphore code, a task is asleep there only while every unit is held. -/
theorem units_held_of_asleep (hn : n < 2 ^ 31)
    (hr : ReachesBy (step laInc) (fun s e => keepsBooks s e = true ∧ incFits s e = true) (init n) s)
    (hrest : ∀ t, Rests s t) (ht : s.pc t ≠ .idle) :
    s.waking = 0 ∧ (s.acquired : ℤ) - s.upped = n := by
  have hI : Inv n s := hr.invariant (init_inv hn) fun s e s' h hk hs =>
    step_inv s e s' h hk.1 ((step_laInc h hk.1 hk.2).symm.trans hs)
  have hA : Awake s := hr.invariant (init_awake n) fun s e s' h _ hs => step_awake laInc s e s' h hs
  obtain ⟨k, hk, hsleeps⟩ := (hrest t).resolve_left ht
  have hclass : ∀ f : Pc → Bool, f .idle = false → (∀ k, f (.schedule k) = false) → census f s.pc = 0 := by
    intro f h0 h1
    refine census_eq_zero fun u => ?_
    obtain hu | ⟨k, hu, -⟩ := hrest u <;> simp [hu, h0, h1]
  have hwaking : s.waking = 0 := by
    refine le_antisymm (not_lt.mp fun hpos => ?_) hI.waking_nonneg
    refine hsleeps (hA.awake hpos (fun u hu => ?_) t (by rw [hk]; rfl))
    obtain h | ⟨_, h, -⟩ := hrest u <;> simp [h] at hu
  have hwaits : 0 < census isWaiter s.pc := census_pos (i := t) (by rw [hk]; rfl)
  have hbank := hI.bank
  have hledger := hI.ledger
  have hB := hclass isBanking rfl fun _ => rfl
  have hG := hclass isGranted rfl fun _ => rfl
  omega

/-- Task 0 passes a mutex on to task 1, and then sleeps on it. -/
theorem units_held_of_asleep_pair : ∃ s : Sys (Fin 2), s.pc 0 = .schedule .uninterruptible ∧ s.upped = 1 ∧
    (s.acquired : ℤ) - s.upped = 1 := by
  obtain ⟨s, hr, h0, h1, h2, hup⟩ : ∃ s : Sys (Fin 2),
      ReachesBy (step laInc) (fun s e => (keepsBooks s e && incFits s e) = true) (init 1) s ∧
        s.pc 1 = .idle ∧ s.pc 0 = .schedule .uninterruptible ∧ s.state 0 ≠ .running ∧ s.upped = 1 :=
    ReachesBy.exists_of_exec [.down 0, .down 1, .run 1, .run 1, .run 1, .up 0, .run 0, .run 0, .run 1, .run 1, .run 1,
      .run 1, .run 1, .down 0, .run 0, .run 0, .run 0] (by decide)
  have hrest : ∀ t, Rests s t := Fin.forall_fin_two.mpr ⟨.inr ⟨_, h1, h2⟩, .inl h0⟩
  simp only [Bool.and_eq_true] at hr
  exact ⟨s, h1, hup, (units_held_of_asleep (t := 0) (by decide) hr hrest (by simp [h1])).2⟩

/-- With two sleepers `up` takes the count from -2 to 0x7fffffff, and both sleep on. -/
example : ∃ s : Sys (Fin 3), Reaches (step laInc) (init 1) s ∧ s.count = 0x7fffffff ∧ s.acquired = 1 ∧ s.upped = 1 ∧
    s.pc 1 = .schedule .uninterruptible ∧ s.state 1 ≠ .running ∧ s.pc 0 = .idle :=
  Reaches.exists_of_exec [.down 0, .down 1, .run 1, .run 1, .run 1, .down 2, .run 2, .run 2, .run 2, .up 0] (by decide)

end I370Linux.Semaphore
