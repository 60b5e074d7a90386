import I370Linux.Runs

/-! # The timer wheel

The model of `internal_add_timer`, `cascade_timers`, `run_timer_list` and the calls on timers of
`kernel/sched.c`, and an abstract model of what it is for.

The five vectors `tv1`, ..., `tv5` are the levels 0, ..., 4, as in the array `tvecs`; a slot is the
list of the timers in its chain, first one first.  A timer's `prev` pointer tells whether the timer
is pending and which chain it is linked in: `place` is that chain.  Timers are named by numbers;
their `function` and `data` are left out.

`run_timer_list` is cut into steps, since a callback may use every call on timers before the next
timer is taken: `beginTick` cascades, `run` takes one timer and calls it, `endTick` advances
`timer_jiffies`; `runTimerList` is the loop over them.  `Timers` is the abstract model: a set of timers with the tick at which each is
due. -/

namespace I370Linux.TimerWheel

open Runs Function

/-! ### The wheel -/

/-- The timers and their vectors; `ticking` says that `run_timer_list` is inside a tick. -/
@[ext]
structure Wheel where
  vec : ℕ → ℕ → List ℕ
  index : ℕ → ℕ
  timerJiffies : BitVec 32
  jiffies : BitVec 32
  expires : ℕ → BitVec 32
  place : ℕ → Option (ℕ × ℕ)
  ticking : Bool

def Wheel.init : Wheel where
  vec := fun _ _ => []
  index := fun _ => 0
  timerJiffies := 0
  jiffies := 0
  expires := fun _ => 0
  place := fun _ => none
  ticking := false

/-- The slot that `internal_add_timer` picks. -/
def slotFor (expires timerJiffies : BitVec 32) (tv1Index : ℕ) : ℕ × ℕ :=
  let idx := expires - timerJiffies
  if idx < 256 then (0, (expires &&& 255).toNat)
  else if idx < (1 : BitVec 32) <<< 14 then (1, (expires >>> 8 &&& 63).toNat)
  else if idx < (1 : BitVec 32) <<< 20 then (2, (expires >>> 14 &&& 63).toNat)
  else if idx < (1 : BitVec 32) <<< 26 then (3, (expires >>> 20 &&& 63).toNat)
  else if idx.toInt < 0 then (0, tv1Index)
  else (4, (expires >>> 26 &&& 63).toNat)

def Wheel.setSlot (w : Wheel) (s : ℕ × ℕ) (l : List ℕ) : Wheel :=
  { w with vec := update w.vec s.1 (update (w.vec s.1) s.2 l) }

def insertTimer (w : Wheel) (t : ℕ) (s : ℕ × ℕ) : Wheel :=
  { w.setSlot s (t :: w.vec s.1 s.2) with place := update w.place t (some s) }

def internalAddTimer (w : Wheel) (t : ℕ) : Wheel :=
  insertTimer w t (slotFor (w.expires t) w.timerJiffies (w.index 0))

/-- `detach_timer`; the timer's own links keep their values. -/
def detachTimer (w : Wheel) (t : ℕ) : Wheel :=
  match w.place t with
  | some s => w.setSlot s ((w.vec s.1 s.2).erase t)
  | none => w

/-- `timer->next = timer->prev = 0`. -/
def Wheel.clearLinks (w : Wheel) (t : ℕ) : Wheel :=
  { w with place := update w.place t none }

def Wheel.setExpires (w : Wheel) (t : ℕ) (e : BitVec 32) : Wheel :=
  { w with expires := update w.expires t e }

/-- `cascade_timers`: all timers of the current slot are added again, then the slot is cleared. -/
def cascadeTimers (w : Wheel) (n : ℕ) : Wheel :=
  let s := (n, w.index n)
  let w' := (w.vec n (w.index n)).foldl internalAddTimer w
  { w'.setSlot s [] with index := update w'.index n ((w'.index n + 1) % 64) }

/-- The `do` loop of `run_timer_list` from the vector `n` on. -/
def cascadeFrom (w : Wheel) : ℕ → ℕ → Wheel
  | 0, _ => w
  | fuel + 1, n =>
    let w := cascadeTimers w n
    if w.index n = 1 ∧ n + 1 < 5 then cascadeFrom w fuel (n + 1) else w

/-- The calls on timers and the steps of `run_timer_list`.  `add t e` sets `expires` and calls
`add_timer`; `run t` takes `t` off the current slot and calls its function. -/
inductive Event
  | advance (n : BitVec 32)
  | add (t : ℕ) (e : BitVec 32)
  | mod (t : ℕ) (e : BitVec 32)
  | del (t : ℕ)
  | beginTick
  | run (t : ℕ)
  | endTick
  deriving DecidableEq, Repr

def step (w : Wheel) : Event → Option Wheel
  | .advance n => some { w with jiffies := w.jiffies + n }
  | .add t e =>
    if w.place t = none then some (internalAddTimer (w.setExpires t e) t) else none
  | .mod t e => some (internalAddTimer (detachTimer (w.setExpires t e) t) t)
  | .del t => some ((detachTimer w t).clearLinks t)
  | .beginTick =>
    if w.ticking = false ∧ 0 ≤ (w.jiffies - w.timerJiffies).toInt then
      some { (if w.index 0 = 0 then cascadeFrom w 4 1 else w) with ticking := true }
    else none
  | .run t =>
    if w.ticking = true ∧ (w.vec 0 (w.index 0)).head? = some t then
      some ((detachTimer w t).clearLinks t)
    else none
  | .endTick =>
    if w.ticking = true ∧ w.vec 0 (w.index 0) = [] then
      some { w with
        timerJiffies := w.timerJiffies + 1
        index := update w.index 0 ((w.index 0 + 1) % 256)
        ticking := false }
    else none

/-- The number of ticks that `run_timer_list` has to process. -/
def Wheel.ticks (w : Wheel) : ℕ := ((w.jiffies - w.timerJiffies).toInt + 1).toNat

/-- Where `run_timer_list` is in its two loops, as the event that it does next; it returns where there is none. -/
def Wheel.next (w : Wheel) : Option Event :=
  if w.ticking = true then some ((w.vec 0 (w.index 0)).head?.elim .endTick .run)
  else if 0 ≤ (w.jiffies - w.timerJiffies).toInt then some .beginTick
  else none

/-- The calls that the function of a timer makes when the timer runs. -/
def calls (fn : ℕ → Wheel → List Event) (w : Wheel) : Event → List Event
  | .run t => fn t w
  | _ => []

/-- `run_timer_list`, with the events of it and of the functions it calls, and the wheel it leaves. -/
def runTimerList (fn : ℕ → Wheel → List Event) : ℕ → Wheel → Option (List Event × Wheel)
  | 0, _ => none
  | fuel + 1, w =>
    match w.next with
    | none => some ([], w)
    | some e => do
      let w ← step w e
      let r ← runTimerList fn fuel (← exec step (fun _ _ => true) w (calls fn w e))
      some (e :: (calls fn w e ++ r.1), r.2)

/-! ### What it is for -/

/-- Timers and the ticks at which they are due.  `now` counts the ticks completed, so it is the tick
being processed or the next one; `timer_jiffies` is `now` in 32 bits. -/
structure Timers where
  now : ℕ
  due : ℕ → Option ℕ
  ticking : Bool

def Timers.init : Timers := { now := 0, due := fun _ => none, ticking := false }

/-- When a timer added at the tick `now` with the given `expires` is due: when `timer_jiffies` gets there, if that
is less than `2 ^ 31` ticks ahead, and otherwise, since that is in the past, at this tick. -/
def deadline (now : ℕ) (e : BitVec 32) : ℕ :=
  let ahead := (e - BitVec.ofNat 32 now).toNat
  if ahead < 2 ^ 31 then now + ahead else now

def Timers.arm (a : Timers) (t : ℕ) (e : BitVec 32) : Timers :=
  { a with due := update a.due t (some (deadline a.now e)) }

def Timers.disarm (a : Timers) (t : ℕ) : Timers := { a with due := update a.due t none }

/-- A timer runs inside the tick at which it is due, and is then no longer armed; a tick ends when no
timer that is due at it is left. -/
inductive Timers.Step (a : Timers) : Event → Timers → Prop
  | advance (n : BitVec 32) : Step a (.advance n) a
  | add {t : ℕ} (e : BitVec 32) (h : a.due t = none) : Step a (.add t e) (a.arm t e)
  | mod (t : ℕ) (e : BitVec 32) : Step a (.mod t e) (a.arm t e)
  | del (t : ℕ) : Step a (.del t) (a.disarm t)
  | beginTick (h : a.ticking = false) : Step a .beginTick { a with ticking := true }
  | run {t : ℕ} (h : a.ticking = true) (hdue : a.due t = some a.now) : Step a (.run t) (a.disarm t)
  | endTick (h : a.ticking = true) (hdue : ∀ t, a.due t ≠ some a.now) :
      Step a .endTick { a with now := a.now + 1, ticking := false }

/-- No call in the list is about the timer. -/
def Untouched (t : ℕ) (es : List Event) : Prop :=
  .del t ∉ es ∧ ∀ e, .add t e ∉ es ∧ .mod t e ∉ es

/-- The calls that do not keep `run_timer_list` in its tick: timers are armed for later ticks only. -/
def later (w : Wheel) : Event → Bool
  | .add _ e | .mod _ e => 0 < (e - w.timerJiffies).toInt
  | .del _ => true
  | _ => false

end I370Linux.TimerWheel
