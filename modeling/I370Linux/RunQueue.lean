import I370Linux.Runs
import I370Linux.Links

/-! # The run queue and `schedule`

The model of the run queue of `kernel/sched.c` on one processor: the ring through `next_run` and
`prev_run` of `init_task`, the helpers that edit it, `wake_up_process`, `goodness`, `schedule`,
`setscheduler`, `sys_sched_yield` and the end of `do_fork`.

A run is a sequence of critical sections.  `schedule` is not one of them: it drops the lock of the queue
before it looks for the next task, so the search is a step for every turn of its loop and every advance
along the queue, and interrupts that wake tasks may come between any two of them.

A pointer to a task is `none` for `init_task`; a link field is `none` when it is `NULL`.  A function is
`none` where the source follows a null pointer. -/

namespace I370Linux.RunQueue

open Runs Links Function List

/-! ### The ring -/

/-- The fields `next_run` and `prev_run` of all tasks. -/
structure Run (ι : Type*) where
  next : Option ι → Option (Option ι)
  prev : Option ι → Option (Option ι)

namespace Run

variable {ι : Type*} [DecidableEq ι]

/-- The first half of the two `move_` functions: the neighbours are linked to each other. -/
def unlink (r : Run ι) (p : Option ι) : Option (Run ι) := do
  let next ← r.next p
  let prev ← r.prev p
  some ⟨update r.next prev (some next), update r.prev next (some prev)⟩

def addToRunqueue (r : Run ι) (p : Option ι) : Option (Run ι) := do
  let next ← r.next none
  some ⟨update (update r.next none (some p)) p (some next),
    update (update r.prev p (some none)) next (some p)⟩

def delFromRunqueue (r : Run ι) (p : Option ι) : Option (Run ι) := do
  let r ← r.unlink p
  some ⟨update r.next p none, update r.prev p none⟩

def moveLastRunqueue (r : Run ι) (p : Option ι) : Option (Run ι) := do
  let r ← r.unlink p
  let prev ← r.prev none
  some ⟨update (update r.next p (some none)) prev (some p),
    update (update r.prev none (some p)) p (some prev)⟩

/-- `move_first_runqueue`; its second half has the stores of `add_to_runqueue`. -/
def moveFirstRunqueue (r : Run ι) (p : Option ι) : Option (Run ι) := do
  let r ← r.unlink p
  r.addToRunqueue p

end Run

/-! ### The list of the ring -/

namespace Run

variable {ι : Type*}

/-- The links, for a ring: null pointers do not occur in it. -/
def links (r : Run ι) : DLinks ι := ⟨fun q => (r.next q).getD none, fun q => (r.prev q).getD none⟩

/-- A task pointer into the set `S`, or to `init_task`. -/
def Within (S : Set ι) (q : Option ι) : Prop := ∀ a, q = some a → a ∈ S

/-- The ring holds the tasks of the list, and of the tasks `S` just these have fields that are not
null. -/
structure Holds (r : Run ι) (S : Set ι) (l : List ι) : Prop where
  ring : Ring r.links l
  mem : ∀ a ∈ l, a ∈ S
  next_iff : ∀ q, Within S q → ((r.next q).isSome ↔ Within {a | a ∈ l} q)
  prev_iff : ∀ q, Within S q → ((r.prev q).isSome ↔ Within {a | a ∈ l} q)

variable {r r' : Run ι} {S T : Set ι} {l l₁ l₂ : List ι} {a : ι} {q : Option ι}

theorem within_none : Within S (none : Option ι) := by
  intro a ha
  cases ha

theorem within_some : Within S (some a) ↔ a ∈ S :=
  ⟨fun h => h a rfl, fun h _ hb => Option.some.inj hb ▸ h⟩

theorem within_getLast? : Within {a | a ∈ l₁ ++ l₂} l₁.getLast? := by
  intro b hb
  exact mem_append_left l₂ (mem_of_getLast? hb)

theorem mem_middle {b : ι} (hb : b ∈ l₁ ++ l₂) : b ∈ l₁ ++ a :: l₂ := by
  rw [mem_append, mem_cons]
  exact (mem_append.mp hb).imp_right .inr

section

variable (h : r.Holds S l) (hq : Within {a | a ∈ l} q)
include h hq

theorem Holds.within : Within S q :=
  fun a ha => h.mem a (hq a ha)

theorem Holds.next_eq : r.next q = some (r.links.next q) := by
  obtain ⟨v, hv⟩ := Option.isSome_iff_exists.mp ((h.next_iff q (h.within hq)).mpr hq)
  unfold links
  dsimp only
  rw [hv, Option.getD_some]

theorem Holds.prev_eq : r.prev q = some (r.links.prev q) := by
  obtain ⟨v, hv⟩ := Option.isSome_iff_exists.mp ((h.prev_iff q (h.within hq)).mpr hq)
  unfold links
  dsimp only
  rw [hv, Option.getD_some]

end

theorem Holds.congr (h : r.Holds S l)
    (heq : ∀ q, Within S q → r'.next q = r.next q ∧ r'.prev q = r.prev q) : r'.Holds S l where
  ring := by
    apply h.ring.congr
    intro q hq
    unfold links
    dsimp only
    rw [(heq q (h.within hq)).1, (heq q (h.within hq)).2]
    exact ⟨rfl, rfl⟩
  mem := h.mem
  next_iff q hq := by
    rw [(heq q hq).1]
    exact h.next_iff q hq
  prev_iff q hq := by
    rw [(heq q hq).2]
    exact h.prev_iff q hq

section Update

variable [DecidableEq ι] {f : Option ι → Option (Option ι)} {p : Option ι} {v : Option (Option ι)}
  {l' : List ι}

/-- Of the tasks `S` just those of the list have a field that is not null. -/
def Filled (f : Option ι → Option (Option ι)) (S : Set ι) (l : List ι) : Prop :=
  ∀ q, Within S q → ((f q).isSome ↔ Within {a | a ∈ l} q)

theorem Filled.store (h : Filled f S l) (hp : Within {a | a ∈ l} p) (v : Option ι) :
    Filled (update f p (some v)) S l := by
  intro q hq
  obtain rfl | hne := eq_or_ne q p
  · exact iff_of_true (by simp) hp
  · rw [update_of_ne hne]
    exact h q hq

theorem Filled.set (h : Filled f S l) (hv : v.isSome ↔ a ∈ l') (hS : ∀ b ∈ T, b ≠ a → b ∈ S)
    (hl : ∀ b ≠ a, b ∈ l ↔ b ∈ l') : Filled (update f (some a) v) T l' := by
  intro q hq
  obtain rfl | hne := eq_or_ne q (some a)
  · rw [update_self, hv]
    exact (within_some (S := {b | b ∈ l'})).symm
  have hb : ∀ b, q = some b → b ≠ a := by
    rintro b hb rfl
    exact hne hb
  rw [update_of_ne hne, h q fun b hqb => hS b (hq b hqb) (hb b hqb)]
  exact forall₂_congr fun b hqb => hl b (hb b hqb)

omit [DecidableEq ι] in
theorem Filled.perm (h : Filled f S l) (hperm : l'.Perm l) : Filled f S l' := by
  intro q hq
  rw [h q hq]
  exact forall₂_congr fun b _ => hperm.mem_iff.symm

theorem getD_update (f : Option ι → Option (Option ι)) (p v : Option ι) :
    (fun q => (update f p (some v) q).getD none) = update (fun q => (f q).getD none) p v := by
  funext q
  obtain rfl | hq := eq_or_ne q p
  · simp
  · rw [update_of_ne hq, update_of_ne hq]

theorem Holds.unlink (h : r.Holds S (l₁ ++ a :: l₂)) : ∃ r', r.unlink (some a) = some r' ∧
    Ring r'.links (l₁ ++ l₂) ∧ Filled r'.next S (l₁ ++ a :: l₂) ∧ Filled r'.prev S (l₁ ++ a :: l₂) := by
  have ha : Within {b | b ∈ l₁ ++ a :: l₂} (some a) := within_some.mpr (by simp)
  have hn : Within {b | b ∈ l₁ ++ a :: l₂} (r.links.next (some a)) := by
    rw [h.ring.next_some]
    intro b hb
    exact mem_append_right l₁ (mem_cons_of_mem a (mem_of_head? hb))
  have hp : Within {b | b ∈ l₁ ++ a :: l₂} (r.links.prev (some a)) := by
    rw [h.ring.prev_some]
    exact within_getLast?
  refine ⟨⟨update r.next (r.links.prev (some a)) (some (r.links.next (some a))),
    update r.prev (r.links.next (some a)) (some (r.links.prev (some a)))⟩, ?_, ?_,
    Filled.store h.next_iff hp _, Filled.store h.prev_iff hn _⟩
  · unfold Run.unlink
    rw [h.next_eq ha, h.prev_eq ha]
    rfl
  · have hring := h.ring.unlink
    unfold Run.links
    rwa [getD_update, getD_update]

theorem holds_clear (hring : Ring r.links l') (hn : Filled r.next S l) (hp : Filled r.prev S l)
    (ha : a ∉ l') (hmem : ∀ b ∈ l', b ∈ T) (hS : ∀ b ∈ T, b ≠ a → b ∈ S)
    (hl : ∀ b ≠ a, b ∈ l ↔ b ∈ l') :
    Holds ⟨update r.next (some a) none, update r.prev (some a) none⟩ T l' := by
  have hnull : (none : Option (Option ι)).isSome ↔ a ∈ l' := iff_of_false nofun ha
  refine ⟨hring.congr fun q hq => ?_, hmem, hn.set hnull hS hl, hp.set hnull hS hl⟩
  have hne : q ≠ some a := by
    rintro rfl
    exact ha (hq a rfl)
  unfold links
  dsimp only
  rw [update_of_ne hne, update_of_ne hne]
  exact ⟨rfl, rfl⟩

theorem Holds.delFromRunqueue (h : r.Holds S (l₁ ++ a :: l₂)) :
    ∃ r', r.delFromRunqueue (some a) = some r' ∧ r'.Holds S (l₁ ++ l₂) := by
  obtain ⟨u, hu, hring, hn, hp⟩ := h.unlink
  refine ⟨⟨update u.next (some a) none, update u.prev (some a) none⟩, ?_,
    holds_clear hring hn hp h.ring.notMem (fun b hb => h.mem b (mem_middle hb)) (fun _ hb _ => hb) fun b hb => ?_⟩
  · unfold Run.delFromRunqueue
    rw [hu]
    rfl
  · simp [hb]

theorem addToRunqueue_eq (hring : Ring r.links l) (hnone : (r.next none).isSome) (ha : a ∉ l) :
    ∃ r', r.addToRunqueue (some a) = some r' ∧ Ring r'.links (a :: l) ∧
      r'.next = update (update r.next none (some (some a))) (some a) (some l.head?) ∧
      r'.prev = update (update r.prev (some a) (some none)) l.head? (some (some a)) := by
  obtain ⟨v, hv⟩ := Option.isSome_iff_exists.mp hnone
  obtain rfl : v = l.head? := by
    rw [← hring.next_none]
    unfold links
    dsimp only
    rw [hv, Option.getD_some]
  refine ⟨⟨update (update r.next none (some (some a))) (some a) (some l.head?),
    update (update r.prev (some a) (some none)) l.head? (some (some a))⟩, ?_, ?_, rfl, rfl⟩
  · unfold Run.addToRunqueue
    rw [hv]
    rfl
  · have hins := hring.insertFirst ha rfl
    unfold DLinks.insertBefore at hins
    rw [hring.prev_eq [] l rfl, getLast?_nil] at hins
    unfold links at hins ⊢
    rw [getD_update, getD_update, getD_update, getD_update]
    rw [update_comm (Option.some_ne_none a)] at hins
    exact hins

theorem Holds.addToRunqueue (h : r.Holds S l) (hS : a ∈ S) (ha : a ∉ l) :
    ∃ r', r.addToRunqueue (some a) = some r' ∧ r'.Holds S (a :: l) := by
  have hnone : (r.next none).isSome := (h.next_iff none within_none).mpr within_none
  obtain ⟨r', hr', hring, hnext, hprev⟩ := addToRunqueue_eq h.ring hnone ha
  have hcons : ∀ v : Option ι, (some v).isSome ↔ a ∈ a :: l := fun _ => iff_of_true rfl mem_cons_self
  have hl : ∀ b ≠ a, b ∈ l ↔ b ∈ a :: l := fun b hb => by simp [hb]
  have hnext' := (Filled.store h.next_iff within_none (some a)).set (hcons l.head?) (fun _ hb _ => hb) hl
  have hprev' := (Filled.set h.prev_iff (hcons none) (fun _ hb _ => hb) hl).store (p := l.head?)
    (fun b hb => mem_cons_of_mem a (mem_of_head? hb)) (some a)
  refine ⟨r', hr', hring, ?_, hnext ▸ hnext', hprev ▸ hprev'⟩
  intro b hb
  obtain rfl | hb := mem_cons.mp hb
  · exact hS
  · exact h.mem b hb

theorem Holds.moveFirstRunqueue (h : r.Holds S (l₁ ++ a :: l₂)) :
    ∃ r', r.moveFirstRunqueue (some a) = some r' ∧ r'.Holds S (a :: (l₁ ++ l₂)) := by
  obtain ⟨u, hu, hring, hn, hp⟩ := h.unlink
  have ha : Within {b | b ∈ l₁ ++ a :: l₂} (some a) := within_some.mpr (by simp)
  have hperm : (a :: (l₁ ++ l₂)).Perm (l₁ ++ a :: l₂) := perm_middle.symm
  obtain ⟨r', hr', hring', hnext, hprev⟩ :=
    addToRunqueue_eq hring ((hn none within_none).mpr within_none) h.ring.notMem
  have hnext' := ((hn.store within_none (some a)).store ha (l₁ ++ l₂).head?).perm hperm
  have hprev' := ((hp.store ha none).store (p := (l₁ ++ l₂).head?)
    (fun b hb => mem_middle (mem_of_head? hb)) (some a)).perm hperm
  refine ⟨r', ?_, hring', fun b hb => h.mem b (hperm.mem_iff.mp hb), hnext ▸ hnext', hprev ▸ hprev'⟩
  unfold Run.moveFirstRunqueue
  rw [hu]
  exact hr'

theorem Holds.moveLastRunqueue (h : r.Holds S (l₁ ++ a :: l₂)) :
    ∃ r', r.moveLastRunqueue (some a) = some r' ∧ r'.Holds S (l₁ ++ l₂ ++ [a]) := by
  obtain ⟨u, hu, hring, hn, hp⟩ := h.unlink
  have ha : Within {b | b ∈ l₁ ++ a :: l₂} (some a) := within_some.mpr (by simp)
  have hperm : (l₁ ++ l₂ ++ [a]).Perm (l₁ ++ a :: l₂) := by
    rw [append_assoc]
    exact perm_append_comm.append_left l₁
  obtain ⟨v, hv⟩ := Option.isSome_iff_exists.mp ((hp none within_none).mpr within_none)
  obtain rfl : v = (l₁ ++ l₂).getLast? := by
    rw [← hring.prev_none]
    unfold links
    dsimp only
    rw [hv, Option.getD_some]
  have hnext := ((hn.store ha none).store (p := (l₁ ++ l₂).getLast?)
    (fun b hb => mem_middle (mem_of_getLast? hb)) (some a)).perm hperm
  have hprev := ((hp.store within_none (some a)).store ha (l₁ ++ l₂).getLast?).perm hperm
  refine ⟨⟨update (update u.next (some a) (some none)) (l₁ ++ l₂).getLast? (some (some a)),
    update (update u.prev none (some (some a))) (some a) (some (l₁ ++ l₂).getLast?)⟩, ?_, ?_,
    fun b hb => h.mem b (hperm.mem_iff.mp hb), hnext, hprev⟩
  · unfold Run.moveLastRunqueue
    rw [hu]
    change (u.prev none).bind _ = _
    rw [hv]
    rfl
  · have hring : Ring u.links (l₁ ++ l₂ ++ []) := by rwa [append_nil]
    have hins := Ring.insertBefore (q := none) (a := a) hring (by simpa using h.ring.notMem) rfl
    unfold DLinks.insertBefore at hins
    rw [hring.prev_none, append_nil] at hins
    unfold links at hins ⊢
    rw [getD_update, getD_update, getD_update, getD_update, update_comm (Option.some_ne_none a).symm]
    exact hins

end Update

end Run

/-! ### Tasks -/

inductive State where
  | running
  | interruptible
  | uninterruptible
  | zombie
  | stopped
  | swapping
deriving DecidableEq, Repr

abbrev Policy := BitVec 32

abbrev SCHED_OTHER : Policy := 0
abbrev SCHED_FIFO : Policy := 1
abbrev SCHED_RR : Policy := 2
abbrev SCHED_YIELD : Policy := 0x10

/-- With `HZ` 100. -/
abbrev DEF_PRIORITY : ℤ := 20

abbrev EPERM : ℤ := 1
abbrev ESRCH : ℤ := 3
abbrev EFAULT : ℤ := 14
abbrev EINVAL : ℤ := 22

structure Task where
  state : State
  policy : Policy
  rtPriority : ℤ
  counter : ℤ
  priority : ℤ
  mm : ℕ
  needResched : Bool
  uid : ℕ
  euid : ℕ
  /-- `CAP_SYS_NICE` is effective. -/
  capSysNice : Bool
deriving DecidableEq, Repr

/-- The value of `goodness`, and the task it leaves. -/
def goodness (p prev : Task) : ℤ × Task :=
  if p.policy &&& SCHED_YIELD ≠ 0 then (0, { p with policy := p.policy &&& ~~~SCHED_YIELD })
  else if p.policy ≠ SCHED_OTHER then (1000 + p.rtPriority, p)
  else if p.counter ≠ 0 then
    (p.counter + (if p.mm = prev.mm then 1 else 0) + p.priority, p)
  else (p.counter, p)

/-- Where the processor is: outside the search of `schedule`, at the test of its loop, or behind
`goodness`.  The arguments are `p`, `c` and `next`. -/
inductive Phase (ι : Type*) where
  | running
  | weighing (p : Option ι) (c : ℤ) (next : Option ι)
  | advancing (p : ι) (c : ℤ) (next : Option ι)
deriving DecidableEq

/-- `linked` tasks are those that `for_each_task` visits, and `unborn` gives the parent of a task that
`do_fork` has yet to link; `idling` says that `init_task` is in its endless loop. -/
structure World (ι : Type*) where
  task : Option ι → Task
  linked : ι → Bool
  unborn : ι → Option (Option ι)
  run : Run ι
  nrRunning : ℤ
  current : Option ι
  phase : Phase ι
  idling : Bool

namespace World

variable {ι : Type*} [DecidableEq ι]

def setTask (w : World ι) (p : Option ι) (t : Task) : World ι :=
  { w with task := update w.task p t }

/-! ### Waking up -/

/-- `reschedule_idle` without SMP. -/
def rescheduleIdle (w : World ι) (p : Option ι) : World ι :=
  if (w.task p).policy ≠ SCHED_OTHER ∨ (w.task p).counter > (w.task w.current).counter + 3 then
    w.setTask w.current { w.task w.current with needResched := true }
  else w

def wakeUpProcess (w : World ι) (p : Option ι) : Option (World ι) :=
  let w := w.setTask p { w.task p with state := .running }
  match w.run.next p with
  | some _ => some w
  | none => do
    let run ← w.run.addToRunqueue p
    some ({ w with run := run, nrRunning := w.nrRunning + 1 }.rescheduleIdle p)

/-! ### `schedule` -/

/-- An exhausted `SCHED_RR` task gets a new time slice and goes to the end. -/
def refill (w : World ι) : Option (World ι) :=
  let prev := w.task w.current
  if prev.counter = 0 ∧ prev.policy = SCHED_RR then do
    let run ← w.run.moveLastRunqueue w.current
    some { w.setTask w.current { prev with counter := prev.priority } with run := run }
  else some w

/-- A task that sleeps leaves the queue. -/
def dequeuePrev (w : World ι) : Option (World ι) := do
  let run ← w.run.delFromRunqueue w.current
  some { w with run := run, nrRunning := w.nrRunning - 1 }

/-- The `switch` on the state of the previous task. -/
def leave (w : World ι) (signalPending : Bool) : Option (World ι) :=
  match (w.task w.current).state with
  | .running => some w
  | .interruptible =>
    if signalPending then some (w.setTask w.current { w.task w.current with state := .running })
    else w.dequeuePrev
  | _ => w.dequeuePrev

/-- The critical section of `schedule`, up to the search. -/
def schedule (w : World ι) (signalPending : Bool) : Option (World ι) := do
  let w := w.setTask w.current { w.task w.current with needResched := false }
  let w ← w.refill
  let w ← w.leave signalPending
  let p ← w.run.next none
  some { w with phase := .weighing p (-1000) none }

def weigh (w : World ι) (p : ι) (c : ℤ) (next : Option ι) : World ι :=
  let (weight, t) := goodness (w.task (some p)) (w.task w.current)
  let w := w.setTask (some p) t
  { w with phase := if weight > c then .advancing p weight (some p) else .advancing p c next }

def advance (w : World ι) (p : ι) (c : ℤ) (next : Option ι) : Option (World ι) := do
  let p ← w.run.next (some p)
  some { w with phase := .weighing p c next }

/-- The new counters, if no task has time left. -/
def recalculate (w : World ι) : World ι :=
  { w with task := fun p =>
      match p with
      | none => w.task none
      | some t =>
        if w.linked t then { w.task (some t) with
          counter := (w.task (some t)).counter / 2 + (w.task (some t)).priority }
        else w.task (some t) }

/-- The end of `schedule`: the processor goes on with the task found. -/
def switchTo (w : World ι) (c : ℤ) (next : Option ι) : World ι :=
  { (if c = 0 then w.recalculate else w) with current := next, phase := .running }

/-! ### The calls -/

/-- The part of `setscheduler` under the locks, for the task found. -/
def setschedulerLocked (w : World ι) (p : Option ι) (policy : Policy) (prio : ℤ) :
    Option (ℤ × World ι) :=
  let t := w.task p
  let cur := w.task w.current
  let given := ¬ policy.toInt < 0
  let policy := if given then policy else t.policy
  if given ∧ policy ≠ SCHED_FIFO ∧ policy ≠ SCHED_RR ∧ policy ≠ SCHED_OTHER then some (-EINVAL, w)
  else if prio < 0 ∨ prio > 99 then some (-EINVAL, w)
  else if ¬ (policy = SCHED_OTHER ↔ prio = 0) then some (-EINVAL, w)
  else if (policy = SCHED_FIFO ∨ policy = SCHED_RR) ∧ ¬ cur.capSysNice then some (-EPERM, w)
  else if cur.euid ≠ t.euid ∧ cur.euid ≠ t.uid ∧ ¬ cur.capSysNice then some (-EPERM, w)
  else do
    let w := w.setTask p { t with policy := policy, rtPriority := prio }
    let run ← if (w.run.next p).isSome then w.run.moveFirstRunqueue p else some w.run
    let w := { w with run := run }
    some (0, w.setTask w.current { w.task w.current with needResched := true })

/-- `setscheduler`; `found` is what `find_task_by_pid` finds, and `param` is `none` for a null pointer
and `some none` for one that cannot be read. -/
def setscheduler (w : World ι) (pid : ℤ) (found : Option ι) (policy : Policy)
    (param : Option (Option ℤ)) : Option (ℤ × World ι) :=
  match param with
  | none => some (-EINVAL, w)
  | some lp =>
    if pid < 0 then some (-EINVAL, w)
    else
      match lp with
      | none => some (-EFAULT, w)
      | some prio =>
        if pid = 0 then w.setschedulerLocked w.current policy prio
        else
          match found with
          | none => some (-ESRCH, w)
          | some t => w.setschedulerLocked (some t) policy prio

def sysSchedYield (w : World ι) : Option (World ι) := do
  let cur := w.task w.current
  let policy := if cur.policy = SCHED_OTHER then cur.policy ||| SCHED_YIELD else cur.policy
  let run ← w.run.moveLastRunqueue w.current
  some { w.setTask w.current { cur with policy := policy, needResched := true } with run := run }

/-- The start of `do_fork`: the child is a copy of the current task, in a "shadow run" state. -/
def forkBegin (w : World ι) (child : ι) : World ι :=
  let run := ⟨update w.run.next (some child) (some (some child)),
    update w.run.prev (some child) (some (some child))⟩
  { w.setTask (some child) { w.task w.current with state := .running } with
    run := run
    unborn := update w.unborn child (some w.current) }

/-- The end of `do_fork`: the child shares the time left to the current task, becomes visible and is
woken. -/
def forkEnd (w : World ι) (child : ι) (mm : ℕ) : Option (World ι) :=
  let cur := w.task w.current
  let w := w.setTask w.current { cur with counter := cur.counter / 2 }
  let w := w.setTask (some child) { w.task (some child) with counter := cur.counter / 2, mm := mm }
  let run := ⟨update w.run.next (some child) none, update w.run.prev (some child) none⟩
  let w := { w with
    linked := update w.linked child true
    unborn := update w.unborn child none
    run := run }
  w.wakeUpProcess (some child)

def updateProcessTimes (w : World ι) (ticks : ℕ) : World ι :=
  if w.current.isSome then
    let p := w.task w.current
    let p := { p with counter := p.counter - ticks }
    w.setTask w.current (if p.counter < 0 then { p with counter := 0, needResched := true } else p)
  else w

/-- The priority that `sys_setpriority` computes from a nice value. -/
def nicePriority (niceval : ℤ) : ℤ :=
  let priority := (min |niceval| 20 * DEF_PRIORITY + 10) / 20 + DEF_PRIORITY
  if niceval ≥ 0 then
    if 2 * DEF_PRIORITY - priority = 0 then 1 else 2 * DEF_PRIORITY - priority
  else priority

/-- What `sys_setpriority` does to a task it selects and may change. -/
def setPriority (w : World ι) (p : ι) (niceval : ℤ) : World ι :=
  if nicePriority niceval > (w.task (some p)).priority ∧ ¬ (w.task w.current).capSysNice then w
  else w.setTask (some p) { w.task (some p) with priority := nicePriority niceval }

/-- `sys_nice` of the current task. -/
def sysNice (w : World ι) (increment : ℤ) : World ι :=
  let cur := w.task w.current
  if increment < 0 ∧ ¬ cur.capSysNice then w
  else
    let amount := (min |increment| 40 * DEF_PRIORITY + 10) / 20
    let newprio := if increment < 0 then cur.priority + amount else cur.priority - amount
    w.setTask w.current { cur with priority := min (max newprio 1) (DEF_PRIORITY * 2) }

end World

/-! ### Runs -/

/-- The steps of the scheduler and the calls on it. -/
inductive Op (ι : Type*) where
  /-- `wake_up_process`, of a task or of an interrupt. -/
  | wake (p : Option ι)
  | schedule (signalPending : Bool)
  | weigh
  | advance
  | switchTo
  /-- The current task sets its own state. -/
  | setState (s : State)
  | setscheduler (pid : ℤ) (found : Option ι) (policy : Policy) (param : Option (Option ℤ))
  | yield
  | forkBegin (child : ι)
  | forkEnd (child : ι) (mm : ℕ)
  | tick (ticks : ℕ)
  | setPriority (p : ι) (niceval : ℤ)
  | nice (increment : ℤ)
  /-- `init_task` enters its endless loop. -/
  | idled

variable {ι : Type*} [DecidableEq ι]

/-- When a step can be made.  `init_task` makes no system call, and forks only before it idles. -/
def enabled (w : World ι) : Op ι → Bool
  | .wake p => p.all w.linked
  | .weigh => match w.phase with
    | .weighing (some _) _ _ => true
    | _ => false
  | .advance => match w.phase with
    | .advancing _ _ _ => true
    | _ => false
  | .switchTo => match w.phase with
    | .weighing none _ _ => true
    | _ => false
  | .schedule _ | .tick _ => w.phase = .running
  | .setState _ | .yield | .nice _ => w.phase = .running ∧ w.current ≠ none
  | .setscheduler _ found _ _ => w.phase = .running ∧ w.current ≠ none ∧ found.all w.linked
  | .setPriority p _ => w.phase = .running ∧ w.current ≠ none ∧ w.linked p
  | .forkBegin child => w.phase = .running ∧ w.linked child = false ∧ w.unborn child = none ∧
      (w.current = none → w.idling = false)
  | .forkEnd child _ => w.phase = .running ∧ w.unborn child = some w.current ∧
      (w.current = none → w.idling = false)
  | .idled => w.phase = .running ∧ w.current = none

def effect (w : World ι) : Op ι → Option (World ι)
  | .wake p => w.wakeUpProcess p
  | .schedule signalPending => w.schedule signalPending
  | .weigh => match w.phase with
    | .weighing (some p) c next => some (w.weigh p c next)
    | _ => none
  | .advance => match w.phase with
    | .advancing p c next => w.advance p c next
    | _ => none
  | .switchTo => match w.phase with
    | .weighing none c next => some (w.switchTo c next)
    | _ => none
  | .setState s => some (w.setTask w.current { w.task w.current with state := s })
  | .setscheduler pid found policy param => (w.setscheduler pid found policy param).map (·.2)
  | .yield => w.sysSchedYield
  | .forkBegin child => some (w.forkBegin child)
  | .forkEnd child mm => w.forkEnd child mm
  | .tick ticks => some (w.updateProcessTimes ticks)
  | .setPriority p niceval => some (w.setPriority p niceval)
  | .nice increment => some (w.sysNice increment)
  | .idled => some { w.setTask none { w.task none with priority := 0, counter := -100 } with idling := true }

def step (w : World ι) (op : Op ι) : Option (World ι) := if enabled w op then effect w op else none

end I370Linux.RunQueue
