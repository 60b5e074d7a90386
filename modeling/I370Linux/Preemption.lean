import I370Linux.Reschedule

/-! # Task switches

Tasks on one processor: the model of `schedule` and `wake_up_process` of `kernel/sched.c`, of the
interrupts that call `reschedule`, and of the way back from a system call.  A task has a stack of
activations: calls of `reschedule` on top of the code that was interrupted, and calls of `schedule` by
its own kernel code.  The statements of an activation are those of `Cpu.run`, on the view of the
processor that the task has (`Sys.cpu`).  Profiling, the accounting of times and `tq_scheduler` are left
out.

`reschedule` calls `schedule` for a frame in supervisor state just as for one in problem state.  So
kernel code is preempted unless `need_resched` is clear whenever it is tested for such a frame
(`not_preempted`). -/

namespace I370Linux.Preemption

open Runs Reschedule

inductive TaskState where
  | running
  | interruptible
  | uninterruptible
  | zombie
  | stopped
deriving DecidableEq, Repr

inductive Policy where
  | other
  | fifo
  | rr
deriving DecidableEq, Repr

/-- A call of `reschedule`, or of `schedule` by kernel code (`own`).  The frame in `tss.regs` is one of
user mode or not. -/
structure Activation where
  pc : Pc
  again : Bool
  userMode : Bool
  own : Bool
deriving DecidableEq, Repr

structure Task where
  state : TaskState
  policy : Policy
  /-- `SCHED_YIELD`. -/
  yield : Bool
  counter : ℤ
  priority : ℤ
  rtPriority : ℤ
  mm : ℕ
  pid : ℕ
  sigpending : Bool
  needResched : Bool
  inSlih : Bool
  /-- The code below the activations is that of the user. -/
  user : Bool
  stack : List Activation
deriving DecidableEq, Repr

/-- One processor with its tasks. -/
structure Sys (ι : Type) where
  current : ι
  /-- `init_task`. -/
  idle : ι
  /-- From `init_task.next_run` on. -/
  runqueue : List ι
  task : ι → Task
  bhMask : BitVec 32
  bhActive : BitVec 32
  bhCount : ℕ
  enabled : Bool
  lostTicks : ℕ
  /-- Ghost: a switch has taken place in the middle of interrupted kernel code. -/
  preempted : Bool

variable {ι : Type} [DecidableEq ι]

def Sys.setTask (s : Sys ι) (i : ι) (t : Task) : Sys ι := { s with task := Function.update s.task i t }

def Sys.cur (s : Sys ι) : Task := s.task s.current

/-! ### The scheduler -/

/-- `goodness`, apart from clearing `SCHED_YIELD`. -/
def goodness (p prev : Task) : ℤ :=
  if p.yield then 0
  else if p.policy ≠ .other then 1000 + p.rtPriority
  else if p.counter ≠ 0 then p.counter + (if p.mm = prev.mm then 1 else 0) + p.priority
  else p.counter

/-- The loop over the run queue, with the best goodness so far and its task. -/
def best (s : Sys ι) : ℤ × ι :=
  s.runqueue.foldl (fun b p =>
    let weight := goodness (s.task p) s.cur
    if b.1 < weight then (weight, p) else b) (-1000, s.idle)

/-- The choice of the next task: `SCHED_YIELD` is cleared on the run queue, and the counters are
calculated anew if the best one is 0. -/
def choose (s : Sys ι) : Sys ι :=
  let (c, _) := best s
  { s with task := fun p =>
      let t := s.task p
      let t := if p ∈ s.runqueue then { t with yield := false } else t
      if c = 0 then { t with counter := t.counter / 2 + t.priority } else t }

/-- A round-robin task whose time is used up goes to the end of the run queue. -/
def moveExhausted (s : Sys ι) : Sys ι :=
  let prev := s.cur
  if prev.counter = 0 ∧ prev.policy = .rr ∧ prev.yield = false then
    { s.setTask s.current { prev with counter := prev.priority } with
      runqueue := s.runqueue.erase s.current ++ [s.current] }
  else s

/-- What `schedule` does with the task that calls it, with the run queue locked. -/
def retire (s : Sys ι) : Sys ι :=
  let s := moveExhausted s
  let sleep := { s with runqueue := s.runqueue.erase s.current }
  match s.cur.state with
  | .running => s
  | .interruptible =>
    if s.cur.sigpending then s.setTask s.current { s.cur with state := .running } else sleep
  | _ => sleep

/-- `wake_up_process`, with `reschedule_idle`. -/
def wakeUpProcess (s : Sys ι) (p : ι) : Sys ι :=
  let s := s.setTask p { s.task p with state := .running }
  if p ∈ s.runqueue then s
  else
    let s := { s with runqueue := p :: s.runqueue }
    if (s.task p).policy ≠ .other ∨ (s.task p).yield ∨ (s.task p).counter > s.cur.counter + 3 then
      s.setTask s.current { s.cur with needResched := true }
    else s

/-- `timer_bh`, with `update_process_times`. -/
def timerBh (s : Sys ι) : Sys ι :=
  let ticks : ℤ := s.lostTicks
  let s := { s with lostTicks := 0 }
  let t := s.cur
  if ticks = 0 ∨ t.pid = 0 then s
  else if t.counter - ticks < 0 then s.setTask s.current { t with counter := 0, needResched := true }
  else s.setTask s.current { t with counter := t.counter - ticks }

/-! ### Activations -/

def Sys.cpu (s : Sys ι) (a : Activation) : Cpu where
  inSlih := s.cur.inSlih
  needResched := s.cur.needResched
  sigpending := s.cur.sigpending
  userMode := a.userMode
  bhMask := s.bhMask
  bhActive := s.bhActive
  bhCount := s.bhCount
  again := a.again
  enabled := s.enabled
  pc := a.pc

def Sys.setCpu (s : Sys ι) (a : Activation) (rest : List Activation) (c : Cpu) : Sys ι :=
  { s.setTask s.current { s.cur with
      inSlih := c.inSlih
      needResched := c.needResched
      stack := { a with pc := c.pc, again := c.again } :: rest } with
    bhActive := c.bhActive
    bhCount := c.bhCount
    enabled := c.enabled }

def Sys.setStack (s : Sys ι) (stack : List Activation) : Sys ι :=
  s.setTask s.current { s.cur with stack := stack }

/-- `switch_to`: the task that is left goes on here when it is chosen again. -/
def switch (s : Sys ι) (a : Activation) (rest : List Activation) : Sys ι :=
  let next := (best s).2
  let s := choose s
  let s := s.setStack (if a.own then rest else { a with pc := .top, again := true } :: rest)
  { s with
    current := next
    preempted := s.preempted || (decide (next ≠ s.current) && !a.own && !a.userMode) }

/-- The end of an exception: back to the code that was interrupted, which had interrupts enabled. -/
def leave (s : Sys ι) (a : Activation) (rest : List Activation) : Sys ι :=
  { s.setTask s.current { s.cur with stack := rest, user := s.cur.user || a.userMode } with
    enabled := true }

def runTop (s : Sys ι) (a : Activation) (rest : List Activation) : Option (Sys ι) :=
  match a.pc with
  | .returned => some (leave s a rest)
  | .schedSwitch => some (switch s a rest)
  | .schedClear => (s.cpu a).run.map fun c => retire (s.setCpu a rest c)
  | .handlers _ active nr =>
    let s := if nr = 0 ∧ active &&& 1 ≠ 0 then timerBh s else s
    (s.cpu a).run.map (s.setCpu a rest)
  | _ => (s.cpu a).run.map (s.setCpu a rest)

/-- The end of the first level of an interrupt: `reschedule` is called, and returns at once if `in_slih`
is set. -/
def callReschedule (s : Sys ι) : Sys ι :=
  if s.cur.inSlih then s
  else
    { s.setStack (⟨.entry, false, s.cur.user && s.cur.stack.isEmpty, false⟩ :: s.cur.stack) with
      enabled := false }

inductive Event (ι : Type) where
  /-- The next statement of an activation. -/
  | run
  /-- `InputOutputException`: the handlers mark bottom halves and wake tasks. -/
  | io (marks : BitVec 32) (wakes : List ι)
  /-- The clock comparator: `ei_time_slice`. -/
  | clock
  /-- A handler of a bottom half marks bottom halves and wakes tasks. -/
  | bottomHalf (marks : BitVec 32) (wakes : List ι)
  /-- A system call. -/
  | svc
  /-- `ret_from_syscall`. -/
  | sysret
  /-- Kernel code sets `current->state`, wakes a task, or calls `schedule`. -/
  | setState (st : TaskState)
  | wake (p : ι)
  | callSchedule
  | signal (p : ι) (pending : Bool)

def handle (s : Sys ι) (marks : BitVec 32) (wakes : List ι) : Sys ι :=
  wakes.foldl wakeUpProcess { s with bhActive := s.bhActive ||| marks }

def Sys.inKernel (s : Sys ι) : Bool := s.cur.stack.isEmpty && !s.cur.user

def Sys.inHandler (s : Sys ι) : Bool :=
  match s.cur.stack with
  | ⟨.handlers _ _ _, _, _, _⟩ :: _ => true
  | _ => false

def step (s : Sys ι) : Event ι → Option (Sys ι)
  | .run =>
    match s.cur.stack with
    | [] => none
    | a :: rest => runTop s a rest
  | .io marks wakes => if s.enabled then some (callReschedule (handle s marks wakes)) else none
  | .clock =>
    if s.enabled then some (callReschedule (handle { s with lostTicks := s.lostTicks + 1 } 1 []))
    else none
  | .bottomHalf marks wakes => if s.inHandler then some (handle s marks wakes) else none
  | .svc =>
    if s.cur.stack.isEmpty && s.cur.user then some (s.setTask s.current { s.cur with user := false })
    else none
  | .sysret => if s.inKernel then some (s.setStack [⟨.entry, false, true, false⟩]) else none
  | .setState st => if s.inKernel then some (s.setTask s.current { s.cur with state := st }) else none
  | .wake p => if s.inKernel then some (wakeUpProcess s p) else none
  | .callSchedule => if s.inKernel then some (s.setStack [⟨.schedule, false, false, true⟩]) else none
  | .signal p pending => some (s.setTask p { s.task p with sigpending := pending })

/-! ### Kernel code is not preempted -/

/-- The activation is in `schedule`. -/
def inSched : Pc → Bool
  | .trylock .sched | .getActive .sched | .clearActive .sched _ | .handlers .sched _ _
  | .endlock .sched | .schedule | .schedTestBh | .schedClear | .schedSwitch => true
  | _ => false

theorem inSched_run {c d : Cpu} (h : c.run = some d) (hd : inSched d.pc = true) :
    inSched c.pc = true ∨ c.pc = .testResched ∧ c.needResched = true := by
  rcases c with ⟨slih, need, sig, user, mask, active, count, again, enabled, pc⟩
  cases pc with
  | trylock c | getActive c | clearActive c act | handlers c act nr | endlock c =>
    cases c with
    | sched => exact .inl rfl
    | loop =>
      cases h
      revert hd
      first | split_ifs <;> exact nofun | exact nofun
  | testResched =>
    cases h
    rcases need with _ | _
    · rcases user with _ | _ <;> cases hd
    · exact .inr ⟨rfl, rfl⟩
  | schedule | schedTestBh | schedClear | schedSwitch => exact .inl rfl
  | entry | top | testBh =>
    cases h
    revert hd
    split_ifs <;> exact nofun
  | testSig | cli =>
    cases h
    cases hd
  | returned | crashed => cases h

/-- No kernel code was preempted, and no call of `schedule` is under way that would do so. -/
structure Steady (s : Sys ι) : Prop where
  preempted : s.preempted = false
  frames : ∀ i, ∀ a ∈ (s.task i).stack, inSched a.pc = true → a.own = true ∨ a.userMode = true

structure SameStacks (s t : Sys ι) : Prop where
  stack : ∀ i, (t.task i).stack = (s.task i).stack
  preempted : t.preempted = s.preempted
  current : t.current = s.current

namespace SameStacks

variable {s t u : Sys ι}

omit [DecidableEq ι] in
theorem trans (h : SameStacks s t) (h' : SameStacks t u) : SameStacks s u :=
  ⟨fun i => (h'.stack i).trans (h.stack i), h'.preempted.trans h.preempted, h'.current.trans h.current⟩

omit [DecidableEq ι] in
theorem steady (h : SameStacks s t) (hs : Steady s) : Steady t :=
  ⟨h.preempted.trans hs.preempted, fun i a ha => hs.frames i a (h.stack i ▸ ha)⟩

theorem setTask (i : ι) {x : Task} (h : x.stack = (s.task i).stack) : SameStacks s (s.setTask i x) := by
  refine ⟨fun j => ?_, rfl, rfl⟩
  change (Function.update s.task i x j).stack = (s.task j).stack
  obtain rfl | hj := eq_or_ne j i
  · rw [Function.update_self, h]
  · rw [Function.update_of_ne hj]

theorem wakeUpProcess (s : Sys ι) (p : ι) : SameStacks s (wakeUpProcess s p) := by
  rw [Preemption.wakeUpProcess]
  have h1 : SameStacks s (s.setTask p { s.task p with state := .running }) := .setTask p rfl
  dsimp only
  split_ifs
  · exact h1
  · refine (h1.trans ?_).trans (.setTask _ rfl)
    exact ⟨fun _ => rfl, rfl, rfl⟩
  · exact ⟨h1.stack, rfl, rfl⟩

theorem handle (s : Sys ι) (marks : BitVec 32) (wakes : List ι) : SameStacks s (handle s marks wakes) := by
  have hfold : ∀ (l : List ι) (u : Sys ι), SameStacks u (l.foldl Preemption.wakeUpProcess u) := by
    intro l
    induction l with
    | nil => exact fun u => ⟨fun _ => rfl, rfl, rfl⟩
    | cons p l ih => exact fun u => (wakeUpProcess u p).trans (ih _)
  have hmark : SameStacks s { s with bhActive := s.bhActive ||| marks } := ⟨fun _ => rfl, rfl, rfl⟩
  exact hmark.trans (hfold wakes _)

theorem timerBh (s : Sys ι) : SameStacks s (timerBh s) := by
  rw [Preemption.timerBh]
  have h0 : SameStacks s { s with lostTicks := 0 } := ⟨fun _ => rfl, rfl, rfl⟩
  split_ifs
  · exact h0
  · exact h0.trans (.setTask _ rfl)
  · exact h0.trans (.setTask _ rfl)

theorem retire (s : Sys ι) : SameStacks s (retire s) := by
  have hmove : SameStacks s (moveExhausted s) := by
    rw [moveExhausted]
    split_ifs
    · have hset : SameStacks s (s.setTask s.current { s.cur with counter := s.cur.priority }) :=
        .setTask _ rfl
      exact ⟨hset.stack, rfl, rfl⟩
    · exact ⟨fun _ => rfl, rfl, rfl⟩
  refine hmove.trans ?_
  rw [Preemption.retire]
  split
  · exact ⟨fun _ => rfl, rfl, rfl⟩
  · split_ifs
    · exact .setTask _ rfl
    · exact ⟨fun _ => rfl, rfl, rfl⟩
  · exact ⟨fun _ => rfl, rfl, rfl⟩

theorem choose (s : Sys ι) : SameStacks s (choose s) := by
  refine ⟨fun i => ?_, rfl, rfl⟩
  rw [Preemption.choose]
  dsimp only
  split_ifs <;> rfl

end SameStacks

/-- The frame of the activation is one of kernel code that was interrupted. -/
def Activation.kernel (a : Activation) : Bool := !a.own && !a.userMode

/-- `need_resched` is clear when it is tested for a frame in supervisor state. -/
def undisturbed (s : Sys ι) : Event ι → Bool
  | .run =>
    match s.cur.stack with
    | a :: _ => !(a.pc = .testResched && a.kernel && s.cur.needResched)
    | [] => true
  | _ => true

section Steady

variable {s t : Sys ι}

theorem Steady.setStack (h : Steady s) {x : Task}
    (hx : ∀ a ∈ x.stack, inSched a.pc = true → a.own = true ∨ a.userMode = true) :
    Steady (s.setTask s.current x) := by
  refine ⟨h.preempted, fun i a ha => ?_⟩
  change a ∈ (Function.update s.task s.current x i).stack at ha
  obtain rfl | hi := eq_or_ne i s.current
  · rw [Function.update_self] at ha
    exact hx a ha
  · rw [Function.update_of_ne hi] at ha
    exact h.frames i a ha

omit [DecidableEq ι] in
theorem Steady.congr {u : Sys ι} (h : Steady t) (htask : u.task = t.task)
    (hp : u.preempted = t.preempted) : Steady u :=
  ⟨hp.trans h.preempted, fun i a ha => h.frames i a (htask ▸ ha)⟩

variable {a : Activation} {rest : List Activation}

section

variable (h : Steady s) (hstack : s.cur.stack = a :: rest)
include h hstack

theorem Steady.setCpu {c : Cpu} (hrun : (s.cpu a).run = some c)
    (hc : a.pc = .testResched → a.kernel = true → s.cur.needResched = false) :
    Steady (s.setCpu a rest c) := by
  refine Steady.congr (t := s.setTask s.current _) (h.setStack fun b hb hsched => ?_) rfl rfl
  obtain rfl | hb := List.mem_cons.mp hb
  · obtain hin | ⟨hpc, hneed⟩ := inSched_run hrun hsched
    · exact h.frames s.current a (hstack ▸ List.mem_cons_self) hin
    have hk : a.kernel = false := by
      by_contra hk
      have hneed : s.cur.needResched = true := hneed
      rw [hc hpc (Bool.eq_true_of_not_eq_false hk)] at hneed
      cases hneed
    rw [Activation.kernel] at hk
    rcases ho : a.own with _ | _
    · rw [ho] at hk
      exact .inr (by simpa using hk)
    · exact .inl rfl
  · exact h.frames s.current b (hstack ▸ List.mem_cons_of_mem _ hb) hsched

/-- A switch is by the own code of the task, or on the way back to the user. -/
theorem Steady.switch (hpc : a.pc = .schedSwitch) : Steady (switch s a rest) := by
  have ha := h.frames s.current a (hstack ▸ List.mem_cons_self) (by rw [hpc]; rfl)
  have hc := (SameStacks.choose s).steady h
  have hset : Steady ((choose s).setStack
      (if a.own then rest else { a with pc := .top, again := true } :: rest)) := by
    refine hc.setStack fun b hb hsched => ?_
    have hmem : b ∈ rest := by
      split_ifs at hb
      · exact hb
      · obtain rfl | hb := List.mem_cons.mp hb
        · cases hsched
        · exact hb
    exact h.frames s.current b (hstack ▸ List.mem_cons_of_mem _ hmem) hsched
  refine ⟨?_, hset.frames⟩
  change (s.preempted || (_ && !a.own && !a.userMode)) = false
  rw [h.preempted, Bool.false_or, Bool.and_assoc]
  rcases ha with ha | ha <;> simp [ha]

theorem Steady.leave : Steady (leave s a rest) :=
  Steady.congr (t := s.setTask s.current _)
    (h.setStack fun b hb => h.frames s.current b (hstack ▸ List.mem_cons_of_mem _ hb)) rfl rfl

theorem Steady.runTop (hrun : runTop s a rest = some t)
    (hc : a.pc = .testResched → a.kernel = true → s.cur.needResched = false) : Steady t := by
  rw [Preemption.runTop] at hrun
  split at hrun
  · cases hrun
    exact h.leave hstack
  · next hpc =>
    cases hrun
    exact h.switch hstack hpc
  · obtain ⟨c, hcpu, rfl⟩ := Option.map_eq_some_iff.mp hrun
    exact (SameStacks.retire _).steady (h.setCpu hstack hcpu hc)
  · next c active nr hpc =>
    have htimer : SameStacks s (if nr = 0 ∧ active &&& 1 ≠ 0 then timerBh s else s) := by
      split_ifs
      · exact .timerBh s
      · exact ⟨fun _ => rfl, rfl, rfl⟩
    obtain ⟨d, hcpu, rfl⟩ := Option.map_eq_some_iff.mp hrun
    refine (htimer.steady h).setCpu ?_ hcpu fun htest => absurd (hpc.symm.trans htest) nofun
    rw [Sys.cur, htimer.current, htimer.stack]
    exact hstack
  · obtain ⟨c, hcpu, rfl⟩ := Option.map_eq_some_iff.mp hrun
    exact h.setCpu hstack hcpu hc

end

theorem Steady.callReschedule (h : Steady s) : Steady (callReschedule s) := by
  rw [Preemption.callReschedule]
  split_ifs
  · exact h
  · refine Steady.congr (t := s.setStack _) (h.setStack fun b hb hsched => ?_) rfl rfl
    obtain rfl | hb := List.mem_cons.mp hb
    · cases hsched
    · exact h.frames s.current b hb hsched

theorem Steady.step (h : Steady s) {e : Event ι} (hc : undisturbed s e = true)
    (hs : step s e = some t) : Steady t := by
  cases e with
  | run =>
    rw [Preemption.step] at hs
    split at hs
    · cases hs
    · next a rest hstack =>
      refine h.runTop hstack hs fun hpc hk => ?_
      rw [undisturbed, hstack] at hc
      simpa [hpc, hk] using hc
  | io marks wakes =>
    obtain ⟨-, rfl⟩ := of_guard hs
    exact ((SameStacks.handle s marks wakes).steady h).callReschedule
  | clock =>
    obtain ⟨-, rfl⟩ := of_guard hs
    have htick : Steady { s with lostTicks := s.lostTicks + 1 } := h.congr rfl rfl
    exact ((SameStacks.handle _ 1 []).steady htick).callReschedule
  | bottomHalf marks wakes =>
    obtain ⟨-, rfl⟩ := of_guard hs
    exact (SameStacks.handle s marks wakes).steady h
  | svc | setState st =>
    obtain ⟨-, rfl⟩ := of_guard hs
    exact h.setStack (h.frames s.current)
  | sysret =>
    obtain ⟨-, rfl⟩ := of_guard hs
    refine h.setStack fun b hb hsched => ?_
    obtain rfl := List.mem_singleton.mp hb
    cases hsched
  | wake p =>
    obtain ⟨-, rfl⟩ := of_guard hs
    exact (SameStacks.wakeUpProcess s p).steady h
  | callSchedule =>
    obtain ⟨-, rfl⟩ := of_guard hs
    refine h.setStack fun b hb _ => ?_
    obtain rfl := List.mem_singleton.mp hb
    exact .inl rfl
  | signal p pending =>
    cases hs
    have hset : SameStacks s (s.setTask p { s.task p with sigpending := pending }) := .setTask p rfl
    exact hset.steady h

end Steady

/-- No task is in `reschedule` or `schedule`. -/
def Start (s : Sys ι) : Prop := s.preempted = false ∧ ∀ i, (s.task i).stack = []

/-- **Kernel code is not preempted** in a run in which `need_resched` is clear whenever `reschedule`
tests it for a frame in supervisor state. -/
theorem not_preempted {s₀ s : Sys ι} (h₀ : Start s₀)
    (h : ReachesBy step (fun s e => undisturbed s e = true) s₀ s) : s.preempted = false := by
  have hstart : Steady s₀ := ⟨h₀.1, fun i a ha => absurd (h₀.2 i ▸ ha) List.not_mem_nil⟩
  exact (h.invariant hstart fun _ _ _ hi hc hs => hi.step hc hs).preempted

/-- Two tasks and the idle one; the first task runs, in user mode or in the kernel, at the end of its
time slice. -/
def twoTasks (user : Bool) : Sys (Fin 3) where
  current := 1
  idle := 0
  runqueue := [1, 2]
  task := fun i =>
    ⟨.running, .other, false, if i = 2 then 10 else 0, 20, 0, i, i, false, false, false,
      user && i = 1, []⟩
  bhMask := 1
  bhActive := 0
  bhCount := 0
  enabled := true
  lostTicks := 0
  preempted := false

/-- A tick of the clock in user mode: the switch is on the way back to the user. -/
theorem not_preempted_user : ∃ t : Sys (Fin 3),
    ReachesBy step (fun s e => undisturbed s e = true) (twoTasks true) t ∧ t.current = 2 ∧
      t.preempted = false :=
  (ReachesBy.exists_of_exec (P := (·.current = 2)) (.clock :: List.replicate 13 .run) (by decide +kernel)).imp
    fun _ ⟨hrun, hcur⟩ => ⟨hrun, hcur, not_preempted ⟨rfl, fun _ => rfl⟩ hrun⟩

/-- A tick of the clock in kernel mode: the task is switched away from in the middle of its code. -/
theorem kernel_preempted : Start (twoTasks false) ∧ (twoTasks false).inKernel = true ∧
    ∃ t : Sys (Fin 3), Reaches step (twoTasks false) t ∧ t.current = 2 ∧ t.preempted = true ∧
      (t.task 1).stack = [⟨.top, true, false, false⟩] :=
  ⟨⟨rfl, fun _ => rfl⟩, rfl, Reaches.exists_of_exec (.clock :: List.replicate 13 .run) (by decide +kernel)⟩

end I370Linux.Preemption
