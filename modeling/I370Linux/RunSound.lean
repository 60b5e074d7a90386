import I370Linux.RunQueue

/-! # The run queue is sound

`Sound` is the state of the run queue: the ring holds a list of tasks, which are the linked tasks with
link fields that are not null and include every task that is running, and `nr_running` is its length.
Every step that can be made keeps it and follows no null pointer (`sound_effect`). -/

namespace I370Linux.RunQueue

open Runs Links Run Function

variable {ι : Type*}

/-! ### Goodness -/

/-- The parameters of a task: the policies that the calls set, the priorities and the time slices. -/
structure Task.Fair (t : Task) : Prop where
  policy : t.policy = SCHED_OTHER ∨ t.policy = SCHED_YIELD ∨ t.policy = SCHED_FIFO ∨ t.policy = SCHED_RR
  rtPriority : t.policy = SCHED_FIFO ∨ t.policy = SCHED_RR → 1 ≤ t.rtPriority
  counter : 0 ≤ t.counter ∧ t.counter ≤ 4 * DEF_PRIORITY
  priority : 0 ≤ t.priority ∧ t.priority ≤ 2 * DEF_PRIORITY

def Task.Realtime (t : Task) : Prop := t.policy = SCHED_FIFO ∨ t.policy = SCHED_RR

/-- What `goodness` reads of a task. -/
def Task.params (t : Task) : Policy × ℤ × ℤ × ℤ × ℕ := (t.policy, t.rtPriority, t.counter, t.priority, t.mm)

variable {t t' prev prev' : Task}

theorem Task.params_iff : t'.params = t.params ↔ t'.policy = t.policy ∧ t'.rtPriority = t.rtPriority ∧
    t'.counter = t.counter ∧ t'.priority = t.priority ∧ t'.mm = t.mm := by
  simp [Task.params]

theorem Task.Fair.of_params (hf : t.Fair) (h : t'.params = t.params) : t'.Fair := by
  obtain ⟨hpol, hrt, hc, hpr, -⟩ := Task.params_iff.mp h
  constructor
  · rw [hpol]
    exact hf.policy
  · rw [hpol, hrt]
    exact hf.rtPriority
  · rw [hc]
    exact hf.counter
  · rw [hpr]
    exact hf.priority

theorem goodness_congr (h : t'.params = t.params) (hm : prev'.mm = prev.mm) :
    (goodness t' prev').1 = (goodness t prev).1 := by
  obtain ⟨hpol, hrt, hc, hp, hmm⟩ := Task.params_iff.mp h
  unfold goodness
  rw [hpol, hrt, hc, hp, hmm, hm]
  split_ifs <;> rfl

theorem goodness_state (t prev : Task) : (goodness t prev).2.state = t.state := by
  unfold goodness
  split_ifs <;> rfl

theorem Task.Fair.goodness (h : t.Fair) (prev : Task) : (goodness t prev).2.Fair := by
  unfold RunQueue.goodness
  split
  case isTrue hy =>
    have hyield : t.policy = SCHED_YIELD := by
      obtain h0 | h0 | h0 | h0 := h.policy
      · exact absurd (by rw [h0]; decide) hy
      · exact h0
      · exact absurd (by rw [h0]; decide) hy
      · exact absurd (by rw [h0]; decide) hy
    refine ⟨.inl ?_, fun hrt => ?_, h.counter, h.priority⟩
    · dsimp only
      rw [hyield]
      decide
    · dsimp only at hrt
      rw [hyield] at hrt
      exact absurd hrt (by decide)
  case isFalse => split_ifs <;> exact h

theorem Task.Fair.goodness_lt (h : t.Fair) (hrt : ¬ t.Realtime) (prev : Task) :
    0 ≤ (RunQueue.goodness t prev).1 ∧ (RunQueue.goodness t prev).1 < 1000 := by
  obtain ⟨hc, hc'⟩ := h.counter
  obtain ⟨hp, hp'⟩ := h.priority
  have hdef : DEF_PRIORITY = 20 := rfl
  unfold RunQueue.goodness
  split
  case isTrue => simp
  case isFalse hy =>
    have hother : t.policy = SCHED_OTHER := by
      obtain h0 | h0 | h0 := h.policy
      · exact h0
      · rw [h0] at hy
        exact absurd (by decide) hy
      · exact absurd h0 hrt
    rw [if_neg (not_not.mpr hother)]
    split
    · split_ifs <;> omega
    · omega

theorem Task.Fair.goodness_realtime (h : t.Fair) (hrt : t.Realtime) (prev : Task) :
    1000 < (RunQueue.goodness t prev).1 := by
  have hpos := h.rtPriority hrt
  have hyield : ¬ (t.policy &&& SCHED_YIELD ≠ 0) := by
    obtain h0 | h0 := hrt <;> rw [h0] <;> decide
  have hother : t.policy ≠ SCHED_OTHER := by
    obtain h0 | h0 := hrt <;> rw [h0] <;> decide
  unfold RunQueue.goodness
  rw [if_neg hyield, if_pos hother]
  omega

theorem Task.Fair.goodness_nonneg (h : t.Fair) (prev : Task) : 0 ≤ (RunQueue.goodness t prev).1 := by
  by_cases hrt : t.Realtime
  · have hlt := h.goodness_realtime hrt prev
    omega
  · exact (h.goodness_lt hrt prev).1

/-! ### The queue -/

namespace World

/-- The queue `l` and the tasks. -/
structure Queue (w : World ι) (l : List ι) : Prop where
  holds : w.run.Holds {t | w.linked t = true} l
  count : w.nrRunning = l.length
  runnable : ∀ t, w.linked t = true → (w.task (some t)).state = .running → t ∈ l
  unborn : ∀ t, w.unborn t ≠ none → w.linked t = false
  fair : ∀ t, w.linked t = true ∨ w.unborn t ≠ none → (w.task (some t)).Fair
  idle : (w.task none).state = .running ∧ (w.task none).policy = SCHED_OTHER
  idle_fair : w.idling = false → (w.task none).Fair

/-- What holds of the current task or of the search.  The current task may have set its state and still
be on the queue. -/
def Busy (w : World ι) (l : List ι) : Prop :=
  match w.phase with
  | .running => (∀ t ∈ l, (w.task (some t)).state = .running ∨ w.current = some t) ∧
      Within {t | t ∈ l} w.current
  | .weighing p _ next => (∀ t ∈ l, (w.task (some t)).state = .running) ∧
      Within {t | t ∈ l} p ∧ Within {t | t ∈ l} next
  | .advancing p _ next => (∀ t ∈ l, (w.task (some t)).state = .running) ∧
      p ∈ l ∧ Within {t | t ∈ l} next

/-- The invariant of the run queue. -/
structure Sound (w : World ι) (l : List ι) : Prop where
  queue : w.Queue l
  busy : w.Busy l

variable {w w' : World ι} {l : List ι}

theorem Sound.running (h : w.Sound l) (hp : w.phase = .running) :
    (∀ t ∈ l, (w.task (some t)).state = .running ∨ w.current = some t) ∧ Within {t | t ∈ l} w.current := by
  have hb := h.busy
  unfold Busy at hb
  rw [hp] at hb
  exact hb

theorem busy_running (hp : w.phase = .running) (hr : ∀ t ∈ l, (w.task (some t)).state = .running ∨
    w.current = some t) (hc : Within {t | t ∈ l} w.current) : w.Busy l := by
  unfold Busy
  rw [hp]
  exact ⟨hr, hc⟩

variable {l' : List ι} {run : Run ι} {next : Option ι} {c : ℤ} {a : ι}

theorem Busy.mono (h : w.Busy l) (hphase : w'.phase = w.phase)
    (hcur : w'.current = w.current) (hsub : ∀ t ∈ l, t ∈ l')
    (hstate : ∀ t ∈ l', (w'.task (some t)).state = .running ∨
      t ∈ l ∧ (w'.task (some t)).state = (w.task (some t)).state) : w'.Busy l' := by
  have hall : (∀ t ∈ l, (w.task (some t)).state = .running) →
      ∀ t ∈ l', (w'.task (some t)).state = .running := by
    intro hr t ht
    obtain hs | ⟨hl, hs⟩ := hstate t ht
    · exact hs
    · exact hs.trans (hr t hl)
  have hin : ∀ {q : Option ι}, Within {t | t ∈ l} q → Within {t | t ∈ l'} q := fun hq t ht => hsub t (hq t ht)
  unfold Busy at h ⊢
  rw [hphase]
  cases hp : w.phase with
  | running =>
    rw [hp] at h
    refine ⟨fun t ht => ?_, hcur ▸ hin h.2⟩
    obtain hs | ⟨hl, hs⟩ := hstate t ht
    · exact .inl hs
    · rw [hs, hcur]
      exact h.1 t hl
  | weighing p c next =>
    rw [hp] at h
    exact ⟨hall h.1, hin h.2.1, hin h.2.2⟩
  | advancing p c next =>
    rw [hp] at h
    exact ⟨hall h.1, hsub p h.2.1, hin h.2.2⟩

theorem Queue.setRun {n : ℤ} (h : w.Queue l)
    (hrun : run.Holds {t | w.linked t = true} l') (hn : n = l'.length)
    (hmem : ∀ t ∈ l, w.linked t = true → (w.task (some t)).state = .running → t ∈ l') :
    { w with run := run, nrRunning := n }.Queue l' :=
  { h with holds := hrun, count := hn, runnable := fun t hl ht => hmem t (h.runnable t hl ht) hl ht }

theorem Queue.setPhase (h : w.Queue l) (current : Option ι) (phase : Phase ι) :
    { w with current := current, phase := phase }.Queue l :=
  { h with }

theorem Sound.reorder (h : w.Sound l)
    (hrun : run.Holds {t | w.linked t = true} l') (hperm : l'.Perm l) : { w with run := run }.Sound l' := by
  refine ⟨h.queue.setRun hrun ?_ fun t ht _ _ => hperm.mem_iff.mpr ht,
    h.busy.mono rfl rfl (fun t => hperm.mem_iff.mpr) fun t ht => .inr ⟨hperm.mem_iff.mp ht, rfl⟩⟩
  rw [hperm.length_eq]
  exact h.queue.count

theorem Sound.weighing (h : w.Sound l) {q : Option ι} (hp : w.phase = .weighing q c next) :
    (∀ t ∈ l, (w.task (some t)).state = .running) ∧ Within {t | t ∈ l} q ∧ Within {t | t ∈ l} next := by
  have hb := h.busy
  unfold Busy at hb
  rw [hp] at hb
  exact hb

theorem Sound.advancing (h : w.Sound l) (hp : w.phase = .advancing a c next) :
    (∀ t ∈ l, (w.task (some t)).state = .running) ∧ a ∈ l ∧ Within {t | t ∈ l} next := by
  have hb := h.busy
  unfold Busy at hb
  rw [hp] at hb
  exact hb

theorem state_recalculate (w : World ι) (q : Option ι) : (w.recalculate.task q).state = (w.task q).state := by
  unfold World.recalculate
  cases q with
  | none => rfl
  | some t =>
    dsimp only
    split <;> rfl

theorem Queue.recalculate (h : w.Queue l) : w.recalculate.Queue l := by
  refine { h with runnable := fun t hl ht => ?_, fair := fun t ht => ?_ }
  · rw [state_recalculate] at ht
    exact h.runnable t hl ht
  have hf := h.fair t ht
  obtain ⟨hc, hc'⟩ := hf.counter
  obtain ⟨hp, hp'⟩ := hf.priority
  unfold World.recalculate
  dsimp only
  split
  · refine ⟨hf.policy, hf.rtPriority, ?_, hf.priority⟩
    dsimp only
    omega
  · exact hf

theorem Sound.advance {l₁ l₂ : List ι} (h : w.Sound (l₁ ++ a :: l₂)) (hp : w.phase = .advancing a c next) :
    w.advance a c next = some { w with phase := .weighing l₂.head? c next } ∧
      { w with phase := .weighing l₂.head? c next }.Sound (l₁ ++ a :: l₂) := by
  obtain ⟨hrun, ha, hnext⟩ := h.advancing hp
  have heq : w.run.next (some a) = some l₂.head? := by
    rw [h.queue.holds.next_eq (within_some.mpr ha), h.queue.holds.ring.next_some]
  refine ⟨?_, h.queue.setPhase w.current (.weighing l₂.head? c next), hrun, fun t ht => ?_, hnext⟩
  · unfold World.advance
    rw [heq]
    rfl
  · exact List.mem_append_right l₁ (List.mem_cons_of_mem a (List.mem_of_head? ht))

theorem Sound.switchTo (h : w.Sound l) (hp : w.phase = .weighing none c next) :
    (w.switchTo c next).Sound l := by
  obtain ⟨hrun, -, hnext⟩ := h.weighing hp
  have hqueue : (if c = 0 then w.recalculate else w).Queue l := by
    split
    · exact h.queue.recalculate
    · exact h.queue
  refine ⟨hqueue.setPhase next .running, fun t ht => .inl ?_, hnext⟩
  unfold World.switchTo
  split
  · rw [state_recalculate]
    exact hrun t ht
  · exact hrun t ht

theorem Sound.current_fair (h : w.Sound l) (hp : w.phase = .running)
    (hi : w.current = none → w.idling = false) : (w.task w.current).Fair := by
  cases hc : w.current with
  | none => exact h.queue.idle_fair (hi hc)
  | some a => exact h.queue.fair a (.inl (h.queue.holds.mem a ((h.running hp).2 a hc)))

section Edit

variable [DecidableEq ι] {p : Option ι}

theorem task_setTask_self (w : World ι) (p : Option ι) (t : Task) : (w.setTask p t).task p = t :=
  update_self ..

theorem task_setTask_of_ne {q : Option ι} (h : q ≠ p) (w : World ι) (t : Task) :
    (w.setTask p t).task q = w.task q := update_of_ne h ..

variable {n : ℤ} {child : ι}

section

variable (hrun : run.Holds {t | w.linked t = true} l') (hn : n = l'.length) (hsub : ∀ a ∈ l, a ∈ l')
  (hmem : ∀ a, some a = p → w.linked a = true → t.state = .running → a ∈ l')
  (hfair : (p = none → w.idling = false) → (w.task p).Fair → t.Fair)
  (hnone : p = none → t.state = .running ∧ t.policy = SCHED_OTHER)
include hrun hn hsub hmem hfair hnone

/-- **The record of a task and the ring change.**  A task of which the state becomes `TASK_RUNNING` is on the
queue. -/
theorem Queue.edit (h : w.Queue l) : { w.setTask p t with run := run, nrRunning := n }.Queue l' := by
  have hkeep : ∀ q, (q = none → w.idling = false) → (w.task q).Fair → ((w.setTask p t).task q).Fair :=
    (Function.forall_update_iff w.task fun q s => (q = none → w.idling = false) → (w.task q).Fair → s.Fair).mpr
      ⟨hfair, fun q _ _ => id⟩
  refine ⟨hrun, hn, fun a hl ha => ?_, h.unborn, fun a ha => hkeep _ nofun (h.fair a ha), ?_,
    fun hi => hkeep none (fun _ => hi) (h.idle_fair hi)⟩
  · by_cases hp : some a = p
    · subst hp
      exact hmem a rfl hl ((congrArg Task.state (task_setTask_self ..)).symm.trans ha)
    · exact hsub a (h.runnable a hl ((congrArg Task.state (task_setTask_of_ne hp w t)).symm.trans ha))
  · obtain rfl | hp := eq_or_ne none p
    · exact (task_setTask_self w none t).symm ▸ hnone rfl
    · exact (task_setTask_of_ne hp w t).symm ▸ h.idle

theorem Sound.edit (h : w.Sound l) (hnew : ∀ a ∈ l', a ∈ l ∨ some a = p ∧ t.state = .running)
    (hstate : ∀ a ∈ l, some a = p → t.state = .running ∨ t.state = (w.task p).state) :
    { w.setTask p t with run := run, nrRunning := n }.Sound l' := by
  refine ⟨h.queue.edit hrun hn hsub hmem hfair hnone, h.busy.mono rfl rfl hsub fun a ha => ?_⟩
  by_cases hp : some a = p
  · subst hp
    rw [task_setTask_self]
    obtain hl | ⟨-, hs⟩ := hnew a ha
    · exact (hstate a hl rfl).imp_right fun hs => ⟨hl, hs⟩
    · exact .inl hs
  · rw [task_setTask_of_ne hp]
    exact .inr ⟨(hnew a ha).resolve_right fun hs => hp hs.1, rfl⟩

end

theorem Sound.setTask (h : w.Sound l) (hstate : t.state = (w.task p).state)
    (hfair : (w.task p).Fair → t.Fair) (hnone : p = none → t.policy = SCHED_OTHER) :
    (w.setTask p t).Sound l := by
  refine h.edit h.queue.holds h.queue.count (fun _ => id) ?_ (fun _ => hfair) (fun hp => ⟨?_, hnone hp⟩)
    (fun _ => .inl) fun _ _ _ => .inr hstate
  · rintro a rfl hl ht
    exact h.queue.runnable a hl (hstate ▸ ht)
  · subst hp
    exact hstate.trans h.queue.idle.1

theorem Sound.setTask_of_params (h : w.Sound l) (hstate : t.state = (w.task p).state)
    (hparams : t.params = (w.task p).params) : (w.setTask p t).Sound l := by
  refine h.setTask hstate (fun hf => hf.of_params hparams) fun hp => ?_
  subst hp
  rw [(Task.params_iff.mp hparams).1]
  exact h.queue.idle.2

theorem Sound.setNeedResched (h : w.Sound l) (p : Option ι) (b : Bool) :
    (w.setTask p { w.task p with needResched := b }).Sound l := h.setTask_of_params rfl rfl

/-! ### Waking up -/

theorem params_rescheduleIdle (w : World ι) (p q : Option ι) :
    ((w.rescheduleIdle p).task q).params = (w.task q).params := by
  unfold rescheduleIdle
  split
  · obtain rfl | hq := eq_or_ne q w.current
    · rw [task_setTask_self]
      rfl
    · rw [task_setTask_of_ne hq]
  · rfl

theorem Sound.rescheduleIdle (h : w.Sound l) (p : Option ι) : (w.rescheduleIdle p).Sound l := by
  unfold World.rescheduleIdle
  split
  · exact h.setNeedResched w.current true
  · exact h

theorem phase_rescheduleIdle (w : World ι) (p : Option ι) :
    (w.rescheduleIdle p).phase = w.phase ∧ (w.rescheduleIdle p).current = w.current := by
  unfold rescheduleIdle
  split <;> exact ⟨rfl, rfl⟩

theorem Sound.setRunning (h : w.Sound l)
    (hrun : run.Holds {t | w.linked t = true} l') (hn : n = l'.length) (hsub : ∀ t ∈ l, t ∈ l')
    (hnew : ∀ t ∈ l', t ∈ l ∨ some t = p) (hp : Within {t | t ∈ l'} p) :
    { w.setTask p { w.task p with state := .running } with run := run, nrRunning := n }.Sound l' := by
  refine h.edit hrun hn hsub (fun a ha _ _ => hp a ha.symm) (fun _ hf => hf.of_params rfl) ?_
    (fun a ha => (hnew a ha).imp_right fun he => ⟨he, rfl⟩) fun _ _ _ => .inl rfl
  rintro rfl
  exact ⟨rfl, h.queue.idle.2⟩

/-- What a wake-up does: the task is on the queue, at the front if it was not there, and nothing that the
search of `schedule` reads changes. -/
structure Woken (w : World ι) (l : List ι) (w' : World ι) (l' : List ι) : Prop where
  sound : w'.Sound l'
  front : ∃ m, l' = m ++ l
  params : ∀ q, (w'.task q).params = (w.task q).params
  phase : w'.phase = w.phase
  current : w'.current = w.current

section

variable (h : w.Sound l)
include h

theorem Sound.wakeUpProcess (hp : ∀ t, p = some t → w.linked t = true) :
    ∃ w' l', w.wakeUpProcess p = some w' ∧ w.Woken l w' l' := by
  have hparams : ∀ q, ((w.setTask p { w.task p with state := .running }).task q).params =
      (w.task q).params := by
    intro q
    obtain rfl | hq := eq_or_ne q p
    · rw [task_setTask_self]
      rfl
    · rw [task_setTask_of_ne hq]
  have hiff := h.queue.holds.next_iff p hp
  by_cases hon : Within {t | t ∈ l} p
  · obtain ⟨v, hv⟩ := Option.isSome_iff_exists.mp (hiff.mpr hon)
    refine ⟨w.setTask p { w.task p with state := .running }, l, ?_,
      h.setRunning h.queue.holds h.queue.count (fun _ => id) (fun _ => .inl) hon, ⟨[], rfl⟩, hparams, rfl, rfl⟩
    simp only [World.wakeUpProcess, World.setTask, hv]
  · cases p with
    | none => exact absurd within_none hon
    | some a =>
      have ha : a ∉ l := fun ha => hon (within_some.mpr ha)
      have hnull : w.run.next (some a) = none := Option.not_isSome_iff_eq_none.mp fun hs => hon (hiff.mp hs)
      obtain ⟨run, hrun, hholds⟩ := h.queue.holds.addToRunqueue (hp a rfl) ha
      set v : World ι := { w.setTask (some a) { w.task (some a) with state := .running } with
        run := run
        nrRunning := w.nrRunning + 1 } with hv
      have hsound : v.Sound (a :: l) := by
        apply h.setRunning hholds
        · rw [List.length_cons, Nat.cast_add, Nat.cast_one, ← h.queue.count]
        · exact fun _ => List.mem_cons_of_mem a
        · intro t ht
          obtain rfl | ht := List.mem_cons.mp ht
          · exact .inr rfl
          · exact .inl ht
        · exact within_some.mpr List.mem_cons_self
      refine ⟨v.rescheduleIdle (some a), a :: l, ?_, hsound.rescheduleIdle _, ⟨[a], rfl⟩, fun q => ?_,
        (phase_rescheduleIdle v _).1, (phase_rescheduleIdle v _).2⟩
      · simp only [World.wakeUpProcess, World.setTask, hnull, hrun]
        rfl
      · rw [params_rescheduleIdle]
        exact hparams q

/-! ### `schedule` -/

theorem Sound.moveLast (ha : a ∈ l) :
    ∃ run l', w.run.moveLastRunqueue (some a) = some run ∧ { w with run := run }.Sound l' ∧ l'.Perm l := by
  obtain ⟨l₁, l₂, rfl⟩ := List.append_of_mem ha
  obtain ⟨run, hrun, hholds⟩ := h.queue.holds.moveLastRunqueue
  have hperm : (l₁ ++ l₂ ++ [a]).Perm (l₁ ++ a :: l₂) := by
    rw [List.append_assoc]
    have hswap : (l₂ ++ [a]).Perm ([a] ++ l₂) := List.perm_append_comm
    exact hswap.append_left l₁
  exact ⟨run, _, hrun, h.reorder hholds hperm, hperm⟩

theorem Sound.moveFirst (ha : a ∈ l) :
    ∃ run l', w.run.moveFirstRunqueue (some a) = some run ∧ { w with run := run }.Sound l' ∧ l'.Perm l := by
  obtain ⟨l₁, l₂, rfl⟩ := List.append_of_mem ha
  obtain ⟨run, hrun, hholds⟩ := h.queue.holds.moveFirstRunqueue
  have hperm : (a :: (l₁ ++ l₂)).Perm (l₁ ++ a :: l₂) := List.perm_middle.symm
  exact ⟨run, _, hrun, h.reorder hholds hperm, hperm⟩

section

variable (hp : w.phase = .running)
include hp

theorem Sound.refill : ∃ w' l', w.refill = some w' ∧ w'.Sound l' ∧ w'.phase = .running := by
  unfold World.refill
  dsimp only
  split
  case isTrue hrr =>
    obtain ⟨-, hcur⟩ := h.running hp
    cases hc : w.current with
    | none =>
      rw [hc, h.queue.idle.2] at hrr
      exact absurd hrr.2 (by decide)
    | some a =>
      rw [hc] at hcur
      have hset := h.setTask (p := some a)
        (t := { w.task (some a) with counter := (w.task (some a)).priority }) rfl
        (fun hf => ⟨hf.policy, hf.rtPriority, ⟨hf.priority.1, hf.priority.2.trans (by decide)⟩, hf.priority⟩)
        nofun
      obtain ⟨run, l', hrun, hsound, -⟩ := hset.moveLast (hcur a rfl)
      refine ⟨_, l', ?_, hsound, hp⟩
      change w.run.moveLastRunqueue (some a) = some run at hrun
      rw [hrun]
      rfl
  case isFalse => exact ⟨w, l, rfl, h, hp⟩

theorem Sound.dequeuePrev
    (hs : (w.task w.current).state ≠ .running) : ∃ w' l', w.dequeuePrev = some w' ∧ w'.Queue l' ∧
    ∀ t ∈ l', (w'.task (some t)).state = .running := by
  obtain ⟨hrun, hcur⟩ := h.running hp
  cases hc : w.current with
  | none =>
    rw [hc] at hs
    exact absurd h.queue.idle.1 hs
  | some a =>
    rw [hc] at hcur hs
    obtain ⟨l₁, l₂, rfl⟩ := List.append_of_mem (hcur a rfl)
    obtain ⟨run, hdel, hholds⟩ := h.queue.holds.delFromRunqueue
    refine ⟨{ w with run := run, nrRunning := w.nrRunning - 1 }, l₁ ++ l₂, ?_, ?_, fun t ht => ?_⟩
    · unfold World.dequeuePrev
      rw [hc, hdel]
      rfl
    · apply h.queue.setRun hholds
      · rw [h.queue.count, List.length_append, List.length_append, List.length_cons]
        omega
      · intro t ht _ hstate
        have hne : t ≠ a := by
          rintro rfl
          exact hs hstate
        rw [List.mem_append, List.mem_cons] at ht
        rw [List.mem_append]
        exact ht.imp_right (·.resolve_left hne)
    · obtain hr | hr := hrun t (mem_middle ht)
      · exact hr
      · rw [hc] at hr
        rw [← Option.some.inj hr] at ht
        exact absurd ht h.queue.holds.ring.notMem

theorem Sound.leave (signalPending : Bool) : ∃ w' l', w.leave signalPending = some w' ∧ w'.Queue l' ∧
    ∀ t ∈ l', (w'.task (some t)).state = .running := by
  obtain ⟨hrun, hcur⟩ := h.running hp
  -- the current task is running, and so are all tasks of the queue
  have hall : ∀ v : World ι, v.Sound l → v.phase = .running → (v.task v.current).state = .running →
      ∀ t ∈ l, (v.task (some t)).state = .running := by
    intro v hv hpv hs t ht
    obtain hr | hr := (hv.running hpv).1 t ht
    · exact hr
    · rw [hr] at hs
      exact hs
  unfold World.leave
  split
  case h_1 hs => exact ⟨w, l, rfl, h.queue, hall w h hp hs⟩
  case h_2 hs =>
    split
    case isTrue =>
      have hset := h.setRunning (p := w.current) h.queue.holds h.queue.count (fun _ => id)
        (fun _ => .inl) hcur
      refine ⟨_, l, rfl, hset.queue, hall _ hset hp ?_⟩
      exact congrArg Task.state (task_setTask_self ..)
    case isFalse =>
      apply h.dequeuePrev hp
      rw [hs]
      decide
  case h_3 hne _ => exact h.dequeuePrev hp hne

theorem Sound.schedule (signalPending : Bool) : ∃ w' l', w.schedule signalPending = some w' ∧ w'.Sound l' ∧
      w'.phase = .weighing l'.head? (-1000) none := by
  have hset := h.setNeedResched w.current false
  obtain ⟨w₁, l₁, hrefill, hsound, hphase⟩ := hset.refill hp
  obtain ⟨w₂, l₂, hleave, hqueue, hrun⟩ := hsound.leave hphase signalPending
  have hnext : w₂.run.next none = some l₂.head? := by
    rw [hqueue.holds.next_eq within_none, hqueue.holds.ring.next_none]
  refine ⟨{ w₂ with phase := .weighing l₂.head? (-1000) none }, l₂, ?_, ⟨?_, ?_⟩, rfl⟩
  · change (World.refill (w.setTask w.current { w.task w.current with needResched := false })).bind _ = _
    rw [hrefill]
    change (w₁.leave signalPending).bind _ = _
    rw [hleave]
    change (w₂.run.next none).bind _ = _
    rw [hnext]
    rfl
  · exact hqueue.setPhase w₂.current (.weighing l₂.head? (-1000) none)
  · exact ⟨hrun, fun t ht => List.mem_of_head? ht, within_none⟩

end

/-! ### The search -/

theorem Sound.weigh {next : Option ι} {c : ℤ}
    (hp : w.phase = .weighing (some a) c next) : (w.weigh a c next).Sound l := by
  obtain ⟨hrun, ha, hnext⟩ := h.weighing hp
  set t := (goodness (w.task (some a)) (w.task w.current)).2
  have hset : (w.setTask (some a) t).Sound l := h.setTask (goodness_state _ _) (fun hf => hf.goodness _) nofun
  refine ⟨hset.queue.setPhase w.current _, ?_⟩
  have hstate : ∀ b ∈ l, ((w.setTask (some a) t).task (some b)).state = .running := (hset.weighing hp).1
  by_cases hc : (goodness (w.task (some a)) (w.task w.current)).1 > c
  · have hphase : (w.weigh a c next).phase =
        .advancing a (goodness (w.task (some a)) (w.task w.current)).1 (some a) := if_pos hc
    unfold Busy
    rw [hphase]
    exact ⟨hstate, ha a rfl, ha⟩
  · have hphase : (w.weigh a c next).phase = .advancing a c next := if_neg hc
    unfold Busy
    rw [hphase]
    exact ⟨hstate, ha a rfl, hnext⟩

/-! ### The calls -/

theorem Sound.setState (hp : w.phase = .running) (hc : w.current ≠ none) (s : State) :
    (w.setTask w.current { w.task w.current with state := s }).Sound l := by
  obtain ⟨hrun, hcur⟩ := h.running hp
  refine ⟨h.queue.edit h.queue.holds h.queue.count (fun _ => id) (fun a ha _ _ => hcur a ha.symm)
    (fun _ hf => hf.of_params rfl) fun he => absurd he hc,
    busy_running hp (fun a ha => ?_) hcur⟩
  by_cases hac : some a = w.current
  · exact .inr hac.symm
  · rw [task_setTask_of_ne hac]
    exact hrun a ha

end

theorem Task.Fair.setParams {policy : Policy} {prio : ℤ} (h : t.Fair)
    (hpol : policy = SCHED_OTHER ∨ policy = SCHED_YIELD ∨ policy = SCHED_FIFO ∨ policy = SCHED_RR)
    (hpos : ¬ prio < 0) (hiff : policy = SCHED_OTHER ↔ prio = 0) :
    { t with policy := policy, rtPriority := prio : Task }.Fair := by
  refine ⟨hpol, fun hrt => ?_, h.counter, h.priority⟩
  have hne : prio ≠ 0 := by
    intro h0
    have hother := hiff.mpr h0
    dsimp only at hrt
    rw [hother] at hrt
    exact absurd hrt (by decide)
  dsimp only
  omega

theorem Sound.setschedulerLocked (h : w.Sound l) (ha : w.linked a = true) (policy : Policy)
    (prio : ℤ) : ∃ r w' l', w.setschedulerLocked (some a) policy prio = some (r, w') ∧ w'.Sound l' := by
  have hfair := h.queue.fair a (.inl ha)
  unfold World.setschedulerLocked
  dsimp only
  set pol := if ¬ policy.toInt < 0 then policy else (w.task (some a)).policy with hpol
  split
  case isTrue => exact ⟨_, w, l, rfl, h⟩
  case isFalse hvalid =>
  split
  case isTrue => exact ⟨_, w, l, rfl, h⟩
  case isFalse hrange =>
  split
  case isTrue => exact ⟨_, w, l, rfl, h⟩
  case isFalse hiff =>
  split
  case isTrue => exact ⟨_, w, l, rfl, h⟩
  case isFalse =>
  split
  case isTrue => exact ⟨_, w, l, rfl, h⟩
  case isFalse =>
    have hpols : pol = SCHED_OTHER ∨ pol = SCHED_YIELD ∨ pol = SCHED_FIFO ∨ pol = SCHED_RR := by
      by_cases hgiven : ¬ policy.toInt < 0
      · tauto
      · rw [hpol, if_neg hgiven]
        exact hfair.policy
    have hset := h.setTask (p := some a) (t := { w.task (some a) with policy := pol, rtPriority := prio })
      rfl (fun hf => Task.Fair.setParams hf hpols (fun hneg => hrange (.inl hneg)) (not_not.mp hiff))
      nofun
    by_cases hon : a ∈ l
    · obtain ⟨run, l', hrun, hsound, -⟩ := hset.moveFirst hon
      have hsome : (w.run.next (some a)).isSome :=
        (h.queue.holds.next_iff (some a) (within_some.mpr ha)).mpr (within_some.mpr hon)
      refine ⟨0, _, l', ?_, hsound.setNeedResched w.current true⟩
      change w.run.moveFirstRunqueue (some a) = some run at hrun
      refine (if_pos hsome).trans ?_
      change (w.run.moveFirstRunqueue (some a)).bind _ = _
      rw [hrun]
      rfl
    · have hnull : ¬ (w.run.next (some a)).isSome := by
        rw [h.queue.holds.next_iff (some a) (within_some.mpr ha)]
        exact fun hw => hon (hw a rfl)
      refine ⟨0, _, l, ?_, hset.setNeedResched w.current true⟩
      exact (if_neg hnull).trans rfl

section

variable (h : w.Sound l) (hp : w.phase = .running) (hc : w.current ≠ none)
include h hp hc

theorem Sound.setscheduler
    {found : Option ι} (hf : ∀ t, found = some t → w.linked t = true) (pid : ℤ) (policy : Policy)
    (param : Option (Option ℤ)) :
    ∃ r w' l', w.setscheduler pid found policy param = some (r, w') ∧ w'.Sound l' := by
  unfold World.setscheduler
  split
  case h_1 => exact ⟨_, w, l, rfl, h⟩
  case h_2 lp =>
  split
  case isTrue => exact ⟨_, w, l, rfl, h⟩
  case isFalse =>
  split
  case h_1 => exact ⟨_, w, l, rfl, h⟩
  case h_2 prio =>
  split
  case isTrue =>
    obtain ⟨a, ha⟩ := Option.ne_none_iff_exists'.mp hc
    rw [ha]
    exact h.setschedulerLocked (h.queue.holds.mem a ((h.running hp).2 a ha)) policy prio
  case isFalse =>
  split
  case h_1 => exact ⟨_, w, l, rfl, h⟩
  case h_2 a => exact h.setschedulerLocked (hf a rfl) policy prio

theorem Sound.sysSchedYield : ∃ w' l', w.sysSchedYield = some w' ∧ w'.Sound l' := by
  obtain ⟨a, ha⟩ := Option.ne_none_iff_exists'.mp hc
  have hon : a ∈ l := (h.running hp).2 a ha
  set t : Task := { w.task (some a) with
    policy := if (w.task (some a)).policy = SCHED_OTHER then (w.task (some a)).policy ||| SCHED_YIELD
      else (w.task (some a)).policy
    needResched := true } with ht
  have hfair : (w.task (some a)).Fair → t.Fair := by
    intro hf
    by_cases hother : (w.task (some a)).policy = SCHED_OTHER
    · have hpol : t.policy = SCHED_YIELD := by
        rw [ht]
        dsimp only
        rw [if_pos hother, hother]
        decide
      refine ⟨.inr (.inl hpol), fun hrt => ?_, hf.counter, hf.priority⟩
      rw [hpol] at hrt
      exact absurd hrt (by decide)
    · have hpol : t.policy = (w.task (some a)).policy := if_neg hother
      refine ⟨?_, ?_, hf.counter, hf.priority⟩
      · rw [hpol]
        exact hf.policy
      · rw [hpol]
        exact hf.rtPriority
  have hset := h.setTask (p := some a) (t := t) rfl hfair (fun he => absurd he (Option.some_ne_none a))
  obtain ⟨run, l', hrun, hsound, -⟩ := hset.moveLast hon
  refine ⟨_, l', ?_, hsound⟩
  change w.run.moveLastRunqueue (some a) = some run at hrun
  unfold World.sysSchedYield
  rw [ha, hrun]
  rfl

end

theorem nicePriority_bounds (niceval : ℤ) : 0 ≤ nicePriority niceval ∧ nicePriority niceval ≤ 2 * DEF_PRIORITY := by
  have hdef : DEF_PRIORITY = 20 := rfl
  have habs := abs_nonneg niceval
  unfold nicePriority
  dsimp only
  rw [hdef]
  split_ifs <;> omega

section

variable (h : w.Sound l)
include h

theorem Sound.setPriority (a : ι) (niceval : ℤ) : (w.setPriority a niceval).Sound l := by
  unfold World.setPriority
  split
  · exact h
  · exact h.setTask rfl (fun hf => ⟨hf.policy, hf.rtPriority, hf.counter, nicePriority_bounds niceval⟩) nofun

theorem Sound.sysNice (hc : w.current ≠ none) (increment : ℤ) : (w.sysNice increment).Sound l := by
  unfold World.sysNice
  dsimp only
  split
  · exact h
  · refine h.setTask rfl (fun hf => ⟨hf.policy, hf.rtPriority, hf.counter, ?_⟩) (fun he => absurd he hc)
    have hdef : DEF_PRIORITY = 20 := rfl
    dsimp only
    omega

theorem Sound.updateProcessTimes (ticks : ℕ) : (w.updateProcessTimes ticks).Sound l := by
  unfold World.updateProcessTimes
  split
  case isTrue hc =>
    dsimp only
    have hnone : w.current ≠ none := Option.isSome_iff_ne_none.mp hc
    split
    · have hdef : (0 : ℤ) ≤ 4 * DEF_PRIORITY := by decide
      exact h.setTask rfl (fun hf => ⟨hf.policy, hf.rtPriority, ⟨le_rfl, hdef⟩, hf.priority⟩)
        (fun he => absurd he hnone)
    refine h.setTask rfl (fun hf => ⟨hf.policy, hf.rtPriority, ⟨?_, ?_⟩, hf.priority⟩)
      (fun he => absurd he hnone)
    · dsimp only
      omega
    · have hle := hf.counter.2
      dsimp only
      omega
  case isFalse => exact h

/-! ### `do_fork` -/

theorem Sound.setUnlinked (hlinked : w.linked child = false) (hf : t.Fair) :
    (w.setTask (some child) t).Sound l := by
  have hne : ∀ a, w.linked a = true → some a ≠ some child := by
    intro a ha he
    rw [Option.some.inj he, hlinked] at ha
    cases ha
  exact h.edit h.queue.holds h.queue.count (fun _ => id) (fun a he hl _ => absurd he (hne a hl)) (fun _ _ => hf)
    (fun he => absurd he (Option.some_ne_none child)) (fun _ => .inl)
    fun a ha he => absurd he (hne a (h.queue.holds.mem a ha))

theorem Sound.forkBegin (hp : w.phase = .running)
    (hlinked : w.linked child = false) (hi : w.current = none → w.idling = false) :
    (w.forkBegin child).Sound l := by
  have hf := h.current_fair hp hi
  set t : Task := { w.task w.current with state := .running }
  have htf : t.Fair := hf.of_params rfl
  have hset := h.setUnlinked hlinked htf
  have hunborn : ∀ a, (w.forkBegin child).unborn a ≠ none → a = child ∨ w.unborn a ≠ none := by
    intro a ha
    by_cases hac : a = child
    · exact .inl hac
    · unfold World.forkBegin at ha
      dsimp only at ha
      rw [update_of_ne hac] at ha
      exact .inr ha
  refine ⟨⟨?_, h.queue.count, hset.queue.runnable, fun a ha => ?_, fun a ha => ?_, hset.queue.idle,
    hset.queue.idle_fair⟩, hset.busy.mono rfl rfl (fun _ => id) fun a ha => .inr ⟨ha, rfl⟩⟩
  · apply h.queue.holds.congr
    intro q hq
    have hqc : q ≠ some child := by
      rintro rfl
      have hl : w.linked child = true := hq child rfl
      rw [hlinked] at hl
      cases hl
    exact ⟨update_of_ne hqc .., update_of_ne hqc ..⟩
  · obtain rfl | ha := hunborn a ha
    · exact hlinked
    · exact h.queue.unborn a ha
  · have hself : (w.forkBegin child).task (some child) = t := task_setTask_self ..
    by_cases hac : a = child
    · rw [hac, hself]
      exact htf
    · exact hset.queue.fair a (ha.imp_right fun hb => (hunborn a hb).resolve_left hac)

end

theorem wakeUpProcess_setState (w : World ι) (p : Option ι) (s : State) :
    (w.setTask p { w.task p with state := s }).wakeUpProcess p = w.wakeUpProcess p := by
  have hset : (w.setTask p { w.task p with state := s }).setTask p
      { (w.setTask p { w.task p with state := s }).task p with state := .running } =
      w.setTask p { w.task p with state := .running } := by
    rw [task_setTask_self]
    unfold World.setTask
    rw [update_idem]
  unfold World.wakeUpProcess
  rw [hset]

theorem Sound.link (h : w.Sound l) (hlinked : w.linked child = false)
    (hs : (w.task (some child)).state ≠ .running) (hf : (w.task (some child)).Fair) : { w with
      linked := update w.linked child true
      unborn := update w.unborn child none
      run := ⟨update w.run.next (some child) none, update w.run.prev (some child) none⟩ }.Sound l := by
  have hnot : child ∉ l := by
    intro hmem
    have hl : w.linked child = true := h.queue.holds.mem child hmem
    rw [hlinked] at hl
    cases hl
  have hsub : ∀ t, update w.linked child true t = true ↔ t = child ∨ w.linked t = true := by
    intro t
    obtain rfl | ht := eq_or_ne t child
    · simp
    · simp [ht]
  have hholds := holds_clear (T := {t | update w.linked child true t = true}) h.queue.holds.ring
    h.queue.holds.next_iff h.queue.holds.prev_iff hnot
    (fun t ht => (hsub t).mpr (.inr (h.queue.holds.mem t ht)))
    (fun t ht hne => ((hsub t).mp ht).resolve_left hne) fun _ _ => Iff.rfl
  refine ⟨⟨hholds, h.queue.count, fun t hl ht => ?_, fun t ht => ?_, fun t ht => ?_, h.queue.idle,
    h.queue.idle_fair⟩, h.busy.mono rfl rfl (fun _ => id) fun t ht => .inr ⟨ht, rfl⟩⟩
  · obtain rfl | hl := (hsub t).mp hl
    · exact absurd ht hs
    · exact h.queue.runnable t hl ht
  · have htc : t ≠ child := by
      rintro rfl
      exact ht (update_self ..)
    dsimp only at ht ⊢
    rw [update_of_ne htc] at ht ⊢
    exact h.queue.unborn t ht
  · by_cases htc : t = child
    · exact htc ▸ hf
    · apply h.queue.fair t
      dsimp only at ht
      rwa [update_of_ne htc, update_of_ne htc] at ht

theorem Sound.forkEnd (h : w.Sound l) (hp : w.phase = .running)
    (hborn : w.unborn child = some w.current) (hi : w.current = none → w.idling = false) (mm : ℕ) :
    ∃ w' l', w.forkEnd child mm = some w' ∧ w'.Sound l' := by
  have hlinked : w.linked child = false := by
    apply h.queue.unborn child
    rw [hborn]
    exact Option.some_ne_none _
  have hne : w.current ≠ some child := by
    intro hc
    have hl : w.linked child = true := h.queue.holds.mem child ((h.running hp).2 child hc)
    rw [hlinked] at hl
    cases hl
  have hcf := h.current_fair hp hi
  obtain ⟨hc, hc'⟩ := hcf.counter
  set half := (w.task w.current).counter / 2
  have hrange : 0 ≤ half ∧ half ≤ 4 * DEF_PRIORITY := by omega
  set w₁ := w.setTask w.current { w.task w.current with counter := half }
  have hs₁ : w₁.Sound l := by
    refine h.setTask rfl (fun hf => ⟨hf.policy, hf.rtPriority, hrange, hf.priority⟩) fun he => ?_
    rw [he]
    exact h.queue.idle.2
  have hchild : w₁.task (some child) = w.task (some child) := task_setTask_of_ne hne.symm ..
  have hcfair : (w.task (some child)).Fair := by
    apply h.queue.fair child (.inr _)
    rw [hborn]
    exact Option.some_ne_none _
  -- the state of the child does not matter until it is woken
  set t : Task := { w₁.task (some child) with counter := half, mm := mm } with ht
  have htf : { t with state := .uninterruptible : Task }.Fair := by
    rw [ht, hchild]
    exact ⟨hcfair.policy, hcfair.rtPriority, hrange, hcfair.priority⟩
  have hs₂ := hs₁.setUnlinked hlinked htf
  have hself := task_setTask_self w₁ (some child) { t with state := .uninterruptible }
  have hs₃ := hs₂.link hlinked (by rw [hself]; exact State.noConfusion) (by rw [hself]; exact htf)
  obtain ⟨w', l', hw', hwoken⟩ := hs₃.wakeUpProcess (p := some child) (by
    intro a ha
    rw [← Option.some.inj ha]
    exact update_self ..)
  refine ⟨w', l', ?_, hwoken.sound⟩
  rw [← hw']
  refine (wakeUpProcess_setState _ (some child) .uninterruptible).symm.trans ?_
  congr 1
  unfold World.setTask
  dsimp only
  rw [update_self, update_idem]
  rfl

theorem Sound.idled (h : w.Sound l) :
    { w.setTask none { w.task none with priority := 0, counter := -100 } with idling := true }.Sound l := by
  have hidle : { w with idling := true }.Sound l := by
    obtain ⟨⟨h1, h2, h3, h4, h5, h6, -⟩, hbusy⟩ := h
    exact ⟨⟨h1, h2, h3, h4, h5, h6, nofun⟩, hbusy⟩
  exact hidle.edit (p := none) hidle.queue.holds h.queue.count (fun _ => id) nofun
    (fun hb => Bool.noConfusion (hb rfl)) (fun _ => h.queue.idle) (fun _ => .inl) fun _ _ _ => .inr rfl

end Edit

end World

/-! ### Runs -/

variable {w w' : World ι} {l : List ι}

theorem all_linked {p : Option ι} (h : p.all w.linked = true) : ∀ t, p = some t → w.linked t = true := by
  rintro t rfl
  exact h

variable [DecidableEq ι]

/-- Every step that can be made follows no null pointer and keeps the queue. -/
theorem sound_effect (h : w.Sound l) {op : Op ι} (he : enabled w op = true) :
    ∃ w' l', effect w op = some w' ∧ w'.Sound l' := by
  cases op with
  | wake p =>
    obtain ⟨w', l', hw', hwoken⟩ := h.wakeUpProcess (all_linked he)
    exact ⟨w', l', hw', hwoken.sound⟩
  | schedule signalPending =>
    obtain ⟨w', l', hw', hsound, -⟩ := h.schedule (of_decide_eq_true he) signalPending
    exact ⟨w', l', hw', hsound⟩
  | weigh =>
    dsimp only [enabled] at he
    split at he
    case h_1 p c next hp =>
      refine ⟨w.weigh p c next, l, ?_, h.weigh hp⟩
      dsimp only [effect]
      rw [hp]
    case h_2 => cases he
  | advance =>
    dsimp only [enabled] at he
    split at he
    case h_1 p c next hp =>
      obtain ⟨l₁, l₂, rfl⟩ := List.append_of_mem (h.advancing hp).2.1
      obtain ⟨heq, hsound⟩ := h.advance hp
      refine ⟨_, _, ?_, hsound⟩
      dsimp only [effect]
      rw [hp]
      exact heq
    case h_2 => cases he
  | switchTo =>
    dsimp only [enabled] at he
    split at he
    case h_1 c next hp =>
      refine ⟨w.switchTo c next, l, ?_, h.switchTo hp⟩
      dsimp only [effect]
      rw [hp]
    case h_2 => cases he
  | setState s =>
    obtain ⟨hp, hc⟩ := of_decide_eq_true he
    exact ⟨_, l, rfl, h.setState hp hc s⟩
  | setscheduler pid found policy param =>
    obtain ⟨hp, hc, hf⟩ := of_decide_eq_true he
    obtain ⟨r, w', l', hw', hsound⟩ := h.setscheduler hp hc (all_linked hf) pid policy param
    refine ⟨w', l', ?_, hsound⟩
    dsimp only [effect]
    rw [hw']
    rfl
  | yield =>
    obtain ⟨hp, hc⟩ := of_decide_eq_true he
    exact h.sysSchedYield hp hc
  | forkBegin child =>
    obtain ⟨hp, hl, -, hi⟩ := of_decide_eq_true he
    exact ⟨_, l, rfl, h.forkBegin hp hl hi⟩
  | forkEnd child mm =>
    obtain ⟨hp, hb, hi⟩ := of_decide_eq_true he
    exact h.forkEnd hp hb hi mm
  | tick ticks => exact ⟨_, l, rfl, h.updateProcessTimes ticks⟩
  | setPriority p niceval => exact ⟨_, l, rfl, h.setPriority p niceval⟩
  | nice increment =>
    obtain ⟨-, hc⟩ := of_decide_eq_true he
    exact ⟨_, l, rfl, h.sysNice hc increment⟩
  | idled => exact ⟨_, l, rfl, h.idled⟩

theorem sound_step (h : ∃ l, w.Sound l) {op : Op ι} (hs : step w op = some w') : ∃ l, w'.Sound l := by
  obtain ⟨l, h⟩ := h
  obtain ⟨he, hs⟩ := Option.ite_none_right_eq_some.mp hs
  obtain ⟨v, l', hv, hsound⟩ := sound_effect h he
  rw [hs] at hv
  exact ⟨l', Option.some.inj hv ▸ hsound⟩

/-- `init_task` alone, with an empty queue. -/
def boot (ι : Type*) : World ι where
  task _ := ⟨.running, SCHED_OTHER, 0, DEF_PRIORITY, DEF_PRIORITY, 0, false, 0, 0, true⟩
  linked _ := false
  unborn _ := none
  run := ⟨fun q => if q.isNone then some none else none, fun q => if q.isNone then some none else none⟩
  nrRunning := 0
  current := none
  phase := .running
  idling := false

omit [DecidableEq ι] in
theorem sound_boot : (boot ι).Sound [] := by
  have hnull : ∀ q : Option ι, (if q.isNone then some (none : Option ι) else none).isSome ↔
      Within {t | t ∈ ([] : List ι)} q := by
    intro q
    cases q with
    | none => exact iff_of_true rfl within_none
    | some a => exact iff_of_false Bool.false_ne_true fun hw => List.not_mem_nil (hw a rfl)
  have hnot : ¬ (SCHED_OTHER = SCHED_FIFO ∨ SCHED_OTHER = SCHED_RR) := by decide
  have hrange : 0 ≤ DEF_PRIORITY ∧ DEF_PRIORITY ≤ 4 * DEF_PRIORITY ∧ DEF_PRIORITY ≤ 2 * DEF_PRIORITY := by
    decide
  have hfair : ((boot ι).task none).Fair :=
    ⟨.inl rfl, fun hrt => absurd hrt hnot, ⟨hrange.1, hrange.2.1⟩, ⟨hrange.1, hrange.2.2⟩⟩
  refine ⟨⟨⟨Ring.of_empty rfl rfl, by simp, fun q _ => hnull q, fun q _ => hnull q⟩, rfl, ?_, ?_, ?_,
    ⟨rfl, rfl⟩, fun _ => hfair⟩, by simp, within_none⟩
  · exact fun _ hl => Bool.noConfusion hl
  · exact fun _ hb => absurd rfl hb
  · rintro t (hl | hb)
    · cases hl
    · exact absurd rfl hb

theorem sound_of_reaches (hr : Reaches step (boot ι) w) : ∃ l, w.Sound l :=
  hr.invariant ⟨[], sound_boot⟩ fun _ _ _ h _ hs => sound_step h hs

end I370Linux.RunQueue
