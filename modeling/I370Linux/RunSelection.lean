import I370Linux.RunSound

/-! # What `schedule` picks

While `schedule` searches, tasks come to the queue only before the place where the search began, and
nothing the search reads changes: the tasks that are still to be weighed have the parameters they had at
the beginning (`Searching`).  So the task it picks is one of the queue at the beginning, with the greatest
goodness there (`schedule_selects`). -/

namespace I370Linux.RunQueue

open Runs Links Run List

variable {ι : Type*} {w w' w₀ : World ι} {l₀ : List ι}

/-! ### The search -/

/-- The goodness of a task for the search that begins in `w`. -/
def World.weight (w : World ι) (a : ι) : ℤ := (goodness (w.task (some a)) (w.task w.current)).1

/-- `c` and `next` after the tasks `done` of the search that began in `w`. -/
def Best (w : World ι) (done : List ι) (c : ℤ) (next : Option ι) : Prop :=
  done = [] ∧ c = -1000 ∧ next = none ∨
    ∃ a ∈ done, next = some a ∧ c = w.weight a ∧ ∀ b ∈ done, w.weight b ≤ c

theorem mm_goodness (t prev : Task) : (goodness t prev).2.mm = t.mm := by
  unfold goodness
  split_ifs <;> rfl

variable {a : ι} {c : ℤ} {next : Option ι} {m : ℕ}

theorem Best.cons {done : List ι} (h : Best w₀ done c next) (hnn : 0 ≤ w₀.weight a) :
    Best w₀ (done ++ [a]) (if w₀.weight a > c then w₀.weight a else c)
      (if w₀.weight a > c then some a else next) := by
  right
  obtain ⟨rfl, rfl, rfl⟩ | ⟨b, hb, rfl, rfl, hle⟩ := h
  · rw [if_pos (by omega), if_pos (by omega)]
    exact ⟨a, by simp, rfl, rfl, by simp⟩
  by_cases hc : w₀.weight a > w₀.weight b
  · rw [if_pos hc, if_pos hc]
    refine ⟨a, by simp, rfl, rfl, fun d hd => ?_⟩
    obtain hd | hd := mem_append.mp hd
    · exact (hle d hd).trans hc.le
    · rw [mem_singleton.mp hd]
  · rw [if_neg hc, if_neg hc]
    refine ⟨b, mem_append_left _ hb, rfl, rfl, fun d hd => ?_⟩
    obtain hd | hd := mem_append.mp hd
    · exact hle d hd
    · rw [mem_singleton.mp hd]
      exact not_lt.mp hc

/-- What `schedule` may pick from the queue `l` in the state `w`. -/
def Picked (w : World ι) (l : List ι) (next : Option ι) : Prop :=
  l = [] ∧ next = none ∨
    ∃ a ∈ l, next = some a ∧ (w.task (some a)).state = .running ∧ (∀ b ∈ l, w.weight b ≤ w.weight a) ∧
      ∀ b ∈ l, (w.task (some b)).Realtime → (w.task (some a)).Realtime

theorem Best.picked (hsound : w₀.Sound l₀)
    (hrun : ∀ a ∈ l₀, (w₀.task (some a)).state = .running) (h : Best w₀ l₀ c next) :
    Picked w₀ l₀ next := by
  obtain ⟨hnil, -, hnext⟩ | ⟨a, ha, hnext, rfl, hle⟩ := h
  · exact .inl ⟨hnil, hnext⟩
  have hfair : ∀ b ∈ l₀, (w₀.task (some b)).Fair :=
    fun b hb => hsound.queue.fair b (.inl (hsound.queue.holds.mem b hb))
  refine .inr ⟨a, ha, hnext, hrun a ha, hle, fun b hb hrt => ?_⟩
  by_contra hnot
  have hlt := ((hfair a ha).goodness_lt hnot (w₀.task w₀.current)).2
  have hgt := (hfair b hb).goodness_realtime hrt (w₀.task w₀.current)
  have hab := hle b hb
  unfold World.weight at hab
  omega

/-- A state of the search that began in `w₀` with the queue `l₀`: the tasks `done` of it are weighed, the
others are as they were, and new tasks are before them.  `m` bounds the steps left. -/
structure Searching (w₀ : World ι) (l₀ : List ι) (w : World ι) (m : ℕ) : Prop where
  cut : ∃ front done rest, w.Sound (front ++ (done ++ rest)) ∧ l₀ = done ++ rest ∧
    (∀ a ∈ rest, (w.task (some a)).params = (w₀.task (some a)).params) ∧
    ((∃ c next, w.phase = .weighing rest.head? c next ∧ Best w₀ done c next ∧ m = 2 * rest.length) ∨
      ∃ a c next, w.phase = .advancing a c next ∧ done.getLast? = some a ∧ Best w₀ done c next ∧
        m = 2 * rest.length + 1)
  mm : (w.task w.current).mm = (w₀.task w₀.current).mm

def Op.inSearch : Op ι → Bool
  | .wake _ | .weigh | .advance => true
  | _ => false

/-- The steps that the processor makes itself, interrupts apart. -/
def Op.isTurn : Op ι → Bool
  | .weigh | .advance => true
  | _ => false

def turns (ops : List (Op ι)) : ℕ := ops.countP Op.isTurn

theorem Searching.advance (h : Searching w₀ l₀ w m)
    (hp : w.phase = .advancing a c next) (hs : w.advance a c next = some w') :
    ∃ m', m = m' + 1 ∧ Searching w₀ l₀ w' m' := by
  obtain ⟨⟨front, done, rest, hsound, hl₀, hparams, hphase⟩, hmm⟩ := h
  obtain ⟨c', next', hphase, -⟩ | ⟨b, c', next', hphase, hlast, hbest, hm⟩ := hphase
  · rw [hp] at hphase
    cases hphase
  rw [hp] at hphase
  obtain ⟨rfl, rfl, rfl⟩ := Phase.advancing.inj hphase
  obtain ⟨done', rfl⟩ := List.getLast?_eq_some_iff.mp hlast
  have hsplit : front ++ (done' ++ [a] ++ rest) = (front ++ done') ++ a :: rest := by simp
  rw [hsplit] at hsound
  obtain ⟨heq, hsound'⟩ := hsound.advance hp
  obtain rfl := Option.some.inj (heq.symm.trans hs)
  refine ⟨2 * rest.length, hm, ⟨front, done' ++ [a], rest, ?_, hl₀, hparams,
    .inl ⟨c, next, rfl, hbest, rfl⟩⟩, hmm⟩
  rw [hsplit]
  exact hsound'

variable [DecidableEq ι]

section

variable (h : Searching w₀ l₀ w m)
include h

theorem Searching.wake {p : Option ι}
    (hp : ∀ t, p = some t → w.linked t = true) (hs : w.wakeUpProcess p = some w') :
    Searching w₀ l₀ w' m := by
  obtain ⟨⟨front, done, rest, hsound, hl₀, hparams, hphase⟩, hmm⟩ := h
  obtain ⟨v, l', hv, hwoken⟩ := hsound.wakeUpProcess hp
  obtain rfl : v = w' := Option.some.inj (hv.symm.trans hs)
  obtain ⟨m', hm'⟩ := hwoken.front
  refine ⟨⟨m' ++ front, done, rest, ?_, hl₀, fun a ha => ?_, ?_⟩, ?_⟩
  · rw [append_assoc, ← hm']
    exact hwoken.sound
  · rw [hwoken.params]
    exact hparams a ha
  · rw [hwoken.phase]
    exact hphase
  · rw [hwoken.current, ← hmm]
    exact congrArg (·.2.2.2.2) (hwoken.params w.current)

theorem Searching.weigh (hp : w.phase = .weighing (some a) c next) :
    ∃ m', m = m' + 1 ∧ Searching w₀ l₀ (w.weigh a c next) m' := by
  obtain ⟨⟨front, done, rest, hsound, hl₀, hparams, hphase⟩, hmm⟩ := h
  obtain ⟨c', next', hphase, hbest, hm⟩ | ⟨b, c', next', hphase, -⟩ := hphase
  · rw [hp] at hphase
    obtain ⟨hhead, rfl, rfl⟩ := Phase.weighing.inj hphase
    obtain ⟨rest, rfl⟩ : ∃ r, rest = a :: r := by
      cases rest with
      | nil => cases hhead
      | cons b r => exact ⟨r, by rw [Option.some.inj hhead]⟩
    have hweight : (goodness (w.task (some a)) (w.task w.current)).1 = w₀.weight a :=
      goodness_congr (hparams a mem_cons_self) hmm
    have hsoundw := hsound.weigh hp
    have hnn : 0 ≤ w₀.weight a := by
      rw [← hweight]
      apply Task.Fair.goodness_nonneg
      apply hsound.queue.fair a (.inl _)
      exact hsound.queue.holds.mem a (by simp)
    have hnd := hsound.queue.holds.ring.nodup
    have hphase' : (w.weigh a c next).phase = .advancing a
        (if w₀.weight a > c then w₀.weight a else c) (if w₀.weight a > c then some a else next) := by
      rw [← hweight]
      unfold World.weigh
      dsimp only
      split_ifs <;> rfl
    refine ⟨2 * rest.length + 1, by rw [hm, length_cons]; omega,
      ⟨front, done ++ [a], rest, ?_, ?_, fun b hb => ?_, .inr ⟨a, _, _, hphase', ?_, hbest.cons hnn, rfl⟩⟩, ?_⟩
    · rw [append_assoc, singleton_append]
      exact hsoundw
    · rw [hl₀, append_assoc, singleton_append]
    · have hba : b ≠ a := by
        rintro rfl
        rw [← append_assoc] at hnd
        exact (nodup_cons.mp (nodup_append.mp hnd).2.1).1 hb
      rw [← hparams b (mem_cons_of_mem a hb)]
      exact congrArg Task.params (World.task_setTask_of_ne (fun he => hba (Option.some.inj he)) ..)
    · exact List.getLast?_concat
    · rw [← hmm]
      change ((w.weigh a c next).task w.current).mm = _
      by_cases hc : w.current = some a
      · rw [hc]
        refine (congrArg Task.mm (World.task_setTask_self ..)).trans ?_
        rw [hc]
        exact mm_goodness _ _
      · exact congrArg Task.mm (World.task_setTask_of_ne hc ..)
  · rw [hp] at hphase
    cases hphase

theorem Searching.run (ops : List (Op ι)) (hr : exec step (fun _ op => op.inSearch) w ops = some w') :
    ∃ m', m = m' + turns ops ∧ Searching w₀ l₀ w' m' := by
  induction ops generalizing w m with
  | nil =>
    obtain rfl : w = w' := Option.some.inj hr
    exact ⟨m, rfl, h⟩
  | cons op ops ih =>
    simp only [exec, foldlM_cons, Option.bind_eq_bind, Option.bind_eq_some_iff] at hr
    obtain ⟨v, hv, hrest⟩ := hr
    obtain ⟨hin, hv⟩ := Option.ite_none_right_eq_some.mp hv
    obtain ⟨he, hv⟩ := Option.ite_none_right_eq_some.mp hv
    cases op with
    | wake p =>
      obtain ⟨m', hm, hsearch⟩ := ih (h.wake (all_linked he) hv) hrest
      refine ⟨m', ?_, hsearch⟩
      unfold turns
      rw [countP_cons_of_neg Bool.false_ne_true]
      exact hm
    | weigh =>
      dsimp only [effect] at hv
      split at hv
      case h_1 a c next hp =>
        cases hv
        obtain ⟨m₁, hm, hsearch⟩ := h.weigh hp
        obtain ⟨m', hm', hsearch'⟩ := ih hsearch hrest
        refine ⟨m', ?_, hsearch'⟩
        unfold turns at hm' ⊢
        rw [countP_cons_of_pos rfl, hm, hm', Nat.add_assoc]
      case h_2 => cases hv
    | advance =>
      dsimp only [effect] at hv
      split at hv
      case h_1 a c next hp =>
        obtain ⟨m₁, hm, hsearch⟩ := h.advance hp hv
        obtain ⟨m', hm', hsearch'⟩ := ih hsearch hrest
        refine ⟨m', ?_, hsearch'⟩
        unfold turns at hm' ⊢
        rw [countP_cons_of_pos rfl, hm, hm', Nat.add_assoc]
      case h_2 => cases hv
    | _ => cases hin

/-! ### What is picked -/

theorem Searching.goes_on : ∃ op ∈ [Op.weigh, Op.advance, Op.switchTo], (step w op).isSome := by
  obtain ⟨⟨front, done, rest, hsound, -, -, hphase⟩, -⟩ := h
  obtain ⟨op, hop, he⟩ : ∃ op ∈ [Op.weigh, Op.advance, Op.switchTo], enabled w op = true := by
    obtain ⟨c, next, hphase, -⟩ | ⟨a, c, next, hphase, -⟩ := hphase
    · cases hr : rest.head? with
      | none =>
        refine ⟨.switchTo, by simp, ?_⟩
        dsimp only [enabled]
        rw [hphase, hr]
      | some a =>
        refine ⟨.weigh, by simp, ?_⟩
        dsimp only [enabled]
        rw [hphase, hr]
    · refine ⟨.advance, by simp, ?_⟩
      dsimp only [enabled]
      rw [hphase]
  obtain ⟨w', -, hw', -⟩ := sound_effect hsound he
  refine ⟨op, hop, ?_⟩
  unfold step
  rw [if_pos he, hw']
  rfl

theorem Searching.picked (hsound : w₀.Sound l₀)
    (hrun : ∀ a ∈ l₀, (w₀.task (some a)).state = .running) (hs : step w .switchTo = some w') :
    Picked w₀ l₀ w'.current := by
  obtain ⟨⟨front, done, rest, -, hl₀, -, hphase⟩, -⟩ := h
  obtain ⟨-, hs⟩ := Option.ite_none_right_eq_some.mp hs
  dsimp only [effect] at hs
  split at hs
  case h_1 c next hp =>
    cases hs
    rw [hp] at hphase
    obtain ⟨c', next', hphase, hbest, -⟩ | ⟨a, c', next', hphase, -⟩ := hphase
    · obtain ⟨hhead, rfl, rfl⟩ := Phase.weighing.inj hphase
      obtain rfl : rest = [] := List.head?_eq_none_iff.mp hhead.symm
      rw [append_nil] at hl₀
      rw [← hl₀] at hbest
      exact hbest.picked hsound hrun
    · cases hphase
  case h_2 => cases hs

end

/-- **The run queue and `schedule`.** In every state of a run from boot the ring holds each of the tasks whose links are not
null once, `nr_running` is their number, every running task is among them, and no step follows a null pointer. Whatever is
woken meanwhile, the search of `schedule` ends, and picks a running task of the queue with the greatest goodness, one with a
real-time policy if there is one, and `init_task` only if the queue is empty. -/
theorem schedule_selects (hr : Reaches step (boot ι) w) :
    (∃ l, w.run.Holds {t | w.linked t = true} l ∧ w.nrRunning = l.length ∧
      ∀ t, w.linked t = true → (w.task (some t)).state = .running → t ∈ l) ∧
    (∀ op, enabled w op = true → (step w op).isSome) ∧
    ∀ signalPending w₀, step w (.schedule signalPending) = some w₀ →
      ∃ l, w₀.run.Holds {t | w₀.linked t = true} l ∧
        ∀ ops w₁, exec step (fun _ op => op.inSearch) w₀ ops = some w₁ →
          turns ops ≤ 2 * l.length ∧ (∃ op ∈ [Op.weigh, Op.advance, Op.switchTo], (step w₁ op).isSome) ∧
          ∀ w₂, step w₁ .switchTo = some w₂ → Picked w₀ l w₂.current := by
  obtain ⟨l, hsound⟩ := sound_of_reaches hr
  refine ⟨⟨l, hsound.queue.holds, hsound.queue.count, hsound.queue.runnable⟩, fun op he => ?_, ?_⟩
  · obtain ⟨w', -, hw', -⟩ := sound_effect hsound he
    unfold step
    rw [if_pos he, hw']
    rfl
  · intro signalPending w₀ hs
    obtain ⟨he, hs⟩ := Option.ite_none_right_eq_some.mp hs
    obtain ⟨v, l₀, hv, hsound₀, hphase⟩ := hsound.schedule (of_decide_eq_true he) signalPending
    obtain rfl : v = w₀ := Option.some.inj (hv.symm.trans hs)
    have hbegin : Searching v l₀ v (2 * l₀.length) :=
      ⟨⟨[], [], l₀, hsound₀, rfl, fun _ _ => rfl, .inl ⟨-1000, none, hphase, .inl ⟨rfl, rfl, rfl⟩, rfl⟩⟩, rfl⟩
    refine ⟨l₀, hsound₀.queue.holds, fun ops w₁ hops => ?_⟩
    obtain ⟨m, hm, hsearch⟩ := hbegin.run ops hops
    refine ⟨by omega, hsearch.goes_on, fun w₂ hw₂ => ?_⟩
    exact hsearch.picked hsound₀ (hsound₀.weighing hphase).1 hw₂

/-- `init_task` forks a task and calls `schedule`, which finds it. -/
theorem schedule_selects_init : ∃ w w₀ w₁ w₂ : World (Fin 1), Reaches step (boot (Fin 1)) w ∧
    step w (.schedule false) = some w₀ ∧
    exec step (fun _ op => op.inSearch) w₀ [.weigh, .advance] = some w₁ ∧
    step w₁ .switchTo = some w₂ ∧ w₂.current = some 0 ∧ ∃ l, Picked w₀ l w₂.current := by
  have hrun : ((exec step (fun _ _ => true) (boot (Fin 1)) [.forkBegin 0, .forkEnd 0 1]).bind fun w =>
      (step w (.schedule false)).bind fun w₀ =>
      (exec step (fun _ op => op.inSearch) w₀ [.weigh, .advance]).bind fun w₁ =>
      (step w₁ .switchTo).map fun w₂ => decide (w₂.current = some 0)) = some true := by decide +kernel
  obtain ⟨w, hw, hrun⟩ := Option.bind_eq_some_iff.mp hrun
  obtain ⟨w₀, hw₀, hrun⟩ := Option.bind_eq_some_iff.mp hrun
  obtain ⟨w₁, hw₁, hrun⟩ := Option.bind_eq_some_iff.mp hrun
  obtain ⟨w₂, hw₂, hrun⟩ := Option.map_eq_some_iff.mp hrun
  have hr := Reaches.of_exec _ _ _ hw
  obtain ⟨l, -, hl⟩ := (schedule_selects hr).2.2 false w₀ hw₀
  exact ⟨w, w₀, w₁, w₂, hr, hw₀, hw₁, hw₂, of_decide_eq_true hrun, l, (hl _ w₁ hw₁).2.2 w₂ hw₂⟩

end I370Linux.RunQueue
