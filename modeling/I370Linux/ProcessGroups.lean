import I370Linux.ProcessIds

/-! # Process groups and sessions

A process group lies in one session, and the leader of a session leads its group
(`groups_within_sessions`), as long as a new number is not in use and no `do_fork` links a task whose parent has
been moved to another group meanwhile: the copy is then in the old group, which may belong to another session by now
(`fork_races_setsid`).  What carries the induction is that a group also lies in the session of the task
whose pid is the number of the group (`Grouped.founder`): `sys_setpgid` to the own pid looks at no other
member. -/

namespace I370Linux.ProcessIds

open Runs

/-- A task that is linked has a number that is not in use, and is in the group of its parent. -/
def keepsGroups (s : Procs) : Call → Bool
  | .link current _ => (s.forks current).all fun f => ¬ s.Uses f.task.pid ∧ f.task.pgrp = (s.task current).pgrp
  | _ => true

/-- The numbers of a task and whether it leads a session. -/
def Task.numbers (p : Task) : ℕ × ℕ × ℕ × Bool := (p.pid, p.pgrp, p.session, p.leader)

namespace Procs

variable {s s' : Procs} {a b current : Addr} {p : Task} {n : ℕ}

def Exists (s : Procs) (a : Addr) : Prop := a = 0 ∨ a ∈ s.order

theorem Runs.exists (h : s.Runs a) : s.Exists a := h.imp id And.left

theorem Exists.uses (h : s.Exists a) (hid : (s.task a).HasId n) : s.Uses n := by
  obtain rfl | h := h
  · exact Used.head hid
  · exact Used.tail ⟨_, mem_tasks h, hid⟩

/-- A process group lies in one session. -/
structure Grouped (s : Procs) : Prop where
  pid : ∀ a b, s.Exists a → s.Exists b → (s.task a).pid = (s.task b).pid → a = b
  same : ∀ a b, s.Exists a → s.Exists b → (s.task a).pgrp = (s.task b).pgrp →
    (s.task a).session = (s.task b).session
  founder : ∀ a b, s.Exists a → s.Exists b → (s.task a).pgrp = (s.task b).pid →
    (s.task a).session = (s.task b).session
  leader : ∀ a, s.Exists a → (s.task a).leader = true →
    (s.task a).pgrp = (s.task a).pid ∧ (s.task a).session = (s.task a).pid
  initPgrp : (s.task 0).pgrp = (s.task 0).pid
  notMem : 0 ∉ s.order

theorem Grouped.of_numbers (h : s.Grouped) (horder : ∀ a, a ∈ s'.order → a ∈ s.order)
    (hnum : ∀ a, (s'.task a).numbers = (s.task a).numbers) : s'.Grouped := by
  have hpid : ∀ a, (s'.task a).pid = (s.task a).pid := fun a => congrArg (·.1) (hnum a)
  have hpgrp : ∀ a, (s'.task a).pgrp = (s.task a).pgrp := fun a => congrArg (·.2.1) (hnum a)
  have hsession : ∀ a, (s'.task a).session = (s.task a).session := fun a => congrArg (·.2.2.1) (hnum a)
  have hleader : ∀ a, (s'.task a).leader = (s.task a).leader := fun a => congrArg (·.2.2.2) (hnum a)
  have hex : ∀ a, s'.Exists a → s.Exists a := fun a ha => ha.imp id (horder a)
  refine ⟨fun a b ha hb => ?_, fun a b ha hb => ?_, fun a b ha hb => ?_, fun a ha => ?_, ?_,
    fun h0 => h.notMem (horder 0 h0)⟩
  · rw [hpid, hpid]
    exact h.pid a b (hex a ha) (hex b hb)
  · rw [hpgrp, hpgrp, hsession, hsession]
    exact h.same a b (hex a ha) (hex b hb)
  · rw [hpgrp, hpid, hsession, hsession]
    exact h.founder a b (hex a ha) (hex b hb)
  · rw [hleader, hpgrp, hpid, hsession]
    exact h.leader a (hex a ha)
  · rw [hpgrp, hpid]
    exact h.initPgrp

theorem setTask_numbers (hp : p.numbers = (s.task a).numbers) (b : Addr) :
    ((s.setTask a p).task b).numbers = (s.task b).numbers := by
  obtain rfl | hb := eq_or_ne b a
  · rw [setTask_self]
    exact hp
  · rw [setTask_of_ne hb]

theorem exitNotify_numbers (s : Procs) (a b : Addr) :
    ((s.exitNotify a).task b).numbers = (s.task b).numbers := by
  refine (setTask_numbers ?_ b).trans ?_ <;> rfl

theorem Grouped.setTask (h : s.Grouped) (hpid : p.pid = (s.task a).pid)
    (hsame : ∀ b, s.Exists b → b ≠ a → p.pgrp = (s.task b).pgrp → p.session = (s.task b).session)
    (hfounds : ∀ b, s.Exists b → b ≠ a → (s.task b).pgrp = p.pid → (s.task b).session = p.session)
    (hfounder : ∀ b, s.Exists b → b ≠ a → p.pgrp = (s.task b).pid → p.session = (s.task b).session)
    (hleader : p.leader = true → p.pgrp = p.pid ∧ p.session = p.pid)
    (hinit : a = 0 → p.pgrp = p.pid) : (s.setTask a p).Grouped := by
  refine ⟨fun b c hb hc => ?_, fun b c hb hc => ?_, fun b c hb hc => ?_, fun b hb => ?_, ?_, h.notMem⟩
  · have hpids : ∀ b, ((s.setTask a p).task b).pid = (s.task b).pid := by
      intro b
      obtain rfl | hba := eq_or_ne b a
      · rw [setTask_self, hpid]
      · rw [setTask_of_ne hba]
    rw [hpids, hpids]
    exact h.pid b c hb hc
  · obtain rfl | hba := eq_or_ne b a
    · by_cases hcb : c = b
      · subst hcb
        exact fun _ => rfl
      · rw [setTask_self, setTask_of_ne hcb]
        exact hsame c hc hcb
    · obtain rfl | hca := eq_or_ne c a
      · rw [setTask_self, setTask_of_ne hba]
        exact fun heq => (hsame b hb hba heq.symm).symm
      · rw [setTask_of_ne hba, setTask_of_ne hca]
        exact h.same b c hb hc
  · obtain rfl | hba := eq_or_ne b a
    · by_cases hcb : c = b
      · subst hcb
        exact fun _ => rfl
      · rw [setTask_self, setTask_of_ne hcb]
        exact hfounder c hc hcb
    · obtain rfl | hca := eq_or_ne c a
      · rw [setTask_self, setTask_of_ne hba]
        exact hfounds b hb hba
      · rw [setTask_of_ne hba, setTask_of_ne hca]
        exact h.founder b c hb hc
  · obtain rfl | hba := eq_or_ne b a
    · rw [setTask_self]
      exact hleader
    · rw [setTask_of_ne hba]
      exact h.leader b hb
  · obtain rfl | ha := eq_or_ne 0 a
    · rw [setTask_self]
      exact hinit rfl
    · rw [setTask_of_ne ha]
      exact h.initPgrp

/-! ### The calls -/

theorem Grouped.sysSetpgid (h : s.Grouped) (current : Addr) (pid pgid : ℤ) :
    (s.sysSetpgid current pid pgid).2.Grouped := by
  obtain heq | ⟨a, ha, m, heq, hleader, hcaller, hm⟩ := s.sysSetpgid_cases current pid pgid
  · rw [heq]
    exact h
  rw [heq]
  have hne0 : a ≠ 0 := fun h0 => h.notMem (h0 ▸ ha)
  have ha : s.Exists a := .inr ha
  have hsession : (s.task a).session = (s.task current).session := hcaller.elim id fun h => h ▸ rfl
  refine h.setTask rfl (fun b hb hne hpgrp => ?_) (fun b hb hne hpid => h.founder b a hb ha hpid)
    (fun b hb hne hpid => ?_) (fun hl => absurd (hleader.symm.trans hl) Bool.false_ne_true)
    fun h0 => absurd h0 hne0
  · -- another member of the new group
    obtain rfl | ⟨tmp, htmp, rfl, hsess⟩ := hm
    · exact (h.founder b a hb ha hpgrp.symm).symm
    · obtain ⟨c, hc, rfl⟩ := List.mem_map.mp htmp
      rw [hsession, ← hsess]
      exact h.same c b (.inr hc) hb hpgrp
  · -- the task that founded it
    obtain rfl | ⟨tmp, htmp, rfl, hsess⟩ := hm
    · exact absurd (h.pid a b ha hb hpid).symm hne
    · obtain ⟨c, hc, rfl⟩ := List.mem_map.mp htmp
      rw [hsession, ← hsess]
      exact h.founder c b (.inr hc) hb hpid

theorem Grouped.sysSetsid (h : s.Grouped) (hr : s.Runs current) : (s.sysSetsid current).2.Grouped := by
  unfold Procs.sysSetsid
  dsimp only
  split
  · exact h
  case isFalse hnone =>
    have hcur := hr.exists
    have hempty : ∀ b, s.Exists b → b ≠ current → (s.task b).pgrp ≠ (s.task current).pid := by
      intro b hb hne heq
      obtain rfl | hb := hb
      · -- the loop does not look at `init_task`, but no other task has its number
        exact hne (h.pid 0 current (.inl rfl) hcur (h.initPgrp.symm.trans heq))
      · exact hnone ⟨_, mem_tasks hb, heq⟩
    refine h.setTask rfl (fun b hb hne heq => ?_) (fun b hb hne heq => ?_) (fun b hb hne heq => ?_)
      (fun _ => ⟨rfl, rfl⟩) fun _ => rfl
    · exact absurd heq.symm (hempty b hb hne)
    · exact absurd heq (hempty b hb hne)
    · exact absurd (h.pid current b hcur hb heq).symm hne

theorem Grouped.taskStep {c : TaskCall} (h : s.Grouped) (hc : taskStep s c = some s') : s'.Grouped := by
  cases c with
  | exec current =>
    obtain ⟨-, rfl⟩ := of_guard hc
    exact h.of_numbers (fun _ => id) (setTask_numbers rfl)
  | init current =>
    obtain ⟨-, rfl⟩ := of_guard hc
    exact h.of_numbers (fun _ => id) fun _ => rfl
  | exit current =>
    obtain ⟨-, rfl⟩ := of_guard hc
    exact h.of_numbers (fun _ => id) (s.exitNotify_numbers current)
  | release a =>
    obtain ⟨-, rfl⟩ := of_guard hc
    exact h.of_numbers (fun _ => List.mem_of_mem_erase) fun _ => rfl
  | setpgid current pid pgid =>
    obtain ⟨-, rfl⟩ := of_guard hc
    exact h.sysSetpgid current pid pgid
  | setsid current =>
    obtain ⟨hr, rfl⟩ := of_guard hc
    exact h.sysSetsid hr.1

theorem Exists.link (h : (s.link a p).Exists b) : s.Exists b ∨ b = a := by
  obtain rfl | h := h
  · exact .inl (.inl rfl)
  obtain h | h := List.mem_append.mp h
  · exact .inl (.inr h)
  · exact .inr (List.mem_singleton.mp h)

theorem Grouped.fork (h : s.Grouped) (hr : s.Runs current) (ha : a ≠ 0) (hmem : a ∉ s.order)
    (hfresh : ¬ s.Uses n) : (s.link a { s.child current with pid := n }).Grouped := by
  have hcur := hr.exists
  have hnot : ¬ s.Exists a := fun h => h.elim ha hmem
  have hself : (s.link a { s.child current with pid := n }).task a = { s.child current with pid := n } :=
    s.setTask_self a _
  have hother : ∀ b, s.Exists b → (s.link a { s.child current with pid := n }).task b = s.task b := by
    intro b hb
    exact setTask_of_ne (fun h : b = a => hnot (h ▸ hb)) s _
  have hpid : ∀ b, s.Exists b → (s.task b).pid ≠ n := fun b hb heq => hfresh (hb.uses (.inl heq))
  have hpgrp : ∀ b, s.Exists b → (s.task b).pgrp ≠ n := fun b hb heq => hfresh (hb.uses (.inr (.inl heq)))
  refine ⟨fun b c hb' hc' => ?_, fun b c hb' hc' => ?_, fun b c hb' hc' => ?_, fun b hb' => ?_, ?_, ?_⟩
  · obtain hb | rfl := hb'.link <;> obtain hc | rfl := hc'.link
    · rw [hother b hb, hother c hc]
      exact h.pid b c hb hc
    · rw [hother b hb, hself]
      exact fun heq => absurd heq (hpid b hb)
    · rw [hother c hc, hself]
      exact fun heq => absurd heq.symm (hpid c hc)
    · exact fun _ => rfl
  · obtain hb | rfl := hb'.link <;> obtain hc | rfl := hc'.link
    · rw [hother b hb, hother c hc]
      exact h.same b c hb hc
    · rw [hother b hb, hself]
      exact h.same b current hb hcur
    · rw [hother c hc, hself]
      exact h.same current c hcur hc
    · exact fun _ => rfl
  · obtain hb | rfl := hb'.link <;> obtain hc | rfl := hc'.link
    · rw [hother b hb, hother c hc]
      exact h.founder b c hb hc
    · rw [hother b hb, hself]
      exact fun heq => absurd heq (hpgrp b hb)
    · rw [hother c hc, hself]
      exact h.founder current c hcur hc
    · exact fun _ => rfl
  · obtain hb | rfl := hb'.link
    · rw [hother b hb]
      exact h.leader b hb
    · rw [hself]
      exact nofun
  · rw [hother 0 (.inl rfl)]
    exact h.initPgrp
  · intro h0
    obtain h0 | h0 := List.mem_append.mp h0
    · exact h.notMem h0
    · exact ha (List.mem_singleton.mp h0).symm

theorem grouped_boot : boot.Grouped where
  pid := by
    rintro a b (rfl | ha) (rfl | hb) -
    · rfl
    · cases hb
    · cases ha
    · cases ha
  same _ _ _ _ _ := rfl
  founder _ _ _ _ _ := rfl
  leader _ _ hl := absurd hl Bool.false_ne_true
  initPgrp := rfl
  notMem := List.not_mem_nil

/-! ### Calls of `do_fork` -/

/-- The new task of a call of `do_fork` is the copy that the call would make now, but for its number and group. -/
def Copied (s : Procs) : Prop := ∀ current f, s.forks current = some f →
  s.Runs current ∧ f.task = { s.child current with pid := f.task.pid, pgrp := f.task.pgrp }

theorem Copied.of_task (h : s.Copied) (hforks : ∀ b f, s'.forks b = some f → s.forks b = some f)
    (hruns : ∀ b, (s.forks b).isSome = true → s.Runs b → s'.Runs b ∧ (s'.task b).session = (s.task b).session) :
    s'.Copied := by
  intro b f hf
  obtain ⟨hr, hcopy⟩ := h b f (hforks b f hf)
  obtain ⟨hr', hsession⟩ := hruns b (by simp [hforks b f hf]) hr
  refine ⟨hr', hcopy.trans ?_⟩
  simp only [child, hsession]

theorem setTask_keeps (hr : s.Runs b) (hzombie : p.zombie = (s.task a).zombie)
    (hsession : b = a → p.session = (s.task a).session) :
    (s.setTask a p).Runs b ∧ ((s.setTask a p).task b).session = (s.task b).session := by
  obtain rfl | hb := eq_or_ne b a
  · rw [Procs.Runs, setTask_self, hzombie]
    exact ⟨hr, hsession rfl⟩
  · rw [Procs.Runs, setTask_of_ne hb]
    exact ⟨hr, rfl⟩

theorem Calls.ne (h : s.Calls current) (hb : (s.forks b).isSome = true) : b ≠ current := by
  rintro rfl
  rw [h.2] at hb
  cases hb

theorem Copied.taskStep {c : TaskCall} (h : s.Copied) (hc : taskStep s c = some s') : s'.Copied := by
  cases c with
  | exec current =>
    obtain ⟨-, rfl⟩ := of_guard hc
    exact h.of_task (fun _ _ => id) fun b _ hr => setTask_keeps hr rfl fun _ => rfl
  | init current =>
    obtain ⟨-, rfl⟩ := of_guard hc
    exact h
  | exit current =>
    obtain ⟨hcalls, rfl⟩ := of_guard hc
    refine h.of_task (fun _ _ => id) fun b hb hr => ?_
    rw [exitNotify, Procs.Runs, setTask_of_ne (hcalls.1.ne hb)]
    exact ⟨hr, rfl⟩
  | release a =>
    obtain ⟨ha, rfl⟩ := of_guard hc
    refine h.of_task (fun _ _ => id) fun b _ hr => ⟨hr.imp id fun hr => ⟨?_, hr.2⟩, rfl⟩
    have hne : b ≠ a := fun he => Bool.false_ne_true (hr.2.symm.trans (he ▸ ha.2))
    exact (List.mem_erase_of_ne hne).mpr hr.1
  | setpgid current pid pgid =>
    obtain ⟨-, rfl⟩ := of_guard hc
    obtain heq | ⟨a, -, m, heq, -⟩ := s.sysSetpgid_cases current pid pgid
    · rw [heq]
      exact h
    · rw [heq]
      exact h.of_task (fun _ _ => id) fun b _ hr => setTask_keeps hr rfl fun _ => rfl
  | setsid current =>
    obtain ⟨hcalls, rfl⟩ := of_guard hc
    unfold Procs.sysSetsid
    dsimp only
    split
    · exact h
    · exact h.of_task (fun _ _ => id) fun b hb hr => setTask_keeps hr rfl fun he => absurd he (hcalls.ne hb)

theorem setFork_forks {f : Option Fork} {g : Fork} (h : (s.setFork current f).forks b = some g) :
    b = current ∧ f = some g ∨ s.forks b = some g := by
  dsimp only [setFork] at h
  obtain rfl | hb := eq_or_ne b current
  · rw [Function.update_self] at h
    exact .inl ⟨rfl, h⟩
  · rw [Function.update_of_ne hb] at h
    exact .inr h

theorem Copied.step {c : Call} (h : s.Copied) (hc : step s c = some s') : s'.Copied := by
  cases c with
  | fork current =>
    obtain ⟨hcalls, rfl⟩ := of_guard hc
    intro b f hf
    obtain ⟨rfl, hnew⟩ | hf := setFork_forks hf
    · cases hnew
      exact ⟨hcalls.1, rfl⟩
    · exact h b f hf
  | getPid current =>
    dsimp only [ProcessIds.step] at hc
    split at hc
    case h_1 p hp =>
      obtain ⟨pids, -, rfl⟩ := Option.map_eq_some_iff.mp hc
      intro b f hf
      obtain ⟨rfl, hnew⟩ | hf := setFork_forks (s := s) (f := some ⟨{ p with pid := pids.lastPid }, true⟩) hf
      · cases hnew
        obtain ⟨hr, hcopy⟩ := h b _ hp
        exact ⟨hr, congrArg (fun q : Task => { q with pid := pids.lastPid }) hcopy⟩
      · exact h b f hf
    · cases hc
  | link current a =>
    dsimp only [ProcessIds.step] at hc
    split at hc
    case h_1 p hp =>
      obtain ⟨ha, rfl⟩ := of_guard hc
      refine h.of_task (fun b f hf => ?_) fun b _ hr => ?_
      · exact (setFork_forks hf).elim (fun h => absurd h.2 (by simp)) id
      · have hne : b ≠ a := fun he => (he ▸ hr).elim ha.1 fun h => ha.2 h.1
        refine ⟨hr.imp id fun hr => ⟨List.mem_append_left _ hr.1, ?_⟩, ?_⟩
        · rw [link, setTask_of_ne hne]
          exact hr.2
        · rw [link, setTask_of_ne hne]
          rfl
    · cases hc
  | fail current =>
    obtain ⟨-, rfl⟩ := of_guard hc
    exact fun b f hf => h b f ((setFork_forks hf).elim (fun h => absurd h.2 (by simp)) id)
  | task c => exact h.taskStep hc

theorem Grouped.step {c : Call} (h : s.Grouped) (hcopied : s.Copied) (hkeeps : keepsGroups s c = true)
    (hc : step s c = some s') : s'.Grouped := by
  cases c with
  | fork current | fail current =>
    obtain ⟨-, rfl⟩ := of_guard hc
    exact h.of_numbers (fun _ => id) fun _ => rfl
  | getPid current =>
    dsimp only [ProcessIds.step] at hc
    split at hc
    · obtain ⟨pids, -, rfl⟩ := Option.map_eq_some_iff.mp hc
      exact h.of_numbers (fun _ => id) fun _ => rfl
    · cases hc
  | link current a =>
    dsimp only [ProcessIds.step] at hc
    split at hc
    case h_1 p hp =>
      obtain ⟨ha, rfl⟩ := of_guard hc
      obtain ⟨hfresh, hpgrp⟩ : ¬ s.Uses p.pid ∧ p.pgrp = (s.task current).pgrp := by
        simpa [keepsGroups, hp] using hkeeps
      obtain ⟨hr, hcopy⟩ := hcopied current _ hp
      have hgroup : (s.setFork current none).Grouped := h.of_numbers (fun _ => id) fun _ => rfl
      have hchild : p = { s.child current with pid := p.pid } := by
        rw [hpgrp] at hcopy
        exact hcopy
      rw [hchild]
      exact hgroup.fork hr ha.1 ha.2 hfresh
    · cases hc
  | task c => exact h.taskStep hc

end Procs

/-! ### Runs -/

variable {s : Procs}

/-- **Process groups and sessions.** In every run in which a task that is linked has a new number and is in the group of its
parent, two tasks of one group are in one session, and the leader of a session has its own number as group and session. -/
theorem groups_within_sessions (hr : ReachesBy step (fun s c => keepsGroups s c = true) boot s) :
    (∀ a b, s.Exists a → s.Exists b → (s.task a).pgrp = (s.task b).pgrp →
      (s.task a).session = (s.task b).session) ∧
    ∀ a, s.Exists a → (s.task a).leader = true →
      (s.task a).pgrp = (s.task a).pid ∧ (s.task a).session = (s.task a).pid := by
  have h : s.Grouped ∧ s.Copied := by
    refine hr.invariant (I := fun s => s.Grouped ∧ s.Copied) ⟨Procs.grouped_boot, fun _ _ h => ?_⟩ ?_
    · cases h
    · exact fun _ _ _ h hk hc => ⟨h.1.step h.2 hk hc, h.2.step hc⟩
  exact ⟨h.1.same, h.1.leader⟩

open Procs (forkCalls)

/-- A shell with a job of three processes; the one that founded the group has exited. -/
def jobs : List Call :=
  forkCalls 0 1 ++ .task (.setsid 1) :: forkCalls 1 2 ++ .task (.setpgid 1 2 2) :: forkCalls 1 3 ++
    .task (.setpgid 3 0 2) :: forkCalls 3 4 ++ [.task (.exit 2), .task (.release 2)]

theorem groups_within_sessions_jobs : ∃ s, exec step keepsGroups boot jobs = some s ∧
    (s.task 3).pgrp = 2 ∧ (s.task 4).pgrp = 2 ∧ (s.task 3).session = (s.task 4).session := by
  have hrun : ((exec step keepsGroups boot jobs).map fun s =>
      decide (s.order = [1, 3, 4] ∧ (s.task 3).pgrp = 2 ∧ (s.task 4).pgrp = 2)) = some true := by
    decide +kernel
  obtain ⟨s, hs, h⟩ := Option.map_eq_some_iff.mp hrun
  obtain ⟨horder, hpgrp3, hpgrp4⟩ := of_decide_eq_true h
  have h3 : s.Exists 3 := .inr (by rw [horder]; decide)
  have h4 : s.Exists 4 := .inr (by rw [horder]; decide)
  exact ⟨s, hs, hpgrp3, hpgrp4, (groups_within_sessions (ReachesBy.of_exec jobs boot s hs)).1 3 4 h3 h4
    (hpgrp3.trans hpgrp4.symm)⟩

/-- Task 3 is in the group 2, which its founder has left.  It forks and sleeps; its parent moves it to another group, and the
founder of the old one makes a new session. -/
def race : List Call :=
  forkCalls 0 1 ++ .task (.setsid 1) :: forkCalls 1 2 ++ .task (.setpgid 2 0 0) :: forkCalls 1 3 ++
    [.task (.setpgid 3 0 2), .task (.setpgid 1 2 1), .fork 3, .getPid 3, .task (.setpgid 1 3 1), .task (.setsid 2),
      .link 3 4]

/-- The copy that is linked then, whose number was not in use, is in the group of the new session and in the old session. -/
theorem fork_races_setsid : ∃ s, Reaches step boot s ∧ s.Exists 2 ∧ s.Exists 4 ∧ s.tasks.Pairwise (·.pid ≠ ·.pid) ∧
    (s.task 4).pgrp = (s.task 2).pgrp ∧ (s.task 4).session ≠ (s.task 2).session := by
  obtain ⟨s, hr, h⟩ : ∃ s, Reaches step boot s ∧ (2 ∈ s.order ∧ 4 ∈ s.order ∧ s.tasks.Pairwise (·.pid ≠ ·.pid) ∧
      (s.task 4).pgrp = (s.task 2).pgrp ∧ (s.task 4).session ≠ (s.task 2).session) :=
    Reaches.exists_of_exec race (by decide +kernel)
  exact ⟨s, hr, .inr h.1, .inr h.2.1, h.2.2⟩

end I370Linux.ProcessIds
