import I370Linux.Runs

/-! # Process ids

The model of `get_pid` (`kernel/fork.c`) and of the calls that give a task its pid, process group and
session: `do_fork`, `sys_setpgid` and `sys_setsid` (`kernel/sys.c`), and of the exit and the release of
a task (`kernel/exit.c`).

`do_fork` copies the `task_struct` of its caller, may sleep, takes a number, may sleep again, and links the
new task at last; these are three steps of the model.

`get_pid` remembers in `next_safe` a number such that nothing between `last_pid` and it is in use.  All
calls keep that (`Procs.Sound`) but the link of a task whose numbers lie between the two by now; and the search
ends whenever there is an unused number.  The number it ends at is in use exactly if one task has it and the
number before it (`getPid_fresh`): the loop moves on from a number that a task has without looking at the other
numbers of that task again. -/

namespace I370Linux.ProcessIds

open Runs List

abbrev PID_MAX : ℕ := 0x8000

/-- The address of a `task_struct`; `init_task` is at 0. -/
abbrev Addr := ℕ

structure Task where
  pid : ℕ
  pgrp : ℕ
  session : ℕ
  leader : Bool
  didExec : Bool
  zombie : Bool
  pptr : Addr
  opptr : Addr
deriving DecidableEq, Repr

/-- One of the three numbers of a task, as the loop of `get_pid` tests it. -/
def Task.HasId (p : Task) (n : ℕ) : Prop := p.pid = n ∨ p.pgrp = n ∨ p.session = n

instance (p : Task) (n : ℕ) : Decidable (p.HasId n) := inferInstanceAs (Decidable (_ ∨ _ ∨ _))

/-! ### The search for a number -/

/-- The two static variables of `get_pid`. -/
structure Pids where
  lastPid : ℕ
  nextSafe : ℕ
deriving DecidableEq, Repr

namespace Pids

/-- `if(id > last_pid && next_safe > id) next_safe = id`. -/
def lower (s : Pids) (id : ℕ) : Pids :=
  if id > s.lastPid ∧ s.nextSafe > id then { s with nextSafe := id } else s

/-- The body of the loop for one task; `error` is the jump to `repeat`. -/
def visit (s : Pids) (p : Task) : Except Pids Pids :=
  if p.HasId s.lastPid then
    let lastPid := s.lastPid + 1
    if lastPid ≥ s.nextSafe then
      .error ⟨if lastPid &&& 0xffff8000 ≠ 0 then 300 else lastPid, PID_MAX⟩
    else .ok (((Pids.mk lastPid s.nextSafe).lower p.pid).lower p.pgrp |>.lower p.session)
  else .ok ((s.lower p.pid).lower p.pgrp |>.lower p.session)

def pass (s : Pids) : List Task → Except Pids Pids
  | [] => .ok s
  | p :: ps =>
    match s.visit p with
    | .error s' => .error s'
    | .ok s' => s'.pass ps

/-- The passes; each unit of fuel is one jump to `repeat`. -/
def search (tasks : List Task) : ℕ → Pids → Option Pids
  | 0, _ => none
  | fuel + 1, s =>
    match s.pass tasks with
    | .ok s' => some s'
    | .error s' => search tasks fuel s'

/-- `get_pid` without `CLONE_PID`; the result is the new `last_pid`. -/
def getPid (tasks : List Task) (fuel : ℕ) (s : Pids) : Option Pids :=
  let lastPid := s.lastPid + 1
  if lastPid &&& 0xffff8000 ≠ 0 then search tasks fuel ⟨300, PID_MAX⟩
  else if lastPid ≥ s.nextSafe then search tasks fuel ⟨lastPid, PID_MAX⟩
  else some ⟨lastPid, s.nextSafe⟩

end Pids

open Pids (search getPid)

/-- The passes that a search for an unused number never exceeds. -/
abbrev passes : ℕ := 2 * PID_MAX

/-! ### The calls -/

/-- The new `task_struct` of a call of `do_fork`, and whether it has its number. -/
structure Fork where
  task : Task
  numbered : Bool
deriving DecidableEq, Repr

/-- The tasks in the order of `next_task`, without `init_task`, what `get_pid` remembers, and the calls of `do_fork`
by their callers. -/
structure Procs where
  order : List Addr
  task : Addr → Task
  childReaper : Addr
  pids : Pids
  forks : Addr → Option Fork

namespace Procs

def setTask (s : Procs) (a : Addr) (p : Task) : Procs := { s with task := Function.update s.task a p }

/-- The tasks that `for_each_task` goes through. -/
def tasks (s : Procs) : List Task := s.order.map s.task

/-- `find_task_by_pid`; `hash_pid` puts a new task at the head of its chain. -/
def findTaskByPid (s : Procs) (pid : ℤ) : Option Addr :=
  s.order.reverse.find? fun a => (s.task a).pid = pid

/-- `*p = *current` in `do_fork`, with the fields that are set behind it. -/
def child (s : Procs) (current : Addr) : Task :=
  { s.task current with leader := false, didExec := false, zombie := false, pptr := current, opptr := current }

/-- `SET_LINKS` for a new task. -/
def link (s : Procs) (a : Addr) (p : Task) : Procs :=
  { s.setTask a p with order := s.order ++ [a] }

def setFork (s : Procs) (current : Addr) (f : Option Fork) : Procs :=
  { s with forks := Function.update s.forks current f }

/-- `forget_original_parent` and the children in `exit_notify`. -/
def reparent (s : Procs) (father : Addr) (p : Task) : Task :=
  let opptr := if p.opptr = father then s.childReaper else p.opptr
  { p with opptr := opptr, pptr := if p.pptr = father then opptr else p.pptr }

def exitNotify (s : Procs) (a : Addr) : Procs :=
  let s := { s with task := fun b => s.reparent a (s.task b) }
  s.setTask a { s.task a with zombie := true }

def release (s : Procs) (a : Addr) : Procs := { s with order := s.order.erase a }

def EPERM : ℤ := 1
def ESRCH : ℤ := 3
def EACCES : ℤ := 13
def EINVAL : ℤ := 22

def sysSetpgid (s : Procs) (current : Addr) (pid pgid : ℤ) : ℤ × Procs :=
  let pid := if pid = 0 then ((s.task current).pid : ℤ) else pid
  let pgid := if pgid = 0 then pid else pgid
  if pgid < 0 then (-EINVAL, s)
  else
    match s.findTaskByPid pid with
    | none => (-ESRCH, s)
    | some a =>
      let p := s.task a
      let isChild := p.pptr = current ∨ p.opptr = current
      if isChild ∧ p.session ≠ (s.task current).session then (-EPERM, s)
      else if isChild ∧ p.didExec then (-EACCES, s)
      else if ¬ isChild ∧ a ≠ current then (-ESRCH, s)
      else if p.leader then (-EPERM, s)
      else if pgid ≠ pid ∧ ¬ ∃ tmp ∈ s.tasks,
          (tmp.pgrp : ℤ) = pgid ∧ tmp.session = (s.task current).session then (-EPERM, s)
      else (0, s.setTask a { p with pgrp := pgid.toNat })

def sysSetsid (s : Procs) (current : Addr) : ℤ × Procs :=
  let p := s.task current
  if ∃ q ∈ s.tasks, q.pgrp = p.pid then (-EPERM, s)
  else (p.pid, s.setTask current { p with leader := true, session := p.pid, pgrp := p.pid })

/-- A task that can run: `init_task` or one that has not exited. -/
def Runs (s : Procs) (a : Addr) : Prop := a = 0 ∨ a ∈ s.order ∧ (s.task a).zombie = false

/-- A task that can make a call: it runs, and is not in `do_fork`. -/
def Calls (s : Procs) (a : Addr) : Prop := s.Runs a ∧ s.forks a = none

instance (s : Procs) (a : Addr) : Decidable (s.Calls a) := inferInstanceAs (Decidable ((_ ∨ _ ∧ _) ∧ _))

end Procs

/-- The calls that make no task; `current` is the task that makes the call.  `init` is the thread of that
name (`init/main.c`), which becomes `child_reaper`. -/
inductive TaskCall where
  | exec (current : Addr)
  | init (current : Addr)
  | exit (current : Addr)
  | release (a : Addr)
  | setpgid (current : Addr) (pid pgid : ℤ)
  | setsid (current : Addr)
deriving DecidableEq, Repr

/-- One of these calls.  Only a task that has exited is released. -/
def taskStep (s : Procs) : TaskCall → Option Procs
  | .exec current =>
    if s.Calls current then some (s.setTask current { s.task current with didExec := true }) else none
  | .init current => if s.Calls current then some { s with childReaper := current } else none
  | .exit current => if s.Calls current ∧ current ≠ 0 then some (s.exitNotify current) else none
  | .release a => if a ∈ s.order ∧ (s.task a).zombie then some (s.release a) else none
  | .setpgid current pid pgid => if s.Calls current then some (s.sysSetpgid current pid pgid).2 else none
  | .setsid current => if s.Calls current then some (s.sysSetsid current).2 else none

/-- The steps of `do_fork`, which may sleep between them and may fail, and the other calls. -/
inductive Call where
  | fork (current : Addr)
  | getPid (current : Addr)
  | link (current a : Addr)
  | fail (current : Addr)
  | task (c : TaskCall)
deriving DecidableEq, Repr

/-- One step.  The address of a new `task_struct`, which is not in use, is named when it is linked. -/
def step (s : Procs) : Call → Option Procs
  | .fork current => if s.Calls current then some (s.setFork current (some ⟨s.child current, false⟩)) else none
  | .getPid current =>
    match s.forks current with
    | some ⟨p, false⟩ => (s.pids.getPid s.tasks passes).map fun pids =>
      { s with pids := pids }.setFork current (some ⟨{ p with pid := pids.lastPid }, true⟩)
    | _ => none
  | .link current a =>
    match s.forks current with
    | some ⟨p, true⟩ => if a ≠ 0 ∧ a ∉ s.order then some ((s.setFork current none).link a p) else none
    | _ => none
  | .fail current => if (s.forks current).isSome then some (s.setFork current none) else none
  | .task c => taskStep s c

/-- The numbers of a task that is linked do not lie between `last_pid` and `next_safe`. -/
def keepsSafe (s : Procs) : Call → Bool
  | .link current _ => (s.forks current).all fun f =>
    [f.task.pid, f.task.pgrp, f.task.session].all fun n => n ≤ s.pids.lastPid || s.pids.nextSafe ≤ n
  | _ => true

/-- `init_task` alone, as the kernel starts. -/
def boot : Procs where
  order := []
  task _ := ⟨0, 0, 0, false, false, false, 0, 0⟩
  childReaper := 0
  pids := ⟨0, PID_MAX⟩
  forks _ := none

/-! ### One pass of the search -/

section Search

variable {p : Task} {tasks : List Task} {s s' : Pids} {n : ℕ}

theorem land_high_eq_zero_iff (h : n ≤ PID_MAX) : n &&& 0xffff8000 = 0 ↔ n < PID_MAX := by
  constructor
  · intro h0
    obtain hlt | rfl := h.lt_or_eq
    · exact hlt
    · cases h0
  · intro hlt
    have hmask : n % 2 ^ 15 = n := Nat.mod_eq_of_lt hlt
    rw [← hmask, ← Nat.and_two_pow_sub_one_eq_mod, Nat.and_assoc]
    exact Nat.and_zero n

theorem lower_spec (h : s.lastPid < s.nextSafe) (id : ℕ) :
    (s.lower id).lastPid = s.lastPid ∧ (s.lower id).nextSafe ≤ s.nextSafe ∧ s.lastPid < (s.lower id).nextSafe ∧
      (id ≤ s.lastPid ∨ (s.lower id).nextSafe ≤ id) := by
  unfold Pids.lower
  split_ifs with hid
  · exact ⟨rfl, hid.2.le, hid.1, .inr le_rfl⟩
  · rw [not_and_or, not_lt, not_lt] at hid
    exact ⟨rfl, le_rfl, h, hid⟩

/-- Where a search stands behind some tasks: nothing between the two numbers is in use by them. -/
structure Clear (s : Pids) (tasks : List Task) : Prop where
  lt : s.lastPid < s.nextSafe
  outside : ∀ p ∈ tasks, ∀ n, p.HasId n → n ≤ s.lastPid ∨ s.nextSafe ≤ n

/-- The loop body has seen `p`. -/
structure Narrowed (p : Task) (s s' : Pids) : Prop where
  lastPid : s'.lastPid = s.lastPid
  nextSafe : s'.nextSafe ≤ s.nextSafe
  lt : s.lastPid < s'.nextSafe
  outside : ∀ n, p.HasId n → n ≤ s.lastPid ∨ s'.nextSafe ≤ n

theorem narrowed_lower (h : s.lastPid < s.nextSafe) (p : Task) :
    Narrowed p s (((s.lower p.pid).lower p.pgrp).lower p.session) := by
  have hpid := lower_spec h p.pid
  have hpgrp := lower_spec (hpid.1.trans_lt hpid.2.2.1) p.pgrp
  have hsession := lower_spec (hpgrp.1.trans_lt hpgrp.2.2.1) p.session
  refine ⟨by omega, by omega, by omega, ?_⟩
  rintro n (rfl | rfl | rfl) <;> omega

/-- What the body of the loop does when it goes on to the next task. -/
structure Visited (p : Task) (s s' : Pids) : Prop where
  lastPid : s'.lastPid = s.lastPid ∧ ¬ p.HasId s.lastPid ∨
    s'.lastPid = s.lastPid + 1 ∧ p.HasId s.lastPid
  nextSafe : s'.nextSafe ≤ s.nextSafe
  lt : s'.lastPid < s'.nextSafe
  outside : ∀ n, p.HasId n → n ≤ s'.lastPid ∨ s'.nextSafe ≤ n

theorem visit_ok (hlt : s.lastPid < s.nextSafe) (h : s.visit p = .ok s') : Visited p s s' := by
  unfold Pids.visit at h
  split at h
  case isTrue hid =>
    dsimp only at h
    split at h
    · cases h
    case isFalse hsafe =>
      obtain rfl := Except.ok.inj h
      have hn := @narrowed_lower ⟨s.lastPid + 1, s.nextSafe⟩ (not_le.mp hsafe) p
      exact ⟨.inr ⟨hn.lastPid, hid⟩, hn.nextSafe, hn.lastPid ▸ hn.lt, hn.lastPid ▸ hn.outside⟩
  case isFalse hid =>
    obtain rfl := Except.ok.inj h
    have hn := narrowed_lower hlt p
    exact ⟨.inl ⟨hn.lastPid, hid⟩, hn.nextSafe, hn.lastPid ▸ hn.lt, hn.lastPid ▸ hn.outside⟩

theorem visit_error (h : s.visit p = .error s') : p.HasId s.lastPid ∧
    s' = ⟨if (s.lastPid + 1) &&& 0xffff8000 ≠ 0 then 300 else s.lastPid + 1, PID_MAX⟩ := by
  unfold Pids.visit at h
  split at h
  case isTrue hid =>
    dsimp only at h
    split at h
    · exact ⟨hid, (Except.error.inj h).symm⟩
    · cases h
  case isFalse hid => cases h

def Used (tasks : List Task) (n : ℕ) : Prop := ∃ p ∈ tasks, p.HasId n

instance (tasks : List Task) (n : ℕ) : Decidable (Used tasks n) :=
  inferInstanceAs (Decidable (∃ p ∈ tasks, p.HasId n))

theorem Used.tail (h : Used tasks n) : Used (p :: tasks) n := by
  obtain ⟨q, hq, hid⟩ := h
  exact ⟨q, mem_cons_of_mem p hq, hid⟩

theorem Used.head (h : p.HasId n) : Used (p :: tasks) n := ⟨p, mem_cons_self, h⟩

/-- A pass that comes to its end.  It moves `last_pid` only past numbers in use; and it can end at a
number in use only behind a task that has the number before, too. -/
structure Passed (tasks : List Task) (s s' : Pids) : Prop extends Clear s' tasks where
  le : s.lastPid ≤ s'.lastPid
  nextSafe : s'.nextSafe ≤ s.nextSafe
  used : ∀ n, s.lastPid ≤ n → n < s'.lastPid → Used tasks n
  stop : ∀ p ∈ tasks, p.HasId s'.lastPid → s.lastPid < s'.lastPid ∧ p.HasId (s'.lastPid - 1)

theorem Passed.nil (hlt : s.lastPid < s.nextSafe) : Passed [] s s where
  lt := hlt
  outside := fun _ hp => absurd hp not_mem_nil
  le := le_rfl
  nextSafe := le_rfl
  used := fun _ h h' => absurd (h.trans_lt h') (lt_irrefl _)
  stop := fun _ hp => absurd hp not_mem_nil

theorem Passed.cons {s₁ : Pids} (hv : Visited p s s₁) (hp : Passed tasks s₁ s') :
    Passed (p :: tasks) s s' := by
  have hle : s.lastPid ≤ s₁.lastPid := by
    obtain h | h := hv.lastPid
    · exact h.1.ge
    · omega
  constructor
  · refine ⟨hp.lt, fun q hq n hid => ?_⟩
    obtain rfl | hq := mem_cons.mp hq
    · exact (hv.outside n hid).imp (fun h => h.trans hp.le) fun h => hp.nextSafe.trans h
    · exact hp.outside q hq n hid
  · exact hle.trans hp.le
  · exact hp.nextSafe.trans hv.nextSafe
  · intro n hn hn'
    by_cases h : s₁.lastPid ≤ n
    · exact (hp.used n h hn').tail
    -- the visit of the first task moved on from this number
    obtain hl | ⟨hl, hid⟩ := hv.lastPid
    · omega
    · obtain rfl : n = s.lastPid := by omega
      exact Used.head hid
  · intro q hq hid
    obtain rfl | hq := mem_cons.mp hq
    · -- the number lies below `next_safe`, so it is where the visit of this task left `last_pid`
      have heq : s'.lastPid = s₁.lastPid := by
        obtain h | h := hv.outside _ hid
        · exact le_antisymm h hp.le
        · exact absurd (hp.nextSafe.trans h) (not_le.mpr hp.lt)
      obtain ⟨hl, hnot⟩ | ⟨hl, hprev⟩ := hv.lastPid
      · rw [heq, hl] at hid
        exact absurd hid hnot
      · rw [heq, hl]
        exact ⟨Nat.lt_succ_self _, hprev⟩
    · obtain ⟨hlt, hprev⟩ := hp.stop q hq hid
      exact ⟨hle.trans_lt hlt, hprev⟩

theorem pass_ok : ∀ (tasks : List Task) {s s' : Pids}, s.lastPid < s.nextSafe →
    s.pass tasks = .ok s' → Passed tasks s s'
  | [], s, s', hlt, h => by
    obtain rfl := Except.ok.inj h
    exact .nil hlt
  | p :: ps, s, s', hlt, h => by
    unfold Pids.pass at h
    split at h
    · cases h
    case h_2 s₁ hv =>
      have hv := visit_ok hlt hv
      exact .cons hv (pass_ok ps hv.lt h)

theorem pass_error : ∀ (tasks : List Task) {s s' : Pids}, s.lastPid < s.nextSafe →
    s.pass tasks = .error s' → ∃ m, s.lastPid ≤ m ∧ m < s.nextSafe ∧
      (∀ n, s.lastPid ≤ n → n ≤ m → Used tasks n) ∧
      s' = ⟨if (m + 1) &&& 0xffff8000 ≠ 0 then 300 else m + 1, PID_MAX⟩
  | [], s, s', hlt, h => absurd h (by simp [Pids.pass])
  | p :: ps, s, s', hlt, h => by
    unfold Pids.pass at h
    split at h
    case h_1 s₁ hv =>
      obtain rfl := Except.error.inj h
      obtain ⟨hid, rfl⟩ := visit_error hv
      refine ⟨s.lastPid, le_rfl, hlt, fun n hn hn' => ?_, rfl⟩
      obtain rfl := le_antisymm hn' hn
      exact Used.head hid
    case h_2 s₁ hv =>
      have hv := visit_ok hlt hv
      obtain ⟨m, hm, hm', hused, rfl⟩ := pass_error ps hv.lt h
      have hnext := hv.nextSafe
      obtain ⟨hl, -⟩ | ⟨hl, hid⟩ := hv.lastPid
      · refine ⟨m, hl ▸ hm, hm'.trans_le hnext, fun n hn hn' => ?_, rfl⟩
        exact (hused n (hl ▸ hn) hn').tail
      · refine ⟨m, by omega, hm'.trans_le hnext, fun n hn hn' => ?_, rfl⟩
        obtain rfl | hn := hn.eq_or_lt
        · exact Used.head hid
        · exact (hused n (by omega) hn').tail

/-! ### The passes -/

/-- The numbers from `b` to `n` are in use, those from `b` to `PID_MAX` and then from 300 on if the search has wrapped
around. -/
def Scanned (tasks : List Task) (b n : ℕ) : Prop :=
  (b ≤ n ∧ ∀ m, b ≤ m → m < n → Used tasks m) ∨
    300 ≤ n ∧ (∀ m, b ≤ m → m < PID_MAX → Used tasks m) ∧ ∀ m, 300 ≤ m → m < n → Used tasks m

variable {b m : ℕ}

theorem Scanned.extend (h : Scanned tasks b n) (hle : n ≤ m) (hused : ∀ k, n ≤ k → k < m → Used tasks k) :
    Scanned tasks b m := by
  obtain ⟨hb, hall⟩ | ⟨h300, htop, hall⟩ := h
  · refine .inl ⟨hb.trans hle, fun k hk hkm => ?_⟩
    exact (lt_or_ge k n).elim (hall k hk) fun hn => hused k hn hkm
  · refine .inr ⟨h300.trans hle, htop, fun k hk hkm => ?_⟩
    exact (lt_or_ge k n).elim (hall k hk) fun hn => hused k hn hkm

/-- A search that begins again behind `m`, at 300 if that is the last number. -/
theorem Scanned.again (hbm : b ≤ m) (hused : ∀ k, b ≤ k → k ≤ m → Used tasks k) {start : ℕ}
    (hstart : start = m + 1 ∨ start = 300 ∧ m + 1 = PID_MAX) (h : Scanned tasks start n) : Scanned tasks b n := by
  obtain rfl | ⟨rfl, htop⟩ := hstart
  · have hbelow : ∀ k hi, b ≤ k → k < hi → (m + 1 ≤ k → Used tasks k) → Used tasks k := fun k _ hk _ h =>
      (le_or_gt k m).elim (hused k hk) h
    obtain ⟨hn, hall⟩ | ⟨h300, htop, hall⟩ := h
    · exact .inl ⟨by omega, fun k hk hkn => hbelow k n hk hkn fun hm => hall k hm hkn⟩
    · exact .inr ⟨h300, fun k hk hkn => hbelow k _ hk hkn fun hm => htop k hm hkn, hall⟩
  · have hall : ∀ k, b ≤ k → k < PID_MAX → Used tasks k := fun k hk hlt => hused k hk (by omega)
    obtain ⟨h300, hused⟩ | ⟨h300, -, hused⟩ := h <;> exact .inr ⟨h300, hall, hused⟩

theorem search_some : ∀ (fuel : ℕ) {s s' : Pids}, s.lastPid < PID_MAX → s.nextSafe = PID_MAX →
    search tasks fuel s = some s' →
    ∃ s₀ : Pids, Scanned tasks s.lastPid s₀.lastPid ∧ s₀.nextSafe = PID_MAX ∧ Passed tasks s₀ s'
  | 0, s, s', _, _, h => absurd h (by simp [search])
  | fuel + 1, s, s', hlast, hsafe, h => by
    have hlt : s.lastPid < s.nextSafe := hsafe ▸ hlast
    unfold search at h
    split at h
    case h_1 s₁ hp =>
      cases h
      exact ⟨s, .inl ⟨le_rfl, fun m h h' => absurd h h'.not_ge⟩, hsafe, pass_ok tasks hlt hp⟩
    case h_2 s₁ hp =>
      obtain ⟨m, hm, hm', hused, rfl⟩ := pass_error tasks hlt hp
      have hstart : (if (m + 1) &&& 0xffff8000 ≠ 0 then 300 else m + 1) = m + 1 ∧ m + 1 < PID_MAX ∨
          (if (m + 1) &&& 0xffff8000 ≠ 0 then 300 else m + 1) = 300 ∧ m + 1 = PID_MAX := by
        have hiff := land_high_eq_zero_iff (n := m + 1) (by omega)
        split_ifs with hbit
        · exact .inr ⟨rfl, by rw [Ne, hiff] at hbit; omega⟩
        · exact .inl ⟨rfl, hiff.mp (not_not.mp hbit)⟩
      have hlow : (if (m + 1) &&& 0xffff8000 ≠ 0 then 300 else m + 1) < PID_MAX :=
        hstart.elim (fun h => h.1.trans_lt h.2) fun h => h.1.trans_lt (by decide)
      obtain ⟨s₀, h₀, hsafe₀, hpassed⟩ := search_some fuel hlow rfl h
      exact ⟨s₀, h₀.again hm hused (hstart.imp And.left id), hsafe₀, hpassed⟩

variable {fuel u : ℕ}

/-- What holds between calls: `last_pid` is a pid or 0, and nothing between it and `next_safe` is in
use. -/
structure Sound (s : Pids) (tasks : List Task) : Prop extends Clear s tasks where
  nextSafe : s.nextSafe ≤ PID_MAX

/-- Where a search for a number begins. -/
def Pids.first (s : Pids) : ℕ := if s.lastPid + 1 < PID_MAX then s.lastPid + 1 else 300

/-- `get_pid` returned `s'.lastPid`: it is a number below the old `next_safe`, or it is where a pass
over the tasks ended. -/
theorem getPid_some (hs : Sound s tasks) (h : s.getPid tasks fuel = some s') :
    1 ≤ s'.lastPid ∧ Sound s' tasks ∧ ∀ p ∈ tasks, p.HasId s'.lastPid → p.HasId (s'.lastPid - 1) ∧
      s.nextSafe ≤ s.lastPid + 1 ∧ Scanned tasks s.first (s'.lastPid - 1) := by
  have hlast : s.lastPid + 1 ≤ PID_MAX := hs.lt.trans_le hs.nextSafe
  have hsearch : ∀ n, 1 ≤ n → n < PID_MAX → n = s.first → s.nextSafe ≤ s.lastPid + 1 →
      search tasks fuel ⟨n, PID_MAX⟩ = some s' → 1 ≤ s'.lastPid ∧ Sound s' tasks ∧
        ∀ p ∈ tasks, p.HasId s'.lastPid → p.HasId (s'.lastPid - 1) ∧
          s.nextSafe ≤ s.lastPid + 1 ∧ Scanned tasks s.first (s'.lastPid - 1) := by
    rintro n hn hn' rfl hsafe h
    obtain ⟨s₀, h₀, hsafe₀, hp⟩ := search_some fuel hn' rfl h
    have hpos : 1 ≤ s₀.lastPid := by
      obtain ⟨h₀, -⟩ | ⟨h₀, -⟩ := h₀
      · exact hn.trans h₀
      · omega
    refine ⟨hpos.trans hp.le, ⟨hp.toClear, hsafe₀ ▸ hp.nextSafe⟩, fun p hm hid => ?_⟩
    obtain ⟨hlt, hprev⟩ := hp.stop p hm hid
    exact ⟨hprev, hsafe, h₀.extend (by omega) fun k hk hk' => hp.used k hk (by omega)⟩
  unfold getPid at h
  dsimp only at h
  have hiff := land_high_eq_zero_iff hlast
  have hnext := hs.nextSafe
  split at h
  case isTrue hbit =>
    have hlow : ¬ s.lastPid + 1 < PID_MAX := fun hlt => hbit (hiff.mpr hlt)
    exact hsearch 300 (by decide) (by decide) (if_neg hlow).symm (by omega) h
  case isFalse hbit =>
    have hlow := hiff.mp (not_not.mp hbit)
    split at h
    case isTrue hsafe => exact hsearch _ (Nat.le_add_left 1 _) hlow (if_pos hlow).symm hsafe h
    case isFalse hsafe =>
      cases h
      have houtside : ∀ p ∈ tasks, ∀ n, p.HasId n → n ≤ s.lastPid ∨ s.nextSafe ≤ n := hs.outside
      refine ⟨Nat.le_add_left 1 _, ⟨⟨not_le.mp hsafe, fun p hp n hid => ?_⟩, hs.nextSafe⟩, fun p hp hid => ?_⟩
      · exact (houtside p hp n hid).imp (fun h => h.trans (Nat.le_succ _)) id
      · obtain h | h := houtside p hp _ hid
        · exact absurd h (Nat.not_succ_le_self _)
        · exact absurd h hsafe

end Search

/-! ### Runs -/

theorem Clear.of_used {s : Pids} {tasks : List Task} {n : ℕ} (h : Clear s tasks) (hused : Used tasks n) :
    n ≤ s.lastPid ∨ s.nextSafe ≤ n := by
  obtain ⟨q, hq, hid⟩ := hused
  exact h.outside q hq n hid

namespace Procs

variable {s s' : Procs} {a : Addr} {p q : Task} {n : ℕ}

/-- A number that an existing task has, `init_task` among them. -/
def Uses (s : Procs) (n : ℕ) : Prop := Used (s.task 0 :: s.tasks) n

instance (s : Procs) (n : ℕ) : Decidable (s.Uses n) := inferInstanceAs (Decidable (Used _ n))

structure Sound (s : Procs) : Prop extends ProcessIds.Sound s.pids s.tasks where
  initTask : ∀ n, (s.task 0).HasId n → n = 0
  notMem : 0 ∉ s.order

theorem mem_tasks (h : a ∈ s.order) : s.task a ∈ s.tasks := mem_map_of_mem h

theorem Sound.runs (hs : s.Sound) (h : s.Runs a) (hid : (s.task a).HasId n) :
    n ≤ s.pids.lastPid ∨ s.pids.nextSafe ≤ n := by
  obtain rfl | ⟨h, -⟩ := h
  · rw [hs.initTask n hid]
    exact .inl (Nat.zero_le _)
  · exact hs.outside _ (mem_tasks h) n hid

theorem setTask_self (s : Procs) (a : Addr) (p : Task) : (s.setTask a p).task a = p :=
  Function.update_self ..

theorem setTask_of_ne {b : Addr} (h : b ≠ a) (s : Procs) (p : Task) : (s.setTask a p).task b = s.task b :=
  Function.update_of_ne h ..

theorem mem_tasks_setTask (h : q ∈ (s.setTask a p).tasks) : q ∈ s.tasks ∨ q = p := by
  obtain ⟨b, hb, rfl⟩ := mem_map.mp h
  obtain rfl | hab := eq_or_ne b a
  · exact .inr (s.setTask_self b p)
  · rw [setTask_of_ne hab]
    exact .inl (mem_tasks hb)

theorem Sound.setTask (hs : s.Sound) (hp : ∀ n, p.HasId n → n ≤ s.pids.lastPid ∨ s.pids.nextSafe ≤ n)
    (h0 : a = 0 → ∀ n, p.HasId n → n = 0) : (s.setTask a p).Sound where
  outside := fun q hq n hid => by
    obtain hq | rfl := mem_tasks_setTask hq
    · exact hs.outside q hq n hid
    · exact hp n hid
  __ := hs
  initTask := fun n hid => by
    obtain rfl | ha := eq_or_ne 0 a
    · exact h0 rfl n hid
    · rw [setTask_of_ne ha] at hid
      exact hs.initTask n hid

theorem Sound.link (hs : s.Sound) (ha : a ≠ 0)
    (hp : ∀ n, p.HasId n → n ≤ s.pids.lastPid ∨ s.pids.nextSafe ≤ n) : (s.link a p).Sound where
  lt := hs.lt
  outside := fun q hq n hid => by
    have hmem : q ∈ (s.setTask a p).tasks ∨ q = p := by
      obtain ⟨b, hb, rfl⟩ := mem_map.mp hq
      obtain hb | hb := mem_append.mp hb
      · exact .inl (mem_map_of_mem hb)
      · obtain rfl := mem_singleton.mp hb
        exact .inr (s.setTask_self b p)
    obtain hq | rfl := hmem.elim mem_tasks_setTask .inr
    · exact hs.outside q hq n hid
    · exact hp n hid
  nextSafe := hs.nextSafe
  initTask := (hs.setTask hp fun h => absurd h ha).initTask
  notMem := fun h => by
    obtain h | h := mem_append.mp h
    · exact hs.notMem h
    · exact ha (mem_singleton.mp h).symm

theorem Sound.exitNotify (hs : s.Sound) (ha : a ≠ 0) (hmem : a ∈ s.order) : (s.exitNotify a).Sound := by
  have hs' : Sound { s with task := fun b => s.reparent a (s.task b) } := by
    refine ⟨⟨⟨hs.lt, fun q hq n hid => ?_⟩, hs.nextSafe⟩, hs.initTask, hs.notMem⟩
    obtain ⟨b, hb, rfl⟩ := mem_map.mp hq
    exact hs.outside _ (mem_tasks hb) n hid
  exact hs'.setTask (fun n hid => hs.outside _ (mem_tasks hmem) n hid) fun h => absurd h ha

theorem Sound.release (hs : s.Sound) (a : Addr) : (s.release a).Sound := by
  refine ⟨⟨⟨hs.lt, fun q hq n hid => ?_⟩, hs.nextSafe⟩, hs.initTask, fun h => hs.notMem (mem_of_mem_erase h)⟩
  obtain ⟨b, hb, rfl⟩ := mem_map.mp hq
  exact hs.outside _ (mem_tasks (mem_of_mem_erase hb)) n hid

/-- What `sys_setpgid` does: it refuses, or the task with that pid moves to its own group or to one that
a task of the session of the caller is in. -/
theorem sysSetpgid_cases (s : Procs) (current : Addr) (pid pgid : ℤ) :
    (s.sysSetpgid current pid pgid).2 = s ∨ ∃ a ∈ s.order, ∃ n,
      (s.sysSetpgid current pid pgid).2 = s.setTask a { s.task a with pgrp := n } ∧
      (s.task a).leader = false ∧
      ((s.task a).session = (s.task current).session ∨ a = current) ∧
      (n = (s.task a).pid ∨ ∃ tmp ∈ s.tasks, tmp.pgrp = n ∧ tmp.session = (s.task current).session) := by
  unfold sysSetpgid
  generalize (if pid = 0 then ((s.task current).pid : ℤ) else pid) = pid
  dsimp only
  generalize (if pgid = 0 then pid else pgid) = pgid
  split
  · exact .inl rfl
  case isFalse hneg =>
    split
    · exact .inl rfl
    case h_2 a ha =>
      have hmem : a ∈ s.order := mem_reverse.mp (mem_of_find?_eq_some ha)
      have hpid : ((s.task a).pid : ℤ) = pid := by
        have hfound := List.find?_some ha
        exact of_decide_eq_true hfound
      split_ifs with hsession _ hcurrent hleader hgroup
      · exact .inl rfl
      · exact .inl rfl
      · exact .inl rfl
      · exact .inl rfl
      · exact .inl rfl
      refine .inr ⟨a, hmem, pgid.toNat, rfl, Bool.eq_false_iff.mpr hleader, ?_, ?_⟩
      · by_cases hchild : (s.task a).pptr = current ∨ (s.task a).opptr = current
        · exact .inl (not_not.mp fun h => hsession ⟨hchild, h⟩)
        · exact .inr (not_not.mp fun h => hcurrent ⟨hchild, h⟩)
      · by_cases hown : pgid = pid
        · left
          rw [hown, ← hpid]
          exact Int.toNat_natCast _
        obtain ⟨tmp, htmp, hgrp, hsess⟩ := not_not.mp fun h => hgroup ⟨hown, h⟩
        right
        refine ⟨tmp, htmp, ?_, hsess⟩
        rw [← hgrp]
        exact (Int.toNat_natCast _).symm

theorem Sound.sysSetpgid (hs : s.Sound) (current : Addr) (pid pgid : ℤ) :
    (s.sysSetpgid current pid pgid).2.Sound := by
  obtain h | ⟨a, ha, m, h, -, -, hm⟩ := s.sysSetpgid_cases current pid pgid
  · rw [h]
    exact hs
  rw [h]
  have hused : Used s.tasks m := by
    obtain rfl | ⟨tmp, htmp, rfl, -⟩ := hm
    · exact ⟨_, mem_tasks ha, .inl rfl⟩
    · exact ⟨tmp, htmp, .inr (.inl rfl)⟩
  refine hs.setTask (fun n hid => hs.toClear.of_used ?_) fun h0 => absurd (h0 ▸ ha) hs.notMem
  obtain hid | rfl | hid := hid
  · exact ⟨_, mem_tasks ha, .inl hid⟩
  · exact hused
  · exact ⟨_, mem_tasks ha, .inr (.inr hid)⟩

theorem Sound.sysSetsid (hs : s.Sound) {current : Addr} (hr : s.Runs current) :
    (s.sysSetsid current).2.Sound := by
  unfold Procs.sysSetsid
  dsimp only
  split_ifs
  · exact hs
  have hown : ∀ n, Task.HasId { s.task current with
      leader := true, session := (s.task current).pid, pgrp := (s.task current).pid } n →
      (s.task current).HasId n := by
    rintro n (h | h | h) <;> exact .inl h
  refine hs.setTask (fun n hid => hs.runs hr (hown n hid)) fun h0 n hid => ?_
  subst h0
  exact hs.initTask n (hown n hid)

theorem Sound.taskStep {c : TaskCall} (hs : s.Sound) (h : taskStep s c = some s') : s'.Sound := by
  cases c with
  | exec current =>
    obtain ⟨hr, rfl⟩ := of_guard h
    refine hs.setTask (fun n hid => hs.runs hr.1 hid) fun h0 n hid => ?_
    subst h0
    exact hs.initTask n hid
  | init current =>
    obtain ⟨-, rfl⟩ := of_guard h
    exact { hs with }
  | exit current =>
    obtain ⟨hc, rfl⟩ := of_guard h
    exact hs.exitNotify hc.2 (hc.1.1.resolve_left hc.2).1
  | release a =>
    obtain ⟨-, rfl⟩ := of_guard h
    exact hs.release a
  | setpgid current pid pgid =>
    obtain ⟨-, rfl⟩ := of_guard h
    exact hs.sysSetpgid current pid pgid
  | setsid current =>
    obtain ⟨hr, rfl⟩ := of_guard h
    exact hs.sysSetsid hr.1

theorem Sound.step {c : Call} (hs : s.Sound) (hc : keepsSafe s c = true) (h : step s c = some s') : s'.Sound := by
  cases c with
  | fork current | fail current =>
    obtain ⟨-, rfl⟩ := of_guard h
    exact { hs with }
  | getPid current =>
    dsimp only [ProcessIds.step] at h
    split at h
    · obtain ⟨pids, hpids, rfl⟩ := Option.map_eq_some_iff.mp h
      obtain ⟨-, hsound, -⟩ := getPid_some hs.toSound hpids
      exact ⟨hsound, hs.initTask, hs.notMem⟩
    · cases h
  | link current a =>
    dsimp only [ProcessIds.step] at h
    split at h
    case h_1 p hfork =>
      obtain ⟨ha, rfl⟩ := of_guard h
      have hs' : (s.setFork current none).Sound := { hs with }
      simp only [keepsSafe, hfork, Option.all_some, all_cons, all_nil, Bool.and_true, Bool.and_eq_true,
        Bool.or_eq_true, decide_eq_true_eq] at hc
      refine hs'.link ha.1 fun n hid => ?_
      obtain rfl | rfl | rfl := hid
      exacts [hc.1, hc.2.1, hc.2.2]
    · cases h
  | task c => exact hs.taskStep h

theorem sound_boot : boot.Sound where
  lt := by decide
  outside := fun _ hp => absurd hp not_mem_nil
  nextSafe := le_rfl
  initTask := by
    rintro n (h | h | h) <;> exact h.symm
  notMem := not_mem_nil

/-- A whole `do_fork`. -/
def forkCalls (current a : Addr) : List Call := [.fork current, .getPid current, .link current a]

/-- The state behind some calls. -/
def after (s : Procs) (calls : List Call) : Procs := (exec ProcessIds.step keepsSafe s calls).getD s

end Procs

end I370Linux.ProcessIds
