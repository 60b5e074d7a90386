import I370Linux.Runs

/-! # The 3215 console

The model of `arch/i370/io/raw3215.c`.  Any number of tasks write to and read from one unit.  On a
uniprocessor nothing comes between the statements from `spin_lock_irqsave` to the sleep in
`wait_for_status`, so these are one step; interrupts, signals and wake-ups come in between the steps.

The channel executes one operation at a time.  `start subchannel` while it is busy has no effect and
the code does not look at the condition code.  `delivered`, `clash` and `early` are ghost fields: the
interrupt for the operation of the task has come, an operation was started while one of its kind was
pending, and a task has returned before its interrupt.  What is read and written is left out.

`wait_for_status` tests the flag once and sleeps once.  So it returns with the flag still set if a
signal or a wake-up from elsewhere comes, or if another task is faster.  In a run without that
(`calm`), the discipline is kept (`disciplined_of_calm`). -/

namespace I370Linux.Raw3215

open Runs Function

/-- The two operations, with a channel program, a flag and a queue each. -/
inductive Op where
  | write
  | read
deriving DecidableEq, Repr

/-- What a task does: `write` of `len` bytes with `nleft` to go, or `read`. -/
inductive Job where
  | write (len nleft : ℕ)
  | read
deriving DecidableEq, Repr

def Job.op : Job → Op
  | .write _ _ => .write
  | .read => .read

/-- Where a call is. -/
inductive Pc where
  | idle
  /-- In the loop of `i370_raw3215_write`. -/
  | line (len nleft : ℕ)
  /-- Asleep on `unitexpq`. -/
  | expect
  /-- Asleep in the first `wait_for_status`, until another operation is done. -/
  | first (job : Job)
  /-- Asleep in the second `wait_for_status`, until the operation is done. -/
  | second (job : Job)
deriving DecidableEq, Repr

/-- What `read` and `write` return. -/
inductive Ret where
  | ok (n : ℕ)
  | e2big
  | eio
  | eagain
  | erestartsys
deriving DecidableEq, Repr

/-- The driver, the device and its tasks. -/
structure Sys (ι : Type) where
  /-- `WRITE_PENDING` and `READ_PENDING`. -/
  pending : Op → Bool
  readWanted : Bool
  /-- Whose buffer the channel program names. -/
  dataptr : Op → Option ι
  /-- The operation in the channel. -/
  active : Option (Op × ι)
  residual : ℕ
  pc : ι → Pc
  /-- The state of the task is `TASK_RUNNING`. -/
  running : ι → Bool
  signal : ι → Bool
  ret : ι → Option Ret
  halted : Bool
  delivered : ι → Bool
  clash : Bool
  early : Bool

inductive Event (ι : Type) where
  | write (t : ι) (str len : ℕ)
  /-- `copy_from_user` of the next line, with its outcome. -/
  | copy (t : ι) (ok : Bool)
  | read (t : ι) (nonblock : Bool)
  /-- `schedule` returns. -/
  | resume (t : ι)
  | signal (t : ι)
  | flushSignals (t : ι)
  /-- A wake-up from elsewhere. -/
  | wakeUp (t : ι)
  /-- An interrupt, with the address in the status word: none, or a channel command word. -/
  | interrupt (ccw : Option (Op × ℕ)) (residual : ℕ)

abbrev LINELEN : ℕ := 120
abbrev MAXWRI : ℕ := 10 * 4096
abbrev STACK_TOP : ℕ := 0x80000000

variable {ι : Type}

/-- The unit after `open`, with all tasks outside. -/
def init : Sys ι where
  pending := fun _ => false
  readWanted := false
  dataptr := fun _ => none
  active := none
  residual := 0
  pc := fun _ => .idle
  running := fun _ => true
  signal := fun _ => false
  ret := fun _ => none
  halted := false
  delivered := fun _ => false
  clash := false
  early := false

section

variable [DecidableEq ι]

namespace Sys

def goto (s : Sys ι) (t : ι) (p : Pc) : Sys ι := { s with pc := update s.pc t p }

def sleep (s : Sys ι) (t : ι) (p : Pc) : Sys ι :=
  { s.goto t p with running := update s.running t false }

def leave (s : Sys ι) (t : ι) (r : Ret) : Sys ι :=
  { s.goto t .idle with ret := update s.ret t (some r) }

end Sys

/-- From the channel program to the second `wait_for_status`, which finds the flag that was just set. -/
def start (s : Sys ι) (t : ι) (job : Job) : Sys ι :=
  { s with
    readWanted := if job.op = Op.read then false else s.readWanted
    dataptr := update s.dataptr job.op (some t)
    clash := s.clash || s.pending job.op
    pending := update s.pending job.op true
    active := s.active <|> some (job.op, t)
    delivered := update s.delivered t false }.sleep t (.second job)

/-- `do_write_one_line` and `do_read` up to the first sleep. -/
def begin (s : Sys ι) (t : ι) (job : Job) : Sys ι :=
  if s.pending job.op then s.sleep t (.first job) else start s t job

/-- Behind the second `wait_for_status`. -/
def finish (s : Sys ι) (t : ι) (job : Job) : Sys ι :=
  let s := { s with early := s.early || !s.delivered t }
  match job with
  | .write len nleft => s.goto t (.line len (nleft - min LINELEN nleft))
  | .read =>
    let nread := LINELEN - s.residual
    s.leave t (if nread = 0 then .eagain else .ok (nread + 1))

def onQueue (op : Op) : Pc → Bool
  | .first job | .second job => job.op = op
  | _ => false

/-- `wake_up_interruptible`. -/
def wake (s : Sys ι) (q : Pc → Bool) : Sys ι := { s with running := fun t => s.running t || q (s.pc t) }

/-- `i370_raw3215_flih`. -/
def flih (s : Sys ι) : Option (Op × ℕ) → Sys ι
  | none => wake { s with readWanted := true } (· = .expect)
  | some (.read, 1) =>
    wake { s with pending := update s.pending .read false } (onQueue .read)
  | some (.write, 2) =>
    wake { s with pending := update s.pending .write false } (onQueue .write)
  | some _ => { s with halted := true }

/-- An interrupt: an unsolicited one, or the end of the operation in the channel. -/
def interrupt (s : Sys ι) (ccw : Option (Op × ℕ)) (residual : ℕ) : Option (Sys ι) :=
  match ccw with
  | none => some (flih { s with residual := residual } none)
  | some (op, n) =>
    match s.active with
    | none => none
    | some (op', t) =>
      if op' = op then
        some (flih { s with
          residual := residual
          active := none
          delivered := update s.delivered t true } (some (op, n)))
      else none

/-- What a task does when `schedule` returns.  A pending signal makes it return too. -/
def resume (s : Sys ι) (t : ι) : Option (Sys ι) :=
  if s.running t || s.signal t then
    let s := { s with running := update s.running t true }
    match s.pc t with
    | .expect => some (begin s t .read)
    | .first job => some (start s t job)
    | .second job => some (finish s t job)
    | _ => none
  else none

def step (s : Sys ι) (e : Event ι) : Option (Sys ι) :=
  if s.halted then none
  else
    match e with
    | .write t str len =>
      if s.pc t = .idle then
        some (if MAXWRI ≤ len ∨ STACK_TOP - MAXWRI ≤ str then s.leave t .e2big
          else s.goto t (.line len len))
      else none
    | .copy t ok =>
      match s.pc t with
      | .line len nleft =>
        some (if nleft = 0 then s.leave t (.ok len)
          else if !ok then s.leave t .eio
          else begin s t (.write len nleft))
      | _ => none
    | .read t nonblock =>
      if s.pc t = .idle then
        some (if !s.readWanted && nonblock then s.leave t .eagain
          else if s.signal t then s.leave t .erestartsys
          else s.sleep t .expect)
      else none
    | .resume t => resume s t
    | .signal t =>
      some { s with
        signal := update s.signal t true
        running := update s.running t true }
    | .flushSignals t =>
      if s.pc t = .idle then some { s with signal := update s.signal t false } else none
    | .wakeUp t => some { s with running := update s.running t true }
    | .interrupt ccw residual => interrupt s ccw residual

end

/-! ### The discipline -/

/-- No operation was started while one of its kind was pending, and none was abandoned. -/
def Disciplined (s : Sys ι) : Prop := s.clash = false ∧ s.early = false

instance (s : Sys ι) : Decidable (Disciplined s) := inferInstanceAs (Decidable (_ ∧ _))

def Waits (s : Sys ι) (op : Op) (t : ι) : Prop :=
  ∃ job, s.pc t = .second job ∧ job.op = op ∧ s.delivered t = false

def isSecond : Pc → Bool
  | .second _ => true
  | _ => false

/-- The steps without disturbance: a task that starts an operation has no signal pending and finds the
flag clear, and no signal and no wake-up from elsewhere comes to a task that waits for its own
operation. -/
def calm (s : Sys ι) : Event ι → Bool
  | .copy t _ => s.pending .write || !s.signal t
  | .resume t =>
    match s.pc t with
    | .expect => s.pending .read || !s.signal t
    | .first job => !s.pending job.op && !s.signal t
    | _ => true
  | .signal t | .wakeUp t => !isSecond (s.pc t)
  | _ => true

/-- At most one task waits for an operation of each kind: it sleeps without a signal, and the flag is
set.  The operation in the channel is that of such a task. -/
structure Inv (s : Sys ι) : Prop where
  disciplined : Disciplined s
  waits : ∀ op t, Waits s op t → s.running t = false ∧ s.signal t = false ∧ s.pending op = true
  unique : ∀ op t t', Waits s op t → Waits s op t' → t = t'
  active : ∀ op t, s.active = some (op, t) → Waits s op t

theorem init_inv : Inv (init : Sys ι) where
  disciplined := ⟨rfl, rfl⟩
  waits := fun _ _ ⟨_, h, _⟩ => absurd h nofun
  unique := fun _ _ _ ⟨_, h, _⟩ => absurd h nofun
  active := fun _ _ h => absurd h nofun

theorem Inv.mono {s u : Sys ι} (h : Inv s) (hd : Disciplined u)
    (hw : ∀ op t, Waits u op t → Waits s op t ∧ u.running t = s.running t ∧
      u.signal t = s.signal t ∧ u.pending op = s.pending op)
    (ha : ∀ op t, u.active = some (op, t) → Waits u op t) : Inv u where
  disciplined := hd
  waits := fun op t hwt => by
    obtain ⟨hs, hr, hsig, hp⟩ := hw op t hwt
    rw [hr, hsig, hp]
    exact h.waits op t hs
  unique := fun op t t' h1 h2 => h.unique op t t' (hw op t h1).1 (hw op t' h2).1
  active := ha

theorem Inv.congr {s u : Sys ι} (h : Inv s) (hw : ∀ op t, Waits u op t ↔ Waits s op t)
    (hd : Disciplined u) (hp : u.pending = s.pending) (ha : u.active = s.active)
    (hr : ∀ op t, Waits s op t → u.running t = s.running t ∧ u.signal t = s.signal t) : Inv u :=
  h.mono hd (fun op t hwt => have hs := (hw op t).mp hwt; ⟨hs, (hr op t hs).1, (hr op t hs).2, congrFun hp op⟩)
    fun op t hat => (hw op t).mpr (h.active op t (ha ▸ hat))

variable {s : Sys ι} {t : ι}

theorem not_waits (ht : isSecond (s.pc t) = false) (op : Op) : ¬ Waits s op t := by
  rintro ⟨job, hj, -⟩
  rw [hj] at ht
  exact absurd ht (by simp [isSecond])

theorem not_waits_of_delivered (hd : s.delivered t = true) (op : Op) : ¬ Waits s op t := by
  rintro ⟨_, _, _, hn⟩
  cases hd.symm.trans hn

variable [DecidableEq ι] {p : Pc} {job : Job} {t' : ι} {u : Sys ι} {residual : ℕ}

theorem waits_goto (ht : ∀ op, ¬ Waits s op t) (hp : isSecond p = false) (op : Op) (t' : ι) :
    Waits (s.goto t p) op t' ↔ Waits s op t' := by
  obtain rfl | hne := eq_or_ne t' t
  · have hpc : isSecond ((s.goto t' p).pc t') = false := by
      simp only [Sys.goto, update_self]
      exact hp
    exact iff_of_false (not_waits hpc op) (ht op)
  · simp only [Waits, Sys.goto]
    rw [update_of_ne hne]

theorem Inv.goto (h : Inv s) (ht : isSecond (s.pc t) = false) (hp : isSecond p = false) : Inv (s.goto t p) :=
  h.congr (waits_goto (not_waits ht) hp) h.disciplined rfl rfl fun _ _ _ => ⟨rfl, rfl⟩

theorem Inv.leave (h : Inv s) (ht : isSecond (s.pc t) = false) (r : Ret) : Inv (s.leave t r) :=
  h.congr (waits_goto (not_waits ht) rfl) h.disciplined rfl rfl fun _ _ _ => ⟨rfl, rfl⟩

theorem Inv.setRunning (h : Inv s) (ht : ∀ op, ¬ Waits s op t) (b : Bool) :
    Inv { s with running := update s.running t b } := by
  refine h.congr (fun _ _ => Iff.rfl) h.disciplined rfl rfl fun op t' hw => ⟨?_, rfl⟩
  refine update_of_ne ?_ _ _
  rintro rfl
  exact ht op hw

theorem Inv.sleep (h : Inv s) (ht : isSecond (s.pc t) = false) (hp : isSecond p = false) :
    Inv (s.sleep t p) := (h.setRunning (not_waits ht) false).goto ht hp

theorem Inv.setSignal (h : Inv s) (ht : ∀ op, ¬ Waits s op t) (b : Bool) :
    Inv { s with signal := update s.signal t b } := by
  refine h.congr (fun _ _ => Iff.rfl) h.disciplined rfl rfl fun op t' hw => ⟨rfl, ?_⟩
  refine update_of_ne ?_ _ _
  rintro rfl
  exact ht op hw

theorem waits_start {op : Op} :
    Waits (start s t job) op t' ↔ if t' = t then op = job.op else Waits s op t' := by
  simp only [Waits, start, Sys.sleep, Sys.goto]
  split_ifs with ht
  · subst ht
    simp only [update_self]
    constructor
    · rintro ⟨job', hj, rfl, -⟩
      cases hj
      rfl
    · rintro rfl
      exact ⟨job, rfl, rfl, trivial⟩
  · simp only [update_of_ne ht]

section

variable (h : Inv s)
include h

theorem Inv.start (ht : isSecond (s.pc t) = false)
    (hp : s.pending job.op = false) (hs : s.signal t = false) : Inv (start s t job) where
  disciplined := by
    refine ⟨?_, h.disciplined.2⟩
    change (s.clash || s.pending job.op) = false
    rw [h.disciplined.1, hp, Bool.or_false]
  waits := fun op t' hw => by
    rw [waits_start] at hw
    change update s.running t false t' = false ∧ s.signal t' = false ∧ update s.pending job.op true op = true
    split_ifs at hw with htt
    · subst htt hw
      exact ⟨update_self .., hs, update_self ..⟩
    · obtain ⟨h1, h2, h3⟩ := h.waits op t' hw
      refine ⟨(update_of_ne htt _ _).trans h1, h2, ?_⟩
      rw [update_apply, h3, ite_self]
  unique := fun op t₁ t₂ h1 h2 => by
    -- no other task waits, since the flag was clear
    have hnone : ∀ t', Waits s job.op t' → False := fun t' hw => by
      rw [(h.waits job.op t' hw).2.2] at hp
      cases hp
    rw [waits_start] at h1 h2
    split_ifs at h1 h2 with e1 e2
    · exact e1.trans e2.symm
    · exact (hnone t₂ (h1 ▸ h2)).elim
    · exact (hnone t₁ (h2 ▸ h1)).elim
    · exact h.unique op t₁ t₂ h1 h2
  active := fun op t' ha => by
    rw [waits_start]
    change (s.active <|> some (job.op, t)) = some (op, t') at ha
    rcases hact : s.active with _ | ⟨op', t''⟩
    · rw [hact] at ha
      obtain ⟨rfl, rfl⟩ := Prod.mk.inj (Option.some_inj.mp ha)
      rw [if_pos rfl]
    rw [hact] at ha
    obtain ⟨rfl, rfl⟩ := Prod.mk.inj (Option.some_inj.mp ha)
    have hw := h.active _ _ hact
    rw [if_neg]
    · exact hw
    · rintro rfl
      exact not_waits ht _ hw

theorem Inv.begin (ht : isSecond (s.pc t) = false)
    (hs : s.pending job.op = false → s.signal t = false) : Inv (begin s t job) := by
  rw [Raw3215.begin]
  split_ifs with hp
  · exact h.sleep ht rfl
  · exact h.start ht (Bool.eq_false_of_not_eq_true hp) (hs (Bool.eq_false_of_not_eq_true hp))

theorem Inv.finish (job : Job) (hd : s.delivered t = true) : Inv (finish s t job) := by
  have hearly : (s.early || !s.delivered t) = false := by
    rw [h.disciplined.2, hd]
    rfl
  have hw := not_waits_of_delivered hd
  cases job with
  | write len nleft | read =>
    exact h.congr (waits_goto hw rfl) ⟨h.disciplined.1, hearly⟩ rfl rfl fun _ _ _ => ⟨rfl, rfl⟩

theorem waits_delivered {op op' : Op}
    (hact : s.active = some (op, t)) (hw : Waits u op' t') (hpc : u.pc = s.pc)
    (hdel : u.delivered = update s.delivered t true) : Waits s op' t' ∧ op' ≠ op := by
  obtain ⟨job, hj, rfl, hd⟩ := hw
  have hne : t' ≠ t := by
    rintro rfl
    rw [hdel, update_self] at hd
    cases hd
  rw [hdel, update_of_ne hne] at hd
  have hold : Waits s job.op t' := ⟨job, hpc ▸ hj, rfl, hd⟩
  exact ⟨hold, fun he => hne (h.unique job.op t' t hold (he ▸ h.active op t hact))⟩

theorem Inv.delivered {op : Op} (hact : s.active = some (op, t)) : Inv (wake { s with
      residual := residual
      active := none
      delivered := update s.delivered t true
      pending := update s.pending op false } (onQueue op)) := by
  refine h.mono h.disciplined (fun op' t' hw => ?_) fun _ _ ha => absurd ha nofun
  obtain ⟨hold, hne⟩ := waits_delivered h hact hw rfl rfl
  refine ⟨hold, ?_, rfl, update_of_ne hne _ _⟩
  obtain ⟨job, hj, rfl, -⟩ := hold
  change (s.running t' || onQueue op (s.pc t')) = s.running t'
  rw [hj, onQueue, decide_eq_false hne, Bool.or_false]

theorem Inv.resume (hc : calm s (.resume t) = true) (hs : resume s t = some u) : Inv u := by
  rw [Raw3215.resume] at hs
  split_ifs at hs with hrun
  rw [calm] at hc
  dsimp only at hs
  split at hs
  · next hpc =>
    cases hs
    have ht : isSecond (s.pc t) = false := by rw [hpc]; rfl
    rw [hpc] at hc
    refine (h.setRunning (not_waits ht) true).begin ht fun hp => ?_
    have hp : s.pending .read = false := hp
    simpa [hp] using hc
  · next job hpc =>
    cases hs
    have ht : isSecond (s.pc t) = false := by rw [hpc]; rfl
    rw [hpc] at hc
    obtain ⟨hp, hsig⟩ := Bool.and_eq_true_iff.mp hc
    exact (h.setRunning (not_waits ht) true).start ht (by simpa using hp) (by simpa using hsig)
  · next job hpc =>
    cases hs
    -- the task runs, so its interrupt has been delivered
    have hdel : s.delivered t = true := by
      by_contra hn
      obtain ⟨hr, hsig, -⟩ := h.waits job.op t ⟨job, hpc, rfl, Bool.eq_false_of_not_eq_true hn⟩
      rw [hr, hsig] at hrun
      cases hrun
    exact (h.setRunning (not_waits_of_delivered hdel) true).finish job hdel
  · cases hs

theorem Inv.interrupt {ccw : Option (Op × ℕ)} (hs : interrupt s ccw residual = some u) : Inv u := by
  obtain _ | ⟨op, n⟩ := ccw
  · cases hs
    refine h.congr (fun _ _ => Iff.rfl) h.disciplined rfl rfl fun op t hw => ⟨?_, rfl⟩
    obtain ⟨job, hj, -⟩ := hw
    change (s.running t || decide (s.pc t = .expect)) = s.running t
    rw [hj]
    exact Bool.or_false _
  · rw [Raw3215.interrupt] at hs
    split at hs
    · cases hs
    · next op' t hact =>
      split_ifs at hs with hop
      subst hop
      cases hs
      unfold flih
      split
      · next heq => cases heq
      · next heq =>
        obtain ⟨rfl, rfl⟩ := Prod.mk.inj (Option.some_inj.mp heq)
        exact h.delivered hact
      · next heq =>
        obtain ⟨rfl, rfl⟩ := Prod.mk.inj (Option.some_inj.mp heq)
        exact h.delivered hact
      · exact h.mono h.disciplined (fun op t hw => ⟨(waits_delivered h hact hw rfl rfl).1, rfl, rfl, rfl⟩)
          fun _ _ ha => absurd ha nofun

theorem Inv.step {e : Event ι} (hc : calm s e = true) (hs : step s e = some u) : Inv u := by
  rw [step.eq_def] at hs
  split_ifs at hs with hhalt
  cases e with
  | write t str len =>
    dsimp only at hs
    split_ifs at hs with hpc hbig
    · cases hs
      exact h.leave (by rw [hpc]; rfl) _
    · cases hs
      exact h.goto (by rw [hpc]; rfl) rfl
  | copy t ok =>
    dsimp only at hs
    split at hs
    · next len nleft hpc =>
      have ht : isSecond (s.pc t) = false := by rw [hpc]; rfl
      cases hs
      split_ifs
      · exact h.leave ht _
      · exact h.leave ht _
      · refine h.begin ht fun hp => ?_
        have hp : s.pending .write = false := hp
        rw [calm, hp] at hc
        simpa using hc
    · cases hs
  | read t nonblock =>
    dsimp only at hs
    by_cases hpc : s.pc t = .idle
    · have ht : isSecond (s.pc t) = false := by rw [hpc]; rfl
      rw [if_pos hpc] at hs
      cases hs
      split_ifs
      · exact h.leave ht _
      · exact h.leave ht _
      · exact h.sleep ht rfl
    · rw [if_neg hpc] at hs
      cases hs
  | resume t => exact h.resume hc hs
  | signal t =>
    cases hs
    have ht : isSecond (s.pc t) = false := by simpa [calm] using hc
    exact (h.setSignal (not_waits ht) true).setRunning (not_waits ht) true
  | flushSignals t =>
    obtain ⟨hpc, rfl⟩ := of_guard hs
    exact h.setSignal (not_waits (by rw [hpc]; rfl)) false
  | wakeUp t =>
    cases hs
    exact h.setRunning (not_waits (by simpa [calm] using hc)) true
  | interrupt ccw residual => exact h.interrupt hs

end

/-- **The discipline of the channel** is kept in every run whose steps are all calm. -/
theorem disciplined_of_calm {u : Sys ι}
    (h : ReachesBy step (fun s e => calm s e = true) init u) : Disciplined u :=
  (h.invariant (I := Inv) init_inv fun _ _ _ hi hc hs => hi.step hc hs).disciplined

/-- Two tasks write a line each, one after the other. -/
theorem disciplined_of_calm_two : ∃ u : Sys (Fin 2),
    ReachesBy step (fun s e => calm s e = true) init u ∧ u.ret 0 = some (.ok 10) ∧
      u.ret 1 = some (.ok 10) ∧ Disciplined u := by
  have hrun : ReachesBy step (fun s e => calm s e = true) (init : Sys (Fin 2)) _ :=
    .of_exec [.write 0 0x1000 10, .copy 0 true, .write 1 0x1000 10, .copy 1 true,
      .interrupt (some (.write, 2)) 0, .resume 0, .resume 1, .copy 0 true,
      .interrupt (some (.write, 2)) 0, .resume 1, .copy 1 true] _ _ rfl
  exact ⟨_, hrun, rfl, rfl, disciplined_of_calm hrun⟩

/-- Three tasks write: the interrupt for the first line wakes both waiters, and the third starts while the second is pending;
and a signal makes a task return too early. -/
theorem undisciplined :
    (∃ u : Sys (Fin 3), Reaches step init u ∧ u.clash = true) ∧
    ∃ u : Sys (Fin 3), Reaches step init u ∧ u.early = true ∧ u.active = some (.write, 0) ∧
      u.ret 0 = some (.ok 10) := by
  refine ⟨⟨_, .of_exec [.write 0 0x1000 10, .copy 0 true, .write 1 0x1000 10, .copy 1 true,
    .write 2 0x1000 10, .copy 2 true, .interrupt (some (.write, 2)) 0, .resume 1, .resume 2] _ _ rfl,
    rfl⟩, ⟨_, .of_exec [.write 0 0x1000 10, .copy 0 true, .signal 0, .resume 0, .copy 0 true] _ _ rfl,
    rfl, rfl, rfl⟩⟩

end I370Linux.Raw3215
