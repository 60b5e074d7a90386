import I370Linux.Runs

/-! # `reschedule` and the bottom halves

The model of `reschedule` of `arch/i370/kernel/traps.c`, with `do_bottom_half` of `kernel/softirq.c` and
`schedule` as far as it concerns the task that calls it.  Each statement that reads or writes a variable
an interrupt can change is a step.  An interrupt that comes while `in_slih` is set marks bottom halves,
or sets `need_resched`, and its own `reschedule` returns at once; what the handlers of bottom halves do
counts as such an interrupt.  `local_irq_count` is always 0: `do_IRQ` counts in the prefix page.

The loop forgets what comes after its last test (`seesBh`, `seesResched`), and it turns for ever if the
interrupted code holds the bottom halves off, since it repeats whenever it has called `do_bottom_half`,
also in vain.  Apart from that `reschedule` returns and has done its work (`settles`). -/

namespace I370Linux.Reschedule

open Runs

/-- Who has called `do_bottom_half`: the loop, or `schedule`. -/
inductive Caller where
  | loop
  | sched
deriving DecidableEq, Repr

/-- Where `reschedule` stands: the next statement. -/
inductive Pc where
  /-- `if (current->tss.in_slih) return`. -/
  | entry
  /-- `while (do_it_again)` and `sti ()`. -/
  | top
  /-- `if (bh_mask & bh_active)`. -/
  | testBh
  /-- `softirq_trylock`. -/
  | trylock (c : Caller)
  /-- `active = get_active_bhs ()`. -/
  | getActive (c : Caller)
  /-- `clear_active_bhs (active)`. -/
  | clearActive (c : Caller) (active : BitVec 32)
  /-- The loop over the handlers, at number `nr`. -/
  | handlers (c : Caller) (active : BitVec 32) (nr : ℕ)
  /-- `softirq_endlock`. -/
  | endlock (c : Caller)
  /-- `if (current->need_resched)`. -/
  | testResched
  /-- `schedule`: `if (in_interrupt ())`. -/
  | schedule
  /-- `schedule`: `if (bh_active & bh_mask)`. -/
  | schedTestBh
  /-- `schedule`: `prev->need_resched = 0`. -/
  | schedClear
  /-- `schedule`: the choice of the next task, and the return. -/
  | schedSwitch
  /-- `if (current->sigpending)`. -/
  | testSig
  /-- `cli ()` and `current->tss.in_slih = 0`. -/
  | cli
  | returned
  /-- `scheduling_in_interrupt`. -/
  | crashed
deriving DecidableEq, Repr

structure Cpu where
  inSlih : Bool
  needResched : Bool
  sigpending : Bool
  /-- `user_mode (current->tss.regs)`. -/
  userMode : Bool
  bhMask : BitVec 32
  bhActive : BitVec 32
  /-- `local_bh_count`. -/
  bhCount : ℕ
  again : Bool
  /-- Interrupts are enabled. -/
  enabled : Bool
  pc : Pc
deriving DecidableEq, Repr

namespace Cpu

def work (s : Cpu) : BitVec 32 := s.bhMask &&& s.bhActive

/-- Behind `do_bottom_half`. -/
def afterBh (s : Cpu) : Caller → Cpu
  | .loop => { s with again := true, pc := .testResched }
  | .sched => { s with pc := .schedClear }

/-- The next statement of `reschedule`. -/
def run (s : Cpu) : Option Cpu :=
  match s.pc with
  | .entry =>
    some (if s.inSlih then { s with pc := .returned }
      else { s with inSlih := true, again := true, pc := .top })
  | .top =>
    some (if s.again then { s with enabled := true, again := false, pc := .testBh }
      else { s with pc := .cli })
  | .testBh => some { s with pc := if s.work ≠ 0 then .trylock .loop else .testResched }
  | .trylock c =>
    some (if s.bhCount = 0 then { s with bhCount := 1, pc := .getActive c } else s.afterBh c)
  | .getActive c => some { s with pc := .clearActive c s.work }
  | .clearActive c active =>
    some { s with bhActive := s.bhActive &&& ~~~active, pc := .handlers c active 0 }
  | .handlers c active nr =>
    some { s with pc := if active >>> 1 ≠ 0 then .handlers c (active >>> 1) (nr + 1) else .endlock c }
  | .endlock c => some ({ s with bhCount := 0 }.afterBh c)
  | .testResched =>
    some { s with pc := if s.needResched then .schedule else if s.userMode then .testSig else .top }
  | .schedule => some { s with pc := if s.bhCount ≠ 0 then .crashed else .schedTestBh }
  | .schedTestBh => some { s with pc := if s.work ≠ 0 then .trylock .sched else .schedClear }
  | .schedClear => some { s with needResched := false, pc := .schedSwitch }
  | .schedSwitch => some { s with again := true, pc := .top }
  | .testSig => some { s with again := s.again && !s.sigpending, pc := .top }
  | .cli => some { s with enabled := false, inSlih := false, pc := .returned }
  | .returned => none
  | .crashed => none

/-- An interrupt, which marks bottom halves and may set `need_resched`. -/
def interrupt (s : Cpu) (marks : BitVec 32) (resched : Bool) : Cpu :=
  { s with bhActive := s.bhActive ||| marks, needResched := s.needResched || resched }

end Cpu

inductive Event where
  | run
  | interrupt (marks : BitVec 32) (resched : Bool)
deriving DecidableEq, Repr

def step (s : Cpu) : Event → Option Cpu
  | .run => s.run
  | .interrupt marks resched => if s.enabled && s.inSlih then some (s.interrupt marks resched) else none

/-! ### What the loop still sees -/

namespace Cpu

/-- A pending signal ends the loop, whatever else there is to do. -/
def quits (s : Cpu) : Bool := s.userMode && s.sigpending

/-- `need_resched` will be tested before `reschedule` returns. -/
def seesResched (s : Cpu) : Bool :=
  match s.pc with
  | .top => s.again
  | .testSig => s.again && !s.sigpending
  | .cli | .returned => false
  | _ => true

/-- The marked bottom halves will be tested before `reschedule` returns. -/
def seesBh (s : Cpu) : Bool :=
  match s.pc with
  | .top => s.again
  | .clearActive .loop _ | .handlers .loop _ _ | .endlock .loop => s.needResched || !s.quits
  | .testResched => s.needResched || s.again && !s.quits
  | .testSig => s.again && !s.sigpending
  | .cli | .returned => false
  | _ => true

/-- The task is in `do_bottom_half` itself. -/
def inBh (s : Cpu) : Bool :=
  match s.pc with
  | .getActive _ | .clearActive _ _ | .handlers _ _ _ | .endlock _ => true
  | _ => false

/-- The interrupted code holds the bottom halves off. -/
def held (s : Cpu) : Bool := s.bhCount ≠ 0 && !s.inBh

/-- The bottom halves that are left over, apart from those about to be run. -/
def leftover (s : Cpu) : BitVec 32 :=
  match s.pc with
  | .clearActive _ active => s.work &&& ~~~active
  | _ => s.work

end Cpu

/-- The interrupts that the loop can heed: what they bring is tested again, and they bring nothing while
the interrupted code holds the bottom halves off. -/
def heeded (s : Cpu) : Event → Bool
  | .run => true
  | .interrupt marks resched =>
    if s.held then s.bhMask &&& marks = 0 && !resched
    else (s.bhMask &&& marks = 0 || s.seesBh) && (!resched || s.seesResched)

/-- An interrupt has just called `reschedule`. -/
def Interrupted (s : Cpu) : Prop := s.pc = .entry ∧ s.enabled = false ∧ s.inSlih = false

instance (s : Cpu) : Decidable (Interrupted s) := inferInstanceAs (Decidable (_ ∧ _ ∧ _))

/-- The work is done, as far as the interrupted code lets it be. -/
def Settled (held : Bool) (s : Cpu) : Prop :=
  s.enabled = false ∧ s.inSlih = false ∧ s.needResched = false ∧ (held = true ∨ s.work = 0)

instance (held : Bool) (s : Cpu) : Decidable (Settled held s) :=
  inferInstanceAs (Decidable (_ ∧ _ ∧ _ ∧ _))

/-! ### The invariant -/

/-- While bottom halves are held off there is nothing to do. -/
structure Idle (s : Cpu) : Prop where
  count : s.bhCount ≠ 0
  work : s.work = 0
  resched : s.needResched = false
  pc : s.pc = .entry ∨ s.pc = .top ∨ s.pc = .testBh ∨ s.pc = .testResched ∨ s.pc = .testSig ∨
    s.pc = .cli ∨ s.pc = .returned

/-- Otherwise the count is the lock of `do_bottom_half`, and what is not tested again is not there. -/
structure Busy (s : Cpu) : Prop where
  count : s.bhCount = if s.inBh then 1 else 0
  bh : s.seesBh = false → s.leftover = 0
  resched : s.seesResched = false → s.needResched = false
  pc : s.pc ≠ .crashed

/-- The state of an outermost `reschedule`. -/
structure Inv (held : Bool) (s : Cpu) : Prop where
  idle : held = true → Idle s
  busy : held = false → Busy s
  slih : s.inSlih = true ↔ s.pc ≠ .entry ∧ s.pc ≠ .returned
  enabled : s.enabled = true → s.inSlih = true

variable {s t : Cpu} {held : Bool}

theorem Idle.run (h : Idle s) (hs : s.run = some t) : Idle t := by
  obtain ⟨hc, hw, hr, hpc⟩ := h
  rcases hpc with hpc | hpc | hpc | hpc | hpc | hpc | hpc <;> simp only [Cpu.run, hpc] at hs
  · cases hs
    split_ifs <;> exact ⟨hc, hw, hr, by simp⟩
  · cases hs
    split_ifs <;> exact ⟨hc, hw, hr, by simp⟩
  · cases hs
    exact ⟨hc, hw, hr, by simp [hw]⟩
  · cases hs
    exact ⟨hc, hw, hr, by cases hu : s.userMode <;> simp [hr]⟩
  · cases hs
    exact ⟨hc, hw, hr, by simp⟩
  · cases hs
    exact ⟨hc, hw, hr, by simp⟩
  · cases hs

theorem Busy.run (h : Busy s) (hentry : s.pc = .entry → s.inSlih = false) (hs : s.run = some t) : Busy t := by
  obtain ⟨hc, hb, hr, hcr⟩ := h
  rcases s with ⟨slih, need, sig, user, mask, active, count, again, enabled, pc⟩
  cases pc with
  | entry =>
    cases hs
    split_ifs with hin
    · exact absurd ((hentry rfl).symm.trans hin) (by decide)
    · exact ⟨hc, nofun, nofun, nofun⟩
  | top =>
    cases hs
    rcases again with _ | _
    · exact ⟨hc, fun _ => hb rfl, fun _ => hr rfl, nofun⟩
    · exact ⟨hc, nofun, nofun, nofun⟩
  | testBh =>
    cases hs
    split_ifs with hw
    · exact ⟨hc, nofun, nofun, nofun⟩
    · exact ⟨hc, fun _ => not_not.mp hw, nofun, nofun⟩
  | trylock c =>
    cases hs
    obtain rfl : count = 0 := hc
    exact ⟨rfl, by cases c <;> nofun, nofun, nofun⟩
  | getActive c =>
    cases hs
    exact ⟨hc, fun _ => BitVec.and_not_self _, nofun, nofun⟩
  | clearActive c act =>
    cases hs
    refine ⟨hc, fun hsee => ?_, nofun, nofun⟩
    exact (BitVec.and_assoc ..).symm.trans (hb (by cases c <;> exact hsee))
  | handlers c act nr =>
    cases hs
    split_ifs
    · exact ⟨hc, fun hsee => hb (by cases c <;> exact hsee), nofun, nofun⟩
    · exact ⟨hc, fun hsee => hb (by cases c <;> exact hsee), nofun, nofun⟩
  | endlock c =>
    cases hs
    cases c with
    | loop =>
      refine ⟨rfl, fun hsee => hb ?_, nofun, nofun⟩
      simpa [Cpu.seesBh, Cpu.quits, Cpu.afterBh] using hsee
    | sched => exact ⟨rfl, nofun, nofun, nofun⟩
  | testResched =>
    cases hs
    rcases need with _ | _
    · rcases user with _ | _ <;>
        exact ⟨hc, fun hsee => hb (by simpa [Cpu.seesBh, Cpu.quits] using hsee), fun _ => rfl, nofun⟩
    · exact ⟨hc, nofun, nofun, nofun⟩
  | schedule =>
    cases hs
    obtain rfl : count = 0 := hc
    exact ⟨rfl, nofun, nofun, nofun⟩
  | schedTestBh =>
    cases hs
    split_ifs
    · exact ⟨hc, nofun, nofun, nofun⟩
    · exact ⟨hc, nofun, nofun, nofun⟩
  | schedClear | schedSwitch =>
    cases hs
    exact ⟨hc, nofun, nofun, nofun⟩
  | testSig =>
    cases hs
    exact ⟨hc, fun hsee => hb hsee, fun hsee => hr hsee, nofun⟩
  | cli =>
    cases hs
    exact ⟨hc, fun _ => hb rfl, fun _ => hr rfl, nofun⟩
  | returned | crashed => cases hs

theorem run_loop (hs : s.run = some t) (he : s.pc ≠ .entry) (hc : s.pc ≠ .cli) :
    t.inSlih = s.inSlih ∧ t.pc ≠ .entry ∧ t.pc ≠ .returned := by
  obtain ⟨slih, need, sig, user, mask, active, count, again, enabled, pc⟩ := s
  cases pc with
  | entry => exact absurd rfl he
  | cli => exact absurd rfl hc
  | returned | crashed => cases hs
  | endlock c =>
    cases hs
    cases c <;> exact ⟨rfl, nofun, nofun⟩
  | trylock c =>
    cases hs
    cases c <;> split_ifs <;> exact ⟨rfl, nofun, nofun⟩
  | top | testBh | handlers c act nr | testResched | schedule | schedTestBh =>
    cases hs
    split_ifs <;> exact ⟨rfl, nofun, nofun⟩
  | getActive c | clearActive c act | schedClear | schedSwitch | testSig =>
    cases hs
    exact ⟨rfl, nofun, nofun⟩

theorem Inv.run (h : Inv held s) (hs : s.run = some t) : Inv held t := by
  have hentry : s.pc = .entry → s.inSlih = false := fun hpc =>
    Bool.eq_false_of_not_eq_true fun hin => (h.slih.mp hin).1 hpc
  refine ⟨fun hh => (h.idle hh).run hs, fun hh => (h.busy hh).run hentry hs, ?_, fun he => ?_⟩
  all_goals
    by_cases hpe : s.pc = .entry
    · simp only [Cpu.run, hpe, hentry hpe, Bool.false_eq_true, if_false, Option.some.injEq] at hs
      subst hs
      simp
  all_goals
    by_cases hpc : s.pc = .cli
    · simp only [Cpu.run, hpc, Option.some.injEq] at hs
      subst hs
      simp at *
  all_goals
    obtain ⟨hin, h1, h2⟩ := run_loop hs hpe hpc
    have hret : s.pc ≠ .returned := fun hr => by
      simp only [Cpu.run, hr] at hs
      cases hs
    rw [hin, h.slih]
  · exact iff_of_true ⟨hpe, hret⟩ ⟨h1, h2⟩
  · exact ⟨hpe, hret⟩

section Interrupt

variable {marks : BitVec 32} {resched : Bool}

theorem work_interrupt (h : s.bhMask &&& marks = 0) : (s.interrupt marks resched).work = s.work := by
  rw [Cpu.work, Cpu.interrupt, BitVec.and_or_distrib_left, h]
  exact BitVec.or_zero

theorem leftover_interrupt (h : s.bhMask &&& marks = 0) :
    (s.interrupt marks resched).leftover = s.leftover := by
  have hw : (s.interrupt marks resched).work = s.work := work_interrupt h
  rw [Cpu.leftover, Cpu.leftover, hw]
  rfl

theorem seesBh_interrupt (h : (s.interrupt marks resched).seesBh = false) : s.seesBh = false := by
  have hor : ∀ {a b c : Bool}, (a || b || c) = false → (a || c) = false := by decide
  obtain ⟨slih, need, sig, user, mask, active, count, again, enabled, pc⟩ := s
  cases pc with
  | clearActive c act | handlers c act nr | endlock c =>
    cases c with
    | loop => exact hor h
    | sched => exact h
  | testResched => exact hor h
  | _ => exact h

theorem Inv.interrupt (h : Inv held s) (hc : heeded s (.interrupt marks resched) = true) :
    Inv held (s.interrupt marks resched) := by
  refine ⟨fun hh => ?_, fun hh => ?_, h.slih, h.enabled⟩
  · obtain ⟨hcount, hw, hr, hpc⟩ := h.idle hh
    have hheld : s.held = true := by
      have hin : s.inBh = false := by
        rcases hpc with hpc | hpc | hpc | hpc | hpc | hpc | hpc <;> simp [Cpu.inBh, hpc]
      simp [Cpu.held, hcount, hin]
    rw [heeded, if_pos hheld, Bool.and_eq_true, decide_eq_true_eq] at hc
    obtain ⟨hm, hres⟩ := hc
    refine ⟨hcount, (work_interrupt hm).trans hw, ?_, hpc⟩
    change (s.needResched || resched) = false
    rw [hr]
    simpa using hres
  · obtain ⟨hcount, hb, hr, hpc⟩ := h.busy hh
    have hheld : s.held = false := by
      rw [Cpu.held, hcount]
      cases s.inBh <;> rfl
    rw [heeded, if_neg (by rw [hheld]; decide), Bool.and_eq_true, Bool.or_eq_true, Bool.or_eq_true,
      decide_eq_true_eq, Bool.not_eq_true'] at hc
    obtain ⟨hm, hres⟩ := hc
    refine ⟨hcount, fun hsee => ?_, fun hsee => ?_, hpc⟩
    · have hold := seesBh_interrupt hsee
      rcases hm with hm | hm
      · exact (leftover_interrupt hm).trans (hb hold)
      · exact absurd (hold.symm.trans hm) (by decide)
    · have hold : s.seesResched = false := hsee
      rcases hres with hres | hres
      · change (s.needResched || resched) = false
        rw [hr hold, hres]
        rfl
      · exact absurd (hold.symm.trans hres) (by decide)

end Interrupt

/-! ### Termination -/

namespace Cpu

def any (bhs : BitVec 32) : ℕ := if bhs = 0 then 0 else 1

/-- The bottom halves that `do_bottom_half` is not about to run. -/
def bhLeft (s : Cpu) : ℕ :=
  match s.pc with
  | .trylock _ | .getActive _ => 0
  | _ => any s.leftover

/-- `need_resched`, unless `schedule` is about to clear it. -/
def rsLeft (s : Cpu) : ℕ :=
  match s.pc with
  | .trylock .sched | .getActive .sched | .clearActive .sched _ | .handlers .sched _ _
  | .endlock .sched | .schedule | .schedTestBh | .schedClear => 0
  | _ => if s.needResched then 1 else 0

def round (s : Cpu) : ℕ :=
  match s.pc with
  | .cli | .returned | .crashed => 0
  | .top => if s.again then 2 else 0
  | .testBh | .testResched | .testSig => if s.again then 3 else 0
  | _ => 3

/-- What is left to do: a further round is paid for by the work that it does. -/
def weight (s : Cpu) : ℕ := 4 * (s.bhLeft + s.rsLeft) + s.round

def rank (s : Cpu) : ℕ :=
  match s.pc with
  | .returned | .crashed | .entry => 0
  | .cli => 1
  | .top => 2
  | .testSig | .schedSwitch => 3
  | .testResched | .schedClear => 4
  | .endlock _ => 5
  | .handlers _ active _ => 6 + active.toNat
  | .clearActive _ _ => 6 + 2 ^ 32
  | .getActive _ => 7 + 2 ^ 32
  | .trylock _ => 8 + 2 ^ 32
  | .testBh | .schedTestBh => 9 + 2 ^ 32
  | .schedule => 10 + 2 ^ 32

end Cpu

theorem shiftRight_one_lt {a : BitVec 32} (h : a >>> 1 ≠ 0) : (a >>> 1).toNat < a.toNat := by
  have hne : (a >>> 1).toNat ≠ 0 := fun h0 => h (BitVec.eq_of_toNat_eq h0)
  rw [BitVec.toNat_ushiftRight, Nat.shiftRight_eq_div_pow] at hne ⊢
  omega

/-- Where `do_bottom_half` or `schedule` is called, the bottom halves are not held off. -/
theorem Inv.count_eq_zero (h : Inv held s)
    (hpc : (∃ c, s.pc = .trylock c) ∨ s.pc = .schedule) : s.bhCount = 0 := by
  cases held with
  | true =>
    have := (h.idle rfl).pc
    rcases hpc with ⟨c, hpc⟩ | hpc <;> simp [hpc] at this
  | false =>
    rw [(h.busy rfl).count]
    rcases hpc with ⟨c, hpc⟩ | hpc <;> simp [Cpu.inBh, hpc]

/-- **Each statement** of `reschedule` leads to its end. -/
theorem Inv.run_down (h : Inv held s) (hs : s.run = some t) :
    t.weight < s.weight ∨ t.weight = s.weight ∧ t.rank < s.rank := by
  have hcount := h.count_eq_zero
  obtain ⟨slih, need, sig, user, mask, active, count, again, enabled, pc⟩ := s
  cases pc with
  | entry =>
    cases hs
    split_ifs
    · exact .inl (Nat.add_lt_add_left (show 0 < 3 by decide) _)
    · exact .inl (Nat.add_lt_add_left (show 2 < 3 by decide) _)
  | top =>
    cases hs
    obtain _ | _ := again
    · exact .inr ⟨rfl, Nat.one_lt_two⟩
    · exact .inl (Nat.add_lt_add_left (show 0 < 2 by decide) _)
  | testBh | schedTestBh =>
    cases hs
    split_ifs with hw
    · left
      have hany : Cpu.any (mask &&& active) = 1 := if_neg hw
      simp only [Cpu.weight, Cpu.bhLeft, Cpu.rsLeft, Cpu.round, Cpu.leftover, Cpu.work, hany]
      omega
    · exact .inr ⟨rfl, show 4 < 9 + 2 ^ 32 by omega⟩
  | trylock c =>
    obtain rfl : count = 0 := hcount (.inl ⟨c, rfl⟩)
    cases hs
    exact .inr ⟨by cases c <;> rfl, show 7 + 2 ^ 32 < 8 + 2 ^ 32 by omega⟩
  | getActive c =>
    cases hs
    have hany : Cpu.any (mask &&& active &&& ~~~(mask &&& active)) = 0 := if_pos (BitVec.and_not_self _)
    refine .inr ⟨?_, show 6 + 2 ^ 32 < 7 + 2 ^ 32 by omega⟩
    cases c <;> simp only [Cpu.weight, Cpu.bhLeft, Cpu.rsLeft, Cpu.round, Cpu.leftover, Cpu.work, hany]
  | clearActive c act =>
    cases hs
    refine .inr ⟨?_, Nat.add_lt_add_left act.isLt _⟩
    cases c <;>
      simp only [Cpu.weight, Cpu.bhLeft, Cpu.rsLeft, Cpu.round, Cpu.leftover, Cpu.work, BitVec.and_assoc]
  | handlers c act nr =>
    cases hs
    split_ifs with hw
    · exact .inr ⟨by cases c <;> rfl, Nat.add_lt_add_left (shiftRight_one_lt hw) _⟩
    · exact .inr ⟨by cases c <;> rfl, show 5 < 6 + act.toNat by omega⟩
  | endlock c =>
    cases hs
    cases c <;> exact .inr ⟨rfl, show 4 < 5 by decide⟩
  | testResched =>
    cases hs
    obtain _ | _ := need
    · obtain _ | _ := user
      · obtain _ | _ := again
        · exact .inr ⟨rfl, show 2 < 4 by decide⟩
        · exact .inl (Nat.add_lt_add_left (show 2 < 3 by decide) _)
      · exact .inr ⟨rfl, show 3 < 4 by decide⟩
    · left
      simp only [Cpu.weight, Cpu.bhLeft, Cpu.rsLeft, Cpu.round, Cpu.leftover, Cpu.work, if_true]
      omega
  | schedule =>
    obtain rfl : count = 0 := hcount (.inr rfl)
    cases hs
    exact .inr ⟨rfl, show 9 + 2 ^ 32 < 10 + 2 ^ 32 by omega⟩
  | schedClear =>
    cases hs
    exact .inr ⟨rfl, show 3 < 4 by decide⟩
  | schedSwitch =>
    cases hs
    exact .inl (Nat.add_lt_add_left (show 2 < 3 by decide) _)
  | testSig =>
    cases hs
    obtain _ | _ := again
    · exact .inr ⟨rfl, show 2 < 3 by decide⟩
    · obtain _ | _ := sig
      · exact .inl (Nat.add_lt_add_left (show 2 < 3 by decide) _)
      · exact .inl (Nat.add_lt_add_left (show 0 < 3 by decide) _)
  | cli =>
    cases hs
    exact .inr ⟨rfl, show 0 < 1 by decide⟩
  | returned | crashed => cases hs

theorem Inv.exists_run (h : Inv held s) (hret : s.pc ≠ .returned) : ∃ t, s.run = some t := by
  have hcr : s.pc ≠ .crashed := by
    cases held with
    | true =>
      have := (h.idle rfl).pc
      rintro hpc
      simp [hpc] at this
    | false => exact (h.busy rfl).pc
  rcases hpc : s.pc <;> simp_all [Cpu.run]

theorem Inv.returns (h : Inv held s) :
    ∃ t, ReachesBy step (fun _ e => e = .run) s t ∧ t.pc = .returned := by
  have wf : WellFounded (fun t s : Cpu => t.weight < s.weight ∨ t.weight = s.weight ∧ t.rank < s.rank) := by
    refine Subrelation.wf (fun {t s} hlt => ?_)
      (InvImage.wf (fun s : Cpu => (s.weight, s.rank)) (Prod.instWellFoundedRelation.wf : WellFounded
        (Prod.Lex (· < · : ℕ → ℕ → Prop) (· < · : ℕ → ℕ → Prop))))
    exact Prod.lex_iff.mpr hlt
  refine ReachesBy.of_wellFounded wf (I := Inv held) (fun s hi hret => ?_) h
  obtain ⟨t, ht⟩ := hi.exists_run hret
  exact ⟨.run, t, rfl, ht, hi.run ht, hi.run_down ht⟩

theorem Interrupted.inv (h : Interrupted s)
    (hheld : s.bhCount ≠ 0 → s.work = 0 ∧ s.needResched = false) : Inv (s.bhCount ≠ 0) s := by
  obtain ⟨hpc, hen, hin⟩ := h
  refine ⟨fun hh => ?_, fun hh => ?_, ?_, fun he => absurd (hen.symm.trans he) (by decide)⟩
  · have hc := of_decide_eq_true hh
    exact ⟨hc, (hheld hc).1, (hheld hc).2, .inl hpc⟩
  · have hc := not_not.mp (of_decide_eq_false hh)
    refine ⟨by simp [Cpu.inBh, hpc, hc], fun hsee => ?_, fun hsee => ?_, by simp [hpc]⟩
    · simp [Cpu.seesBh, hpc] at hsee
    · simp [Cpu.seesResched, hpc] at hsee
  · simp [hpc, hin]

/-- **`reschedule` settles.** Suppose that the code which was interrupted does not hold the bottom halves off, or that there
is nothing to do, and that what further interrupts bring can be heeded. Then `reschedule` returns with its work done. -/
theorem settles {s₀ s : Cpu} (h₀ : Interrupted s₀)
    (hheld : s₀.bhCount ≠ 0 → s₀.work = 0 ∧ s₀.needResched = false)
    (hr : ReachesBy step (fun s e => heeded s e = true) s₀ s) :
    (∃ t, ReachesBy step (fun _ e => e = .run) s t ∧ t.pc = .returned) ∧
      (s.pc = .returned → Settled (s₀.bhCount ≠ 0) s) := by
  have hinv : Inv (s₀.bhCount ≠ 0) s := by
    refine hr.invariant (h₀.inv hheld) fun s e t hi hc hs => ?_
    cases e with
    | run => exact hi.run hs
    | interrupt marks resched =>
      obtain ⟨-, rfl⟩ := of_guard hs
      exact hi.interrupt hc
  refine ⟨hinv.returns, fun hpc => ?_⟩
  have hin : s.inSlih = false := Bool.eq_false_of_not_eq_true fun h => (hinv.slih.mp h).2 hpc
  have hen : s.enabled = false := Bool.eq_false_of_not_eq_true fun h => by
    rw [hinv.enabled h] at hin
    cases hin
  rcases hh : decide (s₀.bhCount ≠ 0) with _ | _
  · obtain ⟨-, hb, hres, -⟩ := hinv.busy hh
    refine ⟨hen, hin, hres (by simp [Cpu.seesResched, hpc]), .inr ?_⟩
    have := hb (by simp [Cpu.seesBh, hpc])
    simpa [Cpu.leftover, hpc] using this
  · exact ⟨hen, hin, (hinv.idle hh).resched, .inl rfl⟩

/-- Interrupted kernel code: the bottom halves in `mask` are enabled, those in `active` marked. -/
def kernelState (mask active : BitVec 32) (count : ℕ) : Cpu :=
  ⟨false, false, false, false, mask, active, count, false, false, .entry⟩

/-- The timer is marked, and while its handler runs an interrupt marks it again and asks for a new choice
of the task. -/
theorem settles_timer : ∃ t, ReachesBy step (fun s e => heeded s e = true) (kernelState 1 1 0) t ∧
    t.pc = .returned ∧ Settled false t := by
  have hrun : ReachesBy step (fun s e => heeded s e = true) (kernelState 1 1 0) _ :=
    .of_exec (List.replicate 6 .run ++ .interrupt 1 true :: List.replicate 17 .run) _ _ rfl
  exact ⟨_, hrun, rfl, (settles ⟨rfl, rfl, rfl⟩ (by decide) hrun).2 rfl⟩

/-! ### When the bottom halves are held off -/

/-- The loop calls `do_bottom_half` in vain, round after round. -/
structure Turning (s : Cpu) : Prop where
  count : s.bhCount ≠ 0
  work : s.work ≠ 0
  resched : s.needResched = false
  quits : s.quits = false
  pc : s.pc = .entry ∧ s.inSlih = false ∨ s.pc = .top ∧ s.again = true ∨ s.pc = .testBh ∨
    s.pc = .trylock .loop ∨ s.pc = .testResched ∧ s.again = true ∨
    s.pc = .testSig ∧ s.again = true ∧ s.userMode = true

theorem Turning.run (h : Turning s) (hs : s.run = some t) : Turning t := by
  obtain ⟨hc, hw, hr, hq, hpc⟩ := h
  rcases hpc with ⟨hpc, hin⟩ | ⟨hpc, ha⟩ | hpc | hpc | ⟨hpc, ha⟩ | ⟨hpc, ha, hu⟩ <;>
    simp only [Cpu.run, hpc] at hs <;> cases hs
  · rw [if_neg (by rw [hin]; decide)]
    exact ⟨hc, hw, hr, hq, by simp⟩
  · rw [if_pos ha]
    exact ⟨hc, hw, hr, hq, by simp⟩
  · exact ⟨hc, hw, hr, hq, .inr (.inr (.inr (.inl (if_pos hw))))⟩
  · rw [if_neg hc]
    exact ⟨hc, hw, hr, hq, by simp [Cpu.afterBh]⟩
  · refine ⟨hc, hw, hr, hq, ?_⟩
    rcases hu : s.userMode <;> simp [hr, ha]
  · have hsig : s.sigpending = false := by
      rw [Cpu.quits, hu] at hq
      exact hq
    exact ⟨hc, hw, hr, hq, by simp [ha, hsig]⟩

/-- **Held off, the loop does not end**: a bottom half is marked, and no signal is pending. -/
theorem turns_for_ever (h : Interrupted s) (hc : s.bhCount ≠ 0) (hw : s.work ≠ 0)
    (hr : s.needResched = false) (hq : s.quits = false)
    (hreach : ReachesBy step (fun _ e => e = .run) s t) : t.pc ≠ .returned := by
  have ht : Turning t := by
    refine hreach.invariant ⟨hc, hw, hr, hq, .inl ⟨h.1, h.2.2⟩⟩ fun s e t hi he hs => ?_
    subst he
    exact hi.run hs
  intro hpc
  have := ht.pc
  simp [hpc] at this

/-- Inside `start_bh_atomic` with the timer marked `reschedule` never returns; and a mark that comes
after the last test is left behind. -/
theorem unsettled :
    (Interrupted (kernelState 1 1 1) ∧ ∀ t, ReachesBy step (fun _ e => e = .run) (kernelState 1 1 1) t →
      t.pc ≠ .returned) ∧
    ∃ t, Reaches step (kernelState 1 0 0) t ∧ t.pc = .returned ∧ t.bhCount = 0 ∧ t.work = 1 :=
  ⟨⟨by decide, fun _ h => turns_for_ever (by decide) (by decide) (by decide) rfl rfl h⟩,
    ⟨_, .of_exec [.run, .run, .run, .interrupt 1 false, .run, .run, .run] _ _ rfl, rfl, rfl, rfl⟩⟩

end I370Linux.Reschedule
