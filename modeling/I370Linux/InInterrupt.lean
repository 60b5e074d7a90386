import I370Linux.Runs

/-! # Counting interrupts

The counters behind `in_interrupt` on one processor: `irq_enter` and `irq_exit` of `do_IRQ` count in the PSA,
`in_interrupt` and `hardirq_trylock` of `asm-i370/hardirq.h` look at the array `local_irq_count`, and
`ei_time_slice` counts nowhere.  Only `local_bh_count` is both counted and looked at, so that the answers are right
exactly if no handler of an interrupt is active (`truthful_iff`). -/

namespace I370Linux.InInterrupt

open Runs

/-- What can be active on the processor. -/
inductive Frame where
  | doIRQ
  | eiTimeSlice
  | bottomHalves
  | bhAtomic
deriving DecidableEq

/-- The handlers of interrupts. -/
def Frame.hard : Frame → Bool
  | doIRQ | eiTimeSlice => true
  | bottomHalves | bhAtomic => false

/-- The counters, and what is active, the innermost first. -/
structure Cpu where
  psaIrqCount : ℕ
  localIrqCount : ℕ
  localBhCount : ℕ
  active : List Frame

/-- `in_interrupt` of `asm-i370/hardirq.h`. -/
def inInterrupt (s : Cpu) : Bool := s.localIrqCount + s.localBhCount ≠ 0

def hardirqTrylock (s : Cpu) : Bool := s.localIrqCount = 0

/-- `do_bottom_half` comes to `run_bottom_halves`: `softirq_trylock` and `hardirq_trylock` succeed. -/
def runsBottomHalves (s : Cpu) : Bool := s.localBhCount = 0 ∧ hardirqTrylock s

/-- Frames come and go. -/
inductive Event where
  | enter (f : Frame)
  | leave

/-- A frame is entered, or the innermost one is left. A `do_bottom_half` that does not come to
`run_bottom_halves` returns. -/
def step (s : Cpu) : Event → Option Cpu
  | .enter .doIRQ => some { s with psaIrqCount := s.psaIrqCount + 1, active := .doIRQ :: s.active }
  | .enter .eiTimeSlice => some { s with active := .eiTimeSlice :: s.active }
  | .enter .bottomHalves =>
    some (if runsBottomHalves s then { s with localBhCount := 1, active := .bottomHalves :: s.active } else s)
  | .enter .bhAtomic => some { s with localBhCount := s.localBhCount + 1, active := .bhAtomic :: s.active }
  | .leave =>
    match s.active with
    | [] => none
    | .doIRQ :: rest => some { s with psaIrqCount := s.psaIrqCount - 1, active := rest }
    | .eiTimeSlice :: rest => some { s with active := rest }
    | .bottomHalves :: rest => some { s with localBhCount := 0, active := rest }
    | .bhAtomic :: rest => some { s with localBhCount := s.localBhCount - 1, active := rest }

/-- The counters as `init_IRQ` leaves them. -/
def init : Cpu := ⟨0, 0, 0, []⟩

/-- `in_interrupt` tells the truth, `hardirq_trylock` fails inside of a handler of an interrupt, and inside of any
handler, a bottom half too, no bottom halves are run and `schedule` and a waiting page allocation are refused, the
latter where `ATOMIC_MEMORY_DEBUGGING` is defined. -/
def Truthful (debugging : Bool) (s : Cpu) : Prop :=
  (inInterrupt s = true ↔ s.active ≠ []) ∧ ∀ f ∈ s.active,
    (f.hard = true → hardirqTrylock s = false) ∧
    (f ≠ .bhAtomic → runsBottomHalves s = false ∧ inInterrupt s = true ∧ (debugging && inInterrupt s) = true)

/-- What can be active with which `local_bh_count`. -/
inductive Counts : List Frame → ℕ → Prop
  | nil : Counts [] 0
  | hard {f l n} (hf : f.hard = true) (h : Counts l n) : Counts (f :: l) n
  | bottomHalves {l} (h : Counts l 0) : Counts (.bottomHalves :: l) 1
  | bhAtomic {l n} (h : Counts l n) : Counts (.bhAtomic :: l) (n + 1)

theorem Counts.ne_zero_iff {l : List Frame} {n : ℕ} (h : Counts l n) : n ≠ 0 ↔ ∃ f ∈ l, f.hard = false := by
  induction h with
  | nil => simp
  | hard hf _ ih => simpa [hf] using ih
  | bottomHalves | bhAtomic => simp [Frame.hard]

def Inv (s : Cpu) : Prop := s.localIrqCount = 0 ∧ Counts s.active s.localBhCount

theorem inv_step (s : Cpu) (e : Event) (s' : Cpu) (h : Inv s) (_ : True) (hs : step s e = some s') : Inv s' := by
  obtain ⟨psa, irq, bh, active⟩ := s
  obtain ⟨rfl, h⟩ : irq = 0 ∧ Counts active bh := h
  cases e with
  | enter f =>
    cases f with
    | doIRQ | eiTimeSlice => cases hs; exact ⟨rfl, .hard rfl h⟩
    | bhAtomic => cases hs; exact ⟨rfl, .bhAtomic h⟩
    | bottomHalves =>
      cases hs
      split
      · next hrun =>
        obtain ⟨rfl, -⟩ : bh = 0 ∧ _ := of_decide_eq_true hrun
        exact ⟨rfl, .bottomHalves h⟩
      · exact ⟨rfl, h⟩
  | leave =>
    cases h with
    | nil => cases hs
    | bottomHalves h | bhAtomic h => cases hs; exact ⟨rfl, h⟩
    | @hard f l n hf h =>
      cases f <;> cases hf <;> cases hs <;> exact ⟨rfl, h⟩

/-- **The answers of `in_interrupt`** in every state that is reached: they are right exactly if nothing but atomic
sections is active, and bottom halves where `ATOMIC_MEMORY_DEBUGGING` is defined. -/
theorem truthful_iff (debugging : Bool) {s : Cpu} (hr : Reaches step init s) :
    Truthful debugging s ↔ ∀ f ∈ s.active, f = .bhAtomic ∨ f = .bottomHalves ∧ debugging = true := by
  obtain ⟨hirq, hcounts⟩ : Inv s := hr.invariant ⟨rfl, .nil⟩ inv_step
  have hin : inInterrupt s = true ↔ ∃ f ∈ s.active, f.hard = false := by
    rw [← hcounts.ne_zero_iff, inInterrupt, hirq, Nat.zero_add, decide_eq_true_iff]
  constructor
  · rintro ⟨-, h⟩ f hf
    obtain ⟨hhard, hrefused⟩ := h f hf
    cases f with
    | bhAtomic => exact .inl rfl
    | bottomHalves => exact .inr ⟨rfl, (Bool.and_eq_true_iff.mp (hrefused (by decide)).2.2).1⟩
    | _ =>
      -- `hardirq_trylock` looks at the array
      have := hhard rfl
      rw [hardirqTrylock, hirq] at this
      cases this
  · intro h
    have hsoft : ∀ f ∈ s.active, f.hard = false := by
      intro f hf
      obtain rfl | ⟨rfl, -⟩ := h f hf <;> rfl
    refine ⟨?_, fun f hf => ⟨fun hhard => absurd hhard (by rw [hsoft f hf]; decide), fun hne => ?_⟩⟩
    · refine hin.trans ⟨fun ⟨f, hf, _⟩ => List.ne_nil_of_mem hf, fun hne => ?_⟩
      obtain ⟨f, hf⟩ := List.exists_mem_of_ne_nil _ hne
      exact ⟨f, hf, hsoft f hf⟩
    · obtain ⟨-, hd⟩ := (h f hf).resolve_left hne
      have := hin.mpr ⟨f, hf, hsoft f hf⟩
      have hbh : s.localBhCount ≠ 0 := hcounts.ne_zero_iff.mpr ⟨f, hf, hsoft f hf⟩
      exact ⟨by simp [runsBottomHalves, hbh], this, by rw [this, hd]; rfl⟩

/-- Inside of an atomic section of a bottom half. -/
theorem truthful_iff_nested : ∃ s, Reaches step init s ∧ s.active = [.bhAtomic, .bottomHalves] ∧ Truthful true s := by
  have hr : Reaches step init ⟨0, 0, 2, [.bhAtomic, .bottomHalves]⟩ :=
    Reaches.of_exec [.enter .bottomHalves, .enter .bhAtomic] _ _ rfl
  exact ⟨_, hr, rfl, (truthful_iff true hr).mpr (by decide)⟩

/-- Inside of `do_IRQ`. -/
theorem unseen_doIRQ : ∃ s, Reaches step init s ∧ s.active = [.doIRQ] ∧ inInterrupt s = false ∧
    hardirqTrylock s = true ∧ runsBottomHalves s = true :=
  ⟨_, (ReachesBy.refl init).tail (a := .enter .doIRQ) trivial rfl, rfl, rfl, rfl, rfl⟩

end I370Linux.InInterrupt
