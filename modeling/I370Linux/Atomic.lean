import I370Linux.CasLoop
import I370Linux.Runs

/-! # Atomic counters

The operations of `asm-i370/atomic.h` on one `atomic_t` by any number of processors, and the first test of `up`.
Each operation is a loop of two loads, one instruction on the second of them and `CS`; `atomic_add`,
`atomic_sub`, `atomic_inc` and `atomic_dec` drop the result of the `_return` form.

`LA` in `atomic_inc_return` computes an address of 31 bits, so that the count 1 below zero is the only negative
one that it increments.  A counter that changes between the two loads and changes back is overwritten as well. -/

namespace I370Linux.Atomic

open Runs CasLoop Function

inductive Op where
  | addReturn (inc : BitVec 32)
  | subReturn (inc : BitVec 32)
  | subAndTest (inc : BitVec 32)
  | incReturn
  | decReturn
  | decAndTest
deriving DecidableEq

namespace Op

/-- What `AR`, `SR` or `LA` makes of the second load. -/
def newval : Op → BitVec 32 → BitVec 32
  | addReturn inc, v => v + inc
  | subReturn inc, v | subAndTest inc, v => v - inc
  | incReturn, v => (v + 1) &&& 0x7fffffff
  | decReturn, v | decAndTest, v => v - 1

def tests : Op → Bool
  | subAndTest _ | decAndTest => true
  | _ => false

def result (op : Op) (newval : BitVec 32) : BitVec 32 :=
  if op.tests then (if 0 = newval then 1 else 0) else newval

def amount : Op → BitVec 32
  | addReturn inc => inc
  | subReturn inc | subAndTest inc => -inc
  | incReturn => 1
  | decReturn | decAndTest => -1

end Op

/-- `up`: the count, and whether it calls `__up`. -/
def up (count : BitVec 32) : BitVec 32 × Bool :=
  let c := Op.newval .incReturn count
  (c, c.toInt ≤ 0)

/-- The counter and the processors. Ghosts are the sum of the completed operations, and for each of them what it
stored and returned. -/
structure Sys (ι : Type) where
  counter : BitVec 32
  cpu : ι → Option (Op × Loop (BitVec 32))
  sum : BitVec 32
  done : List (Op × BitVec 32 × BitVec 32)

def init (ι : Type) (c : BitVec 32) : Sys ι := ⟨c, fun _ => none, 0, []⟩

/-- A processor calls, or runs on. -/
inductive Event (ι : Type) where
  | call (i : ι) (op : Op)
  | run (i : ι)

variable {ι : Type} [DecidableEq ι]

/-- A processor begins an operation, or makes its next access. -/
def step (s : Sys ι) : Event ι → Option (Sys ι)
  | .call i op =>
    if (s.cpu i).isNone then some { s with cpu := update s.cpu i (some (op, .first)) } else none
  | .run i =>
    match s.cpu i with
    | none => none
    | some (op, loop) =>
      match loop.access s.counter with
      | .inl loop => some { s with cpu := update s.cpu i (some (op, loop)) }
      | .inr v => some ⟨op.newval v, update s.cpu i none, s.sum + op.amount,
          (op, op.newval v, op.result (op.newval v)) :: s.done⟩

def Exact (c : BitVec 32) (s : Sys ι) : Prop :=
  s.counter = c + s.sum ∧ ∀ d ∈ s.done, if d.1.tests then d.2.2 ≠ 0 ↔ d.2.1 = 0 else d.2.2 = d.2.1

/-- The condition on a swap that succeeds: the two loads gave the same, and `LA` does not reach the high bit. -/
def fits (s : Sys ι) : Event ι → Bool
  | .call _ _ => true
  | .run i =>
    match s.cpu i with
    | some (op, .swap old new) =>
      decide (s.counter = old → new = old ∧ (op = .incReturn → (old + 1).toNat < 2 ^ 31))
    | _ => true

theorem newval_incReturn (v : BitVec 32) : Op.newval .incReturn v = v + 1 ↔ (v + 1).toNat < 2 ^ 31 := by
  have hmask : (0x7fffffff : BitVec 32).toNat = 2 ^ 31 - 1 := rfl
  rw [Op.newval, ← BitVec.toNat_inj, BitVec.toNat_and, hmask, Nat.and_two_pow_sub_one_eq_mod]
  omega

theorem newval_eq (op : Op) {v : BitVec 32} (h : op = .incReturn → (v + 1).toNat < 2 ^ 31) :
    op.newval v = v + op.amount := by
  cases op with
  | incReturn => exact (newval_incReturn v).mpr (h rfl)
  | addReturn inc => rfl
  | _ => exact BitVec.sub_eq_add_neg ..

theorem result_spec (op : Op) (v : BitVec 32) :
    if op.tests then op.result v ≠ 0 ↔ v = 0 else op.result v = v := by
  rw [Op.result]
  split
  · by_cases hv : 0 = v
    · rw [if_pos hv]
      exact iff_of_true (by decide) hv.symm
    · rw [if_neg hv]
      exact iff_of_false (by simp) (Ne.symm hv)
  · rfl

theorem exact_step {c : BitVec 32} (s : Sys ι) (e : Event ι) (s' : Sys ι) (h : Exact c s) (hf : fits s e = true)
    (hs : step s e = some s') : Exact c s' := by
  cases e with
  | call i op =>
    obtain ⟨-, rfl⟩ := of_guard hs
    exact h
  | run i =>
    simp only [step, fits] at hs hf
    split at hs
    · cases hs
    next op loop hcpu =>
    split at hs
    · cases hs
      exact h
    next v hacc =>
    cases hs
    cases loop with
    | first | second old => cases hacc
    | swap old new =>
      rw [hcpu] at hf
      rw [Loop.access] at hacc
      split_ifs at hacc with heq
      obtain rfl := Sum.inr.inj hacc
      obtain ⟨rfl, hinc⟩ := of_decide_eq_true hf heq
      refine ⟨?_, List.forall_mem_cons.mpr ⟨result_spec _ _, h.2⟩⟩
      show op.newval new = c + (s.sum + op.amount)
      rw [newval_eq op hinc, ← heq, h.1, BitVec.add_assoc]

/-- **The atomic counters.** In every run whose swaps meet the condition the counter and the results are exact;
and `up` raises a negative count by one exactly if it is -1. -/
theorem exact_of_fits (c : BitVec 32) {s : Sys ι}
    (hr : ReachesBy step (fun s e => fits s e = true) (init ι c) s) :
    Exact c s ∧ ∀ count : BitVec 32, count.toInt < 0 → ((up count).1 = count + 1 ↔ count = -1) := by
  refine ⟨hr.invariant ⟨(BitVec.add_zero c).symm, by simp [init]⟩ exact_step, fun count hneg => ?_⟩
  rw [BitVec.toInt_neg_iff] at hneg
  refine (newval_incReturn count).trans ?_
  bv_omega

theorem exact_of_fits_inc : ∃ s : Sys Bool, s.counter = 7 ∧ Exact 6 s := by
  have hx : (exec step fits (init Bool 6) [.call true .incReturn, .run true, .run true, .run true]).map
      (·.counter) = some 7 := by decide
  obtain ⟨s, hs, hc⟩ := Option.map_eq_some_iff.mp hx
  exact ⟨s, hc, (exact_of_fits 6 (ReachesBy.of_exec _ _ _ hs)).1⟩

/-- One processor increments -2, and `up` with this count wakes nobody. -/
theorem inc_clears_sign : (∃ s : Sys Bool, Reaches step (init Bool (-2)) s ∧ s.counter = 0x7fffffff ∧ s.sum = 1) ∧
    up (-2) = (0x7fffffff, false) :=
  ⟨Reaches.exists_of_exec [.call true .incReturn, .run true, .run true, .run true] (by decide), rfl⟩

end I370Linux.Atomic
