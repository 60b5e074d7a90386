import I370Linux.Runs

/-! # The interrupt handlers

The model of `request_irq`, `free_irq`, `do_IRQ` and `get_irq_list` of `arch/i370/kernel/irq.c`.  A
registration stands in two places: in the chain `irq_action[irq-1]` of the interrupt subclass and in
the unit block of the device.  `kmalloc` gives out addresses in order; `none` as a result means that a
loop over a chain does not end or meets freed memory.  The count of nested interrupts, which `do_IRQ`
raises and lowers, is left out, and so is subclass 0, whose chain would lie before the array.

`request_irq` looks for the end of the chain and stores nothing there.  So the chains stay empty
(`Inv`), `free_irq` finds nothing to free, and the unit block keeps the last handler ever requested for
it (`Inv.doIRQ`); `get_irq_list` lists nothing.  The registry is in order just until the first request (`registry_iff`). -/

namespace I370Linux.Irq

open Runs Function

abbrev NR_IRQS : ℕ := 128
abbrev SA_INTERRUPT : BitVec 32 := 0x20000000
abbrev SA_SAMPLE_RANDOM : BitVec 32 := 0x10000000

inductive Errno where
  | EINVAL
  | ENOMEM
deriving DecidableEq, Repr

/-- `struct irqaction`; pointers are addresses. -/
structure IrqAction where
  handler : ℕ
  flags : BitVec 32
  mask : BitVec 32
  name : String
  devId : ℕ
  next : Option ℕ
deriving DecidableEq, Repr

/-- The interrupt lists in the heap. -/
structure Registry where
  heap : ℕ → Option IrqAction
  /-- The next address that `kmalloc` gives out. -/
  brk : ℕ
  irqAction : ℕ → Option ℕ
  /-- The field `unitaction` of a unit block. -/
  unitaction : ℕ → Option ℕ
  /-- `kstat.irqs`. -/
  kstat : ℕ → ℕ
  /-- `rand_initialize_irq` was called for the subclass. -/
  randState : ℕ → Bool
  /-- The calls of `add_interrupt_randomness`. -/
  samples : List ℕ

def Registry.init : Registry :=
  ⟨fun _ => none, 0, fun _ => none, fun _ => none, fun _ => 0, fun _ => false, []⟩

/-- Where a pointer to an action is stored: the type of `p` in the loops. -/
inductive Slot where
  | head (i : ℕ)
  | next (addr : ℕ)
deriving DecidableEq, Repr

/-- `*p`. -/
def Registry.read (k : Registry) : Slot → Option (Option ℕ)
  | .head i => some (k.irqAction i)
  | .next addr => (k.heap addr).map IrqAction.next

/-- `*p = v`. -/
def Registry.write (k : Registry) (v : Option ℕ) : Slot → Registry
  | .head i => { k with irqAction := update k.irqAction i v }
  | .next addr =>
    { k with heap := update k.heap addr ((k.heap addr).map fun a => { a with next := v }) }

/-! ### Requests -/

/-- The loop of `request_irq` to the end of the chain. -/
def lastSlot (k : Registry) : ℕ → Slot → Option Slot
  | 0, _ => none
  | n + 1, p =>
    match k.read p with
    | none => none
    | some none => some p
    | some (some old) => lastSlot k n (.next old)

/-- A call of `request_irq` or `free_irq`; `mem` is whether `kmalloc` succeeds. -/
inductive Call where
  | request (irq : ℕ) (handler : Option ℕ) (flags : BitVec 32) (name : String) (dev : ℕ) (mem : Bool)
  | free (irq dev : ℕ)

/-- `request_irq`.  Nothing is stored at the end of the chain. -/
def requestIrq (k : Registry) (irq : ℕ) (handler : Option ℕ) (flags : BitVec 32) (name : String)
    (dev : ℕ) (mem : Bool) : Option (Option Errno × Registry) :=
  if NR_IRQS < irq then some (some .EINVAL, k)
  else
    match handler with
    | none => some (some .EINVAL, k)
    | some handler =>
      if !mem then some (some .ENOMEM, k)
      else
        let action := k.brk
        let k := { k with
          brk := action + 1
          heap := update k.heap action (some ⟨handler, flags, 0, name, dev, none⟩)
          unitaction := update k.unitaction dev (some action) }
        match lastSlot k (k.brk + 1) (.head (irq - 1)) with
        | none => none
        | some _ =>
          some (none, if flags &&& SA_SAMPLE_RANDOM ≠ 0
            then { k with randState := update k.randState irq true } else k)

/-- The loop of `free_irq`. -/
def freeLoop (k : Registry) (dev : ℕ) : ℕ → Slot → Option Registry
  | 0, _ => none
  | n + 1, p =>
    match k.read p with
    | none => none
    | some none => some k
    | some (some addr) =>
      match k.heap addr with
      | none => none
      | some action =>
        if action.devId ≠ dev then freeLoop k dev n (.next addr)
        else
          let k := k.write action.next p
          some { k with
            unitaction := update k.unitaction dev none
            heap := update k.heap addr none }

def freeIrq (k : Registry) (irq dev : ℕ) : Option Registry :=
  if NR_IRQS < irq then some k else freeLoop k dev (k.brk + 1) (.head (irq - 1))

def step (k : Registry) : Call → Option Registry
  | .request irq handler flags name dev mem =>
    (requestIrq k irq handler flags name dev mem).map Prod.snd
  | .free irq dev => freeIrq k irq dev

/-! ### Chains -/

def walk (heap : ℕ → Option IrqAction) : ℕ → Option ℕ → Option (List IrqAction)
  | _, none => some []
  | 0, some _ => none
  | n + 1, some addr =>
    match heap addr with
    | none => none
    | some action => (walk heap n action.next).map (action :: ·)

/-- The chain `irq_action[i]`. -/
def chain (k : Registry) (i : ℕ) : Option (List IrqAction) := walk k.heap k.brk (k.irqAction i)

structure Invocation where
  handler : ℕ
  irq : ℕ
  devId : ℕ
deriving DecidableEq, Repr

/-- `do_IRQ`, with the handlers it calls. -/
def doIRQ (k : Registry) (irq ucb : ℕ) : Option (List Invocation × Registry) :=
  match walk k.heap k.brk (k.unitaction ucb) with
  | none => none
  | some actions =>
    let doRandom := actions.foldl (fun r a => r ||| a.flags) 0
    some ((actions.filter (·.devId = ucb)).map fun a => ⟨a.handler, irq, a.devId⟩,
      { k with
        kstat := update k.kstat irq (k.kstat irq + 1)
        samples := if doRandom &&& SA_SAMPLE_RANDOM ≠ 0 then k.samples ++ [irq] else k.samples })

/-- Right-justify, as `%2d` does. -/
def justify (n : ℕ) (s : String) : String := "".pushn ' ' (n - s.length) ++ s

/-- The line of `get_irq_list` for a chain. -/
def irqLine (i count : ℕ) : List IrqAction → String
  | [] => ""
  | action :: rest =>
    justify 2 (toString i) ++ ": " ++ justify 8 (toString count) ++ " " ++
      (if action.flags &&& SA_INTERRUPT ≠ 0 then "+" else " ") ++ " " ++ action.name ++
      String.join (rest.map fun a =>
        "," ++ (if a.flags &&& SA_INTERRUPT ≠ 0 then " +" else "") ++ " " ++ a.name) ++ "\n"

def getIrqList (k : Registry) : Option String :=
  ((List.range NR_IRQS).mapM fun i => (chain k i).map (irqLine i (k.kstat i))).map String.join

/-! ### What the calls register -/

structure Registration where
  irq : ℕ
  handler : ℕ
  flags : BitVec 32
  name : String
  dev : ℕ
deriving DecidableEq, Repr

def Call.registration : Call → Option Registration
  | .request irq (some handler) flags name dev true =>
    if NR_IRQS < irq then none else some ⟨irq, handler, flags, name, dev⟩
  | _ => none

/-- The live registrations after a call, in the order of the requests. -/
def register (live : List Registration) : Call → List Registration
  | .free irq dev => live.filter fun r => ¬ (r.irq = irq ∧ r.dev = dev)
  | c => live ++ c.registration.toList

def live (calls : List Call) : List Registration := calls.foldl register []

/-- The calls are for subclasses from 1 on, every request has a handler and memory, and is for a unit
that has no live registration. -/
def WellUsed : List Registration → List Call → Prop
  | _, [] => True
  | l, c :: calls =>
    (match c with
      | .request irq handler _ _ dev mem =>
        1 ≤ irq ∧ irq ≤ NR_IRQS ∧ handler.isSome ∧ mem = true ∧ ∀ r ∈ l, r.dev ≠ dev
      | .free irq _ => 1 ≤ irq ∧ irq ≤ NR_IRQS) ∧
    WellUsed (register l c) calls

/-- The registry is in step with the live registrations: every chain lists those of its subclass, and
an interrupt calls the handler of the unit once if there is one. -/
structure Agrees (k : Registry) (l : List Registration) : Prop where
  chains : ∀ irq, 1 ≤ irq → irq ≤ NR_IRQS →
    (chain k (irq - 1)).map (List.map fun a => ⟨irq, a.handler, a.flags, a.name, a.devId⟩) =
      some (l.filter (·.irq = irq))
  invokes : ∀ irq ucb, (doIRQ k irq ucb).map Prod.fst =
    some ((l.filter (·.dev = ucb)).map fun r => ⟨r.handler, irq, ucb⟩)

/-! ### What the code registers -/

/-- The last registration that was ever requested for a unit. -/
def last (ever : ℕ → Option Registration) (c : Call) : ℕ → Option Registration :=
  match c.registration with
  | none => ever
  | some r => update ever r.dev (some r)

/-- The chains are empty, and each unit block names the last action requested for it. -/
structure Inv (k : Registry) (ever : ℕ → Option Registration) : Prop where
  empty : ∀ i, k.irqAction i = none
  unit : ∀ u, match ever u with
    | none => k.unitaction u = none
    | some r => ∃ a < k.brk, k.unitaction u = some a ∧
        k.heap a = some ⟨r.handler, r.flags, 0, r.name, u, none⟩

theorem inv_init : Inv .init fun _ => none := ⟨fun _ => rfl, fun _ => rfl⟩

section Inv

variable {k k' : Registry} {ever : ℕ → Option Registration} (h : Inv k ever)

include h

theorem Inv.read_head (i : ℕ) : k.read (.head i) = some none := congrArg some (h.empty i)

theorem Inv.freeIrq (irq dev : ℕ) : freeIrq k irq dev = some k := by
  rw [Irq.freeIrq]
  split_ifs
  · rfl
  · rw [freeLoop, h.read_head]

theorem Inv.chain (i : ℕ) : chain k i = some [] := by
  rw [Irq.chain, h.empty, walk]

/-- `get_irq_list` lists nothing. -/
theorem Inv.getIrqList : getIrqList k = some "" := by
  simp only [Irq.getIrqList, h.chain, Option.map_some, irqLine]
  decide +kernel

theorem Inv.step (c : Call) : ∃ k', step k c = some k' ∧ Inv k' (last ever c) := by
  cases c with
  | free irq dev => exact ⟨k, h.freeIrq irq dev, h⟩
  | request irq handler flags name dev mem =>
    rw [Irq.step]
    by_cases hirq : NR_IRQS < irq
    · refine ⟨k, by rw [requestIrq.eq_def, if_pos hirq]; rfl, ?_⟩
      have hreg : (Call.request irq handler flags name dev mem).registration = none := by
        rcases handler with _ | handler <;> rcases mem with _ | _ <;> first | rfl | exact if_pos hirq
      rw [last, hreg]
      exact h
    · rw [requestIrq.eq_def, if_neg hirq]
      rcases handler with _ | handler
      · exact ⟨k, rfl, h⟩
      rcases mem with _ | _
      · exact ⟨k, rfl, h⟩
      have hreg : (Call.request irq (some handler) flags name dev true).registration =
          some ⟨irq, handler, flags, name, dev⟩ := if_neg hirq
      rw [last, hreg]
      dsimp only
      rw [if_neg (by decide), lastSlot]
      simp only [Registry.read, h.empty, Option.map_some]
      refine ⟨_, rfl, ?_⟩
      have hnew : Inv { k with
          brk := k.brk + 1
          heap := update k.heap k.brk (some ⟨handler, flags, 0, name, dev, none⟩)
          unitaction := update k.unitaction dev (some k.brk) }
          (update ever dev (some ⟨irq, handler, flags, name, dev⟩)) := by
        refine ⟨h.empty, fun u => ?_⟩
        rcases eq_or_ne u dev with rfl | hu
        · simp only [update_self]
          exact ⟨k.brk, lt_add_one _, rfl, update_self ..⟩
        have hunit := h.unit u
        simp only [update_of_ne hu]
        rcases hu' : ever u with _ | r
        · rw [hu'] at hunit
          exact hunit
        · rw [hu'] at hunit
          obtain ⟨a, ha, hua, hheap⟩ := hunit
          exact ⟨a, lt_add_of_lt_of_nonneg ha zero_le_one, hua, (update_of_ne ha.ne _ _).trans hheap⟩
      split_ifs <;> exact ⟨hnew.empty, hnew.unit⟩

/-- **What an interrupt calls**: the handler that was last requested for the unit, freed or not. -/
theorem Inv.doIRQ (irq u : ℕ) : (doIRQ k irq u).map Prod.fst =
    some ((ever u).toList.map fun r => ⟨r.handler, irq, u⟩) := by
  have hunit := h.unit u
  rw [Irq.doIRQ]
  rcases hu : ever u with _ | r
  · rw [hu] at hunit
    rw [hunit, walk]
    rfl
  rw [hu] at hunit
  obtain ⟨a, ha, hua, hheap⟩ := hunit
  obtain ⟨n, hn⟩ := Nat.exists_eq_succ_of_ne_zero (Nat.ne_of_gt (Nat.zero_lt_of_lt ha))
  rw [hua, hn, walk, hheap]
  simp [walk]

end Inv

theorem inv_run (calls : List Call) : ∃ k, exec step (fun _ _ => true) .init calls = some k ∧
    Inv k (calls.foldl last fun _ => none) := by
  induction calls using List.reverseRecOn with
  | nil => exact ⟨.init, rfl, inv_init⟩
  | append_singleton calls c ih =>
    obtain ⟨k, hk, hinv⟩ := ih
    obtain ⟨k', hk', hinv'⟩ := hinv.step c
    refine ⟨k', ?_, ?_⟩
    · rw [exec] at hk ⊢
      rw [List.foldlM_append, hk]
      simpa using hk'
    · rw [List.foldl_append]
      exact hinv'

variable {l : List Registration} {c : Call} {r : Registration} {calls : List Call}

theorem register_of_registration (h : c.registration = some r) : register l c = l ++ [r] := by
  cases c with
  | free irq dev => cases h
  | request irq handler flags name dev mem => exact congrArg (fun o => l ++ o.toList) h

theorem WellUsed.range {A B : List Call}
    (h : WellUsed l (A ++ c :: B)) (hr : c.registration = some r) : 1 ≤ r.irq ∧ r.irq ≤ NR_IRQS := by
  induction A generalizing l with
  | nil =>
    cases c with
    | free irq dev => cases hr
    | request irq handler flags name dev mem =>
      obtain ⟨⟨h1, h2, -⟩, -⟩ := h
      rcases handler with _ | handler <;> rcases mem with _ | _
      · cases hr
      · cases hr
      · cases hr
      · rw [Call.registration, if_neg (not_lt.mpr h2)] at hr
        cases hr
        exact ⟨h1, h2⟩
  | cons a A ih => exact ih h.2

theorem live_of_none (h : ∀ c ∈ calls, c.registration = none) : live calls = [] := by
  rw [live]
  induction calls with
  | nil => rfl
  | cons c calls ih =>
    have hc : register [] c = [] := by
      cases c with
      | free irq dev => rfl
      | request irq handler flags name dev mem =>
        exact congrArg (fun o : Option Registration => [] ++ o.toList) (h _ List.mem_cons_self)
    rw [List.foldl_cons, hc]
    exact ih fun c hc => h c (List.mem_cons_of_mem _ hc)

theorem last_of_none {ever : ℕ → Option Registration}
    (h : ∀ c ∈ calls, c.registration = none) : calls.foldl last ever = ever := by
  induction calls with
  | nil => rfl
  | cons c calls ih =>
    rw [List.foldl_cons, show last ever c = ever by rw [last, h _ List.mem_cons_self]]
    exact ih fun c hc => h c (List.mem_cons_of_mem _ hc)

/-- **The registry** is in step with the calls all along just if no handler is ever requested, and
`get_irq_list` never lists one. -/
theorem registry_iff {calls : List Call} (hused : WellUsed [] calls) :
    ((∀ n, ∃ k, exec step (fun _ _ => true) .init (calls.take n) = some k ∧
      Agrees k (live (calls.take n))) ↔ ∀ c ∈ calls, c.registration = none) ∧
    ∃ k, exec step (fun _ _ => true) .init calls = some k ∧ getIrqList k = some "" := by
  refine ⟨?_, (inv_run calls).imp fun k h => ⟨h.1, h.2.getIrqList⟩⟩
  constructor
  · intro h c hc
    by_contra hreg
    obtain ⟨r, hr⟩ := Option.ne_none_iff_exists'.mp hreg
    obtain ⟨A, B, rfl⟩ := List.append_of_mem hc
    obtain ⟨k, hk, hagree⟩ := h (A.length + 1)
    obtain ⟨k', hk', hinv⟩ := inv_run ((A ++ c :: B).take (A.length + 1))
    obtain rfl := Option.some_inj.mp (hk.symm.trans hk')
    -- the request is live, and the chain of its subclass is empty
    have hrange := hused.range hr
    have hchain := hagree.chains r.irq hrange.1 hrange.2
    rw [hinv.chain] at hchain
    have hmem : r ∈ (live ((A ++ c :: B).take (A.length + 1))).filter (·.irq = r.irq) := by
      refine List.mem_filter.mpr ⟨?_, by simp⟩
      rw [List.take_append, List.take_of_length_le (Nat.le_succ _)]
      simp [live, List.foldl_append, register_of_registration hr]
    rw [← Option.some_inj.mp hchain] at hmem
    cases hmem
  · intro h n
    obtain ⟨k, hk, hinv⟩ := inv_run (calls.take n)
    refine ⟨k, hk, ?_⟩
    have hnone : ∀ c ∈ calls.take n, c.registration = none := fun c hc => h c (List.mem_of_mem_take hc)
    rw [last_of_none hnone] at hinv
    rw [live_of_none hnone]
    exact ⟨fun irq _ _ => by rw [hinv.chain]; rfl, fun irq u => hinv.doIRQ irq u⟩

/-- Before any request, `free_irq` does no harm. -/
theorem registry_iff_free : WellUsed [] [.free 3 7] ∧
    ∀ n, ∃ k, exec step (fun _ _ => true) .init ([Call.free 3 7].take n) = some k ∧
      Agrees k (live ([Call.free 3 7].take n)) :=
  have hused : WellUsed [] [.free 3 7] := ⟨by decide, trivial⟩
  ⟨hused, (registry_iff hused).1.mpr (by decide)⟩

/-- A handler is requested and freed: the chain has never listed it, and it is still called. -/
theorem freed_handler_called :
    let calls := [Call.request 3 (some 5) SA_INTERRUPT "raw" 7 true, .free 3 7]
    WellUsed [] calls ∧ live (calls.take 1) = [⟨3, 5, SA_INTERRUPT, "raw", 7⟩] ∧
    (exec step (fun _ _ => true) .init (calls.take 1)).bind (chain · 2) = some [] ∧
    live calls = [] ∧
    ((exec step (fun _ _ => true) .init calls).bind (doIRQ · 3 7)).map Prod.fst = some [⟨5, 3, 7⟩] := by
  refine ⟨⟨by decide, by decide, trivial⟩, by decide, by decide, by decide, by decide⟩

end I370Linux.Irq
