import I370Linux.CasLoop
import I370Linux.Runs

/-! # The exclusion of bottom halves

The model of `disable_bh`, `enable_bh`, `start_bh_atomic`, `end_bh_atomic` and `mark_bh` of
`asm-i370/softirq.h` and of `do_bottom_half` of `kernel/softirq.c`, at the level of single loads and
stores.  The code that runs is a balanced program (`Code`); what is left to do is one list of items, on
top of which an interrupt at any point puts a further program and a handler of a bottom half its own.
A word is given by its bits, and every program for which `disable_bh` has been called has `enable_bh`
on its list.

`owed`, `wrong` and `missed` are ghost fields: the marks that were not followed by a start, a start that
should not have been, and a mark that `do_bottom_half` has passed over.

An atomic operation of `asm-i370/atomic.h` or `bitops.c` is a loop of two loads and a compare and
swap, and an interrupt can come between any two of them (`Loop`).  The counts are numbers of open
sections, so that the width of the word does not matter.  `hardirq_trylock` never fails:
`irq_enter` counts in another word than the one that it tests.

Two things go wrong.  `disable_bh` clears the bit in `bh_mask` before it raises the count: if an
interrupt in between calls `disable_bh` and `enable_bh` for the same handler, the bit is set again.  And
`set_bit` stores what its second load has given: if marks were cleared before that load and set again
after it, the swap succeeds and they are lost.  In a run without the two (`ordered`), the exclusion
holds (`exclusion`). -/

namespace I370Linux.BottomHalf

open Runs CasLoop Function List

abbrev Nr := Fin 32

abbrev Word := Nr → Bool

/-- A program: pairs of `disable_bh` and `enable_bh`, pairs of `start_bh_atomic` and `end_bh_atomic`,
`mark_bh` and `do_bottom_half`, one after the other. -/
inductive Code where
  | done
  | markBh (nr : Nr) (next : Code)
  | doBottomHalf (next : Code)
  | disableBh (nr : Nr) (body next : Code)
  | bhAtomic (body next : Code)
deriving DecidableEq, Repr

inductive Item where
  | code (c : Code)
  /-- `mark_bh`: `set_bit (nr, &bh_active)`. -/
  | markBh (loop : Loop Word) (nr : Nr)
  /-- `disable_bh`: `bh_mask` is loaded, and is stored without the bit. -/
  | clearBit (nr : Nr) (mask : Word) (body next : Code)
  /-- `disable_bh`: `atomic_inc (&bh_mask_count[nr])`. -/
  | incCount (loop : Loop ℤ) (nr : Nr) (body next : Code)
  /-- `enable_bh`: `atomic_dec_and_test (&bh_mask_count[nr])`. -/
  | enableBh (loop : Loop ℤ) (nr : Nr)
  /-- `enable_bh`: the count is 0, and `bh_mask` is loaded. -/
  | loadMask (nr : Nr)
  /-- `enable_bh`: `bh_mask` is stored with the bit. -/
  | setBit (nr : Nr) (mask : Word)
  /-- `start_bh_atomic`: `local_bh_count` is loaded, and is stored with 1 added. -/
  | storeStart (count : ℕ) (body next : Code)
  /-- `end_bh_atomic`: `local_bh_count` is loaded. -/
  | endBhAtomic
  /-- `end_bh_atomic`: `local_bh_count` is stored with 1 subtracted. -/
  | storeEnd (count : ℕ)
  /-- `softirq_trylock`: `local_bh_count` was 0, and 1 is stored. -/
  | tryStore
  /-- `get_active_bhs`: `bh_mask` is loaded. -/
  | getMask
  /-- `get_active_bhs`: `bh_active` is loaded. -/
  | getActive (mask : Word)
  /-- `clear_active_bhs`, with the marks that are due. -/
  | clearActive (loop : Loop Word) (active due : Word)
  /-- A turn of the loop over the handlers. -/
  | bh (active due : Word) (nr : Nr)
  /-- A handler returns. -/
  | handlerRet (nr : Nr)
  | softirqEndlock (due : Word)
deriving DecidableEq

/-- One processor with its bottom halves. -/
structure Cpu where
  bhMask : Word
  bhActive : Word
  bhMaskCount : Nr → ℤ
  /-- `local_bh_count`. -/
  bhCount : ℕ
  todo : List Item
  owed : Word
  wrong : Bool
  missed : Bool

/-- The handler may not start here: it is disabled, or another handler or an atomic section is under
way. -/
def forbids (nr : Nr) : Item → Bool
  | .enableBh _ m => m = nr
  | .endBhAtomic | .handlerRet _ => true
  | _ => false

/-- The loop over the handlers after a turn: `active >>= 1` and the test. -/
def afterTurn (active due : Word) (nr : Nr) : Item :=
  if ∃ i, nr < i ∧ active i = true then .bh active due (nr + 1) else .softirqEndlock due

def run (bhBase : Nr → Code) (s : Cpu) (rest : List Item) : Item → Cpu
  | .code .done => { s with todo := rest }
  | .code (.markBh nr next) => { s with todo := .markBh .first nr :: .code next :: rest }
  | .code (.doBottomHalf next) =>
    { s with todo := if s.bhCount = 0 then .tryStore :: .code next :: rest else .code next :: rest }
  | .code (.disableBh nr body next) => { s with todo := .clearBit nr s.bhMask body next :: rest }
  | .code (.bhAtomic body next) => { s with todo := .storeStart s.bhCount body next :: rest }
  | .markBh loop nr =>
    match loop.access s.bhActive with
    | .inl loop => { s with todo := .markBh loop nr :: rest }
    | .inr active =>
      { s with
        bhActive := update active nr true
        owed := update s.owed nr true
        todo := rest }
  | .clearBit nr mask body next =>
    { s with bhMask := update mask nr false, todo := .incCount .first nr body next :: rest }
  | .incCount loop nr body next =>
    match loop.access (s.bhMaskCount nr) with
    | .inl loop => { s with todo := .incCount loop nr body next :: rest }
    | .inr count =>
      { s with
        bhMaskCount := update s.bhMaskCount nr (count + 1)
        todo := .code body :: .enableBh .first nr :: .code next :: rest }
  | .enableBh loop nr =>
    match loop.access (s.bhMaskCount nr) with
    | .inl loop => { s with todo := .enableBh loop nr :: rest }
    | .inr count =>
      { s with
        bhMaskCount := update s.bhMaskCount nr (count - 1)
        todo := if count - 1 = 0 then .loadMask nr :: rest else rest }
  | .loadMask nr => { s with todo := .setBit nr s.bhMask :: rest }
  | .setBit nr mask => { s with bhMask := update mask nr true, todo := rest }
  | .storeStart count body next =>
    { s with bhCount := count + 1, todo := .code body :: .endBhAtomic :: .code next :: rest }
  | .endBhAtomic => { s with todo := .storeEnd s.bhCount :: rest }
  | .storeEnd count => { s with bhCount := count - 1, todo := rest }
  | .tryStore => { s with bhCount := 1, todo := .getMask :: rest }
  | .getMask => { s with todo := .getActive s.bhMask :: rest }
  | .getActive mask =>
    { s with
      todo := .clearActive .first (fun i => mask i && s.bhActive i) (fun i => mask i && s.owed i) ::
        rest }
  | .clearActive loop active due =>
    match loop.access s.bhActive with
    | .inl loop => { s with todo := .clearActive loop active due :: rest }
    | .inr word =>
      { s with bhActive := fun i => word i && !active i, todo := .bh active due 0 :: rest }
  | .bh active due nr =>
    let due := if active nr then update due nr false else due
    if active nr then
      { s with
        owed := update s.owed nr false
        wrong := s.wrong || rest.any (forbids nr)
        todo := .code (bhBase nr) :: .handlerRet nr :: afterTurn active due nr :: rest }
    else { s with todo := afterTurn active due nr :: rest }
  | .handlerRet _ => { s with todo := rest }
  | .softirqEndlock due =>
    { s with bhCount := 0, missed := s.missed || decide (∃ i, due i = true), todo := rest }

inductive Event where
  | run
  /-- An interrupt, whose handler is a program. -/
  | interrupt (c : Code)
deriving DecidableEq, Repr

def step (bhBase : Nr → Code) (s : Cpu) : Event → Option Cpu
  | .run =>
    match s.todo with
    | [] => none
    | item :: rest => some (run bhBase s rest item)
  | .interrupt c => some { s with todo := .code c :: s.todo }

/-- The bottom halves in `inited` are initialised, and a program starts. -/
def init (inited : Word) (c : Code) : Cpu where
  bhMask := inited
  bhActive := fun _ => false
  bhMaskCount := fun _ => 0
  bhCount := 0
  todo := [.code c]
  owed := fun _ => false
  wrong := false
  missed := false

/-! ### The exclusion -/

/-- The item belongs to `disable_bh` or `enable_bh`. -/
def isMasking : Item → Bool
  | .clearBit _ _ _ _ | .incCount _ _ _ _ | .enableBh _ _ | .loadMask _ | .setBit _ _ => true
  | _ => false

/-- No handler has started where it should not have and none was passed over, and the bits are set when
every `disable_bh` is matched. -/
structure Exclusion (inited : Word) (s : Cpu) : Prop where
  wrong : s.wrong = false
  missed : s.missed = false
  matched : s.todo.any isMasking = false → ∀ nr, inited nr = true → s.bhMask nr = true

/-- `disable_bh` has cleared the bit and not raised the count. -/
def isCleared (nr : Nr) : Item → Bool
  | .incCount _ m _ _ => m = nr
  | _ => false

/-- No `enable_bh` sets the bit while a `disable_bh` for it is between its two statements, and no
`set_bit` stores a word without a mark that its first load has given. -/
def ordered (s : Cpu) : Event → Bool
  | .run =>
    match s.todo with
    | .setBit nr _ :: rest => !rest.any (isCleared nr)
    | .markBh (.swap old new) _ :: _ => decide (s.bhActive = old → ∀ i, old i ≤ new i)
    | _ => true
  | .interrupt _ => true

/-! ### The invariant -/

/-- The handler is disabled, or about to be. -/
def holds (nr : Nr) : Item → Bool
  | .incCount _ m _ _ | .enableBh _ m => m = nr
  | _ => false

/-- The bit may be clear: the handler is disabled, or about to be enabled. -/
def covers (nr : Nr) : Item → Bool
  | .incCount _ m _ _ | .enableBh _ m | .loadMask m | .setBit m _ => m = nr
  | _ => false

def isEnable (nr : Nr) : Item → Bool
  | .enableBh _ m => m = nr
  | _ => false

/-- What the item adds to `local_bh_count`. -/
def locks : Item → ℕ
  | .endBhAtomic | .storeEnd _ | .getMask | .getActive _ | .clearActive _ _ _ | .bh _ _ _
  | .softirqEndlock _ => 1
  | _ => 0

def starts (nr : Nr) : Item → Bool
  | .clearActive _ active _ => active nr
  | .bh active _ m => active nr && m ≤ nr
  | _ => false

def depth (todo : List Item) : ℕ := (todo.map locks).sum

structure Fits (inited mask : Word) (todo : List Item) : Prop where
  held : ∀ nr, todo.any (holds nr) = true → mask nr = false
  covered : ∀ nr, inited nr = true → mask nr = false → todo.any (covers nr) = true

def ItemOk (inited marks : Word) (rest : List Item) : Item → Prop
  | .clearBit _ mask _ _ => Fits inited mask rest
  | .incCount loop nr _ _ => loop.Within Eq (rest.countP (isEnable nr) : ℤ)
  | .enableBh loop nr => loop.Within Eq (rest.countP (isEnable nr) + 1 : ℤ)
  | .loadMask nr => rest.countP (isEnable nr) = 0
  | .setBit nr mask => rest.countP (isEnable nr) = 0 ∧
      (∀ m, rest.any (holds m) = true → mask m = false) ∧
      ∀ m, inited m = true → mask m = false → m = nr ∨ rest.any (covers m) = true
  | .storeStart count _ _ => count = depth rest
  | .storeEnd count => count = depth rest + 1
  | .tryStore | .getMask => depth rest = 0
  | .getActive mask => depth rest = 0 ∧ ∀ m, rest.any (holds m) = true → mask m = false
  | .clearActive loop active due => depth rest = 0 ∧
      (∀ m, rest.any (holds m) = true → active m = false) ∧
      (∀ m, due m = true → active m = true) ∧ loop.Within (· ≤ ·) marks
  | .bh active due nr => depth rest = 0 ∧
      (∀ m, rest.any (holds m) = true → active m = false) ∧
      ∀ m, due m = true → active m = true ∧ nr ≤ m
  | .softirqEndlock due => depth rest = 0 ∧ ∀ m, due m = false
  | .handlerRet _ => 1 ≤ depth rest
  | _ => True

def ListOk (inited marks : Word) : List Item → Prop
  | [] => True
  | item :: rest => ItemOk inited marks rest item ∧ ListOk inited marks rest

/-- The invariant of a run. -/
structure Inv (inited : Word) (s : Cpu) : Prop where
  mask : Fits inited s.bhMask s.todo
  maskCount : ∀ nr, s.bhMaskCount nr = s.todo.countP (isEnable nr)
  count : s.bhCount = depth s.todo
  list : ListOk inited s.bhActive s.todo
  owed : ∀ nr, s.owed nr = true → s.bhActive nr = true ∨ s.todo.any (starts nr) = true
  wrong : s.wrong = false
  missed : s.missed = false

@[simp] theorem depth_cons (item : Item) (rest : List Item) :
    depth (item :: rest) = locks item + depth rest := sum_cons

theorem init_inv (inited : Word) (c : Code) : Inv inited (init inited c) where
  mask := ⟨fun _ h => absurd h nofun, fun _ h h' => absurd (h.symm.trans h') nofun⟩
  maskCount := fun _ => rfl
  count := rfl
  list := ⟨trivial, trivial⟩
  owed := fun _ h => absurd h nofun
  wrong := rfl
  missed := rfl

/-- An item that neither masks nor locks nor starts anything. -/
def isNeutral : Item → Bool
  | .code _ | .markBh _ _ | .clearBit _ _ _ _ | .storeStart _ _ _ | .tryStore | .handlerRet _ => true
  | _ => false

section Run

variable {inited : Word} {s : Cpu} {rest : List Item}

variable {item : Item} {nr : Nr} {active due marks marks' mask : Word} {todo : List Item}
  {bhBase : Nr → Code} {loop : Loop Word}

theorem inv_neutral (hn : isNeutral item = true) : Inv inited { s with todo := item :: rest } ↔
      ItemOk inited s.bhActive rest item ∧ Inv inited { s with todo := rest } := by
  have hzero : ∀ nr, holds nr item = false ∧ covers nr item = false ∧ isEnable nr item = false ∧
      starts nr item = false ∧ locks item = 0 := by
    intro nr
    cases item <;> first | exact absurd hn Bool.false_ne_true | exact ⟨rfl, rfl, rfl, rfl, rfl⟩
  have hholds : ∀ nr, (item :: rest).any (holds nr) = rest.any (holds nr) := fun nr => by
    rw [any_cons, (hzero nr).1, Bool.false_or]
  have hcovers : ∀ nr, (item :: rest).any (covers nr) = rest.any (covers nr) := fun nr => by
    rw [any_cons, (hzero nr).2.1, Bool.false_or]
  have hstarts : ∀ nr, (item :: rest).any (starts nr) = rest.any (starts nr) := fun nr => by
    rw [any_cons, (hzero nr).2.2.2.1, Bool.false_or]
  have henable : ∀ nr, (item :: rest).countP (isEnable nr) = rest.countP (isEnable nr) := fun nr =>
    countP_cons_of_neg (by rw [(hzero nr).2.2.1]; decide)
  have hdepth : depth (item :: rest) = depth rest := by
    rw [depth_cons, (hzero 0).2.2.2.2, Nat.zero_add]
  constructor
  · rintro ⟨⟨hheld, hcov⟩, hmc, hc, hl, ho, hw, hm⟩
    exact ⟨hl.1, ⟨fun nr h => hheld nr ((hholds nr).trans h), fun nr h h' => hcovers nr ▸ hcov nr h h'⟩,
      fun nr => henable nr ▸ hmc nr, hdepth ▸ hc, hl.2, fun nr h => hstarts nr ▸ ho nr h, hw, hm⟩
  · rintro ⟨hi, ⟨hheld, hcov⟩, hmc, hc, hl, ho, hw, hm⟩
    exact ⟨⟨fun nr h => hheld nr (hholds nr ▸ h), fun nr h h' => (hcovers nr).trans (hcov nr h h')⟩,
      fun nr => (hmc nr).trans (congrArg Nat.cast (henable nr).symm), hc.trans hdepth.symm, ⟨hi, hl⟩,
      fun nr h => (ho nr h).imp_right (hstarts nr).trans, hw, hm⟩

def kind (item : Item) : (Nr → Bool) × (Nr → Bool) × (Nr → Bool) × (Nr → Bool) × ℕ :=
  (fun nr => holds nr item, fun nr => covers nr item, fun nr => isEnable nr item,
    fun nr => starts nr item, locks item)

/-- An access that changes nothing but what the item on top knows. -/
theorem Inv.replace {item' : Item} (h : Inv inited { s with todo := item :: rest })
    (hk : kind item' = kind item) (hok : ItemOk inited s.bhActive rest item') :
    Inv inited { s with todo := item' :: rest } := by
  simp only [kind, Prod.mk.injEq, funext_iff] at hk
  obtain ⟨hholds, hcovers, henable, hstarts, hlocks⟩ := hk
  refine ⟨⟨fun nr hnr => h.mask.held nr ?_, fun nr hi hm => ?_⟩, fun nr => ?_, ?_, ⟨hok, h.list.2⟩,
    fun nr ho => (h.owed nr ho).imp_right fun hst => ?_, h.wrong, h.missed⟩
  · rwa [any_cons, ← hholds nr, ← any_cons]
  · rw [any_cons, hcovers nr, ← any_cons]
    exact h.mask.covered nr hi hm
  · rw [countP_cons, henable nr, ← countP_cons]
    exact h.maskCount nr
  · rw [depth_cons, hlocks, ← depth_cons]
    exact h.count
  · rwa [any_cons, hstarts nr, ← any_cons]

theorem update_eq {w : Word} {m : Nr} {b c : Bool} (h : update w nr b m = c) (hbc : b ≠ c) :
    m ≠ nr ∧ w m = c := by
  have hne : m ≠ nr := by
    rintro rfl
    exact hbc ((update_self ..).symm.trans h)
  exact ⟨hne, (update_of_ne hne ..).symm.trans h⟩

theorem Inv.code (h : Inv inited { s with todo := rest }) (c : Code) :
    Inv inited { s with todo := .code c :: rest } := (inv_neutral rfl).mpr ⟨trivial, h⟩

theorem ListOk.mono (hle : marks ≤ marks') (h : ListOk inited marks todo) : ListOk inited marks' todo := by
  induction todo with
  | nil => trivial
  | cons item todo ih =>
    refine ⟨?_, ih h.2⟩
    have hitem := h.1
    cases item with
    | clearActive loop active due => exact ⟨hitem.1, hitem.2.1, hitem.2.2.1, hitem.2.2.2.mono hle⟩
    | _ => exact hitem

theorem Inv.markBh (h : Inv inited { s with todo := rest }) (hle : s.bhActive ≤ active) (nr : Nr) :
    Inv inited { s with
      bhActive := update active nr true
      owed := update s.owed nr true
      todo := rest } := by
  have hgrow : s.bhActive ≤ update active nr true := hle.trans (le_update_self_iff.mpr (Bool.le_true _))
  refine { h with mask := { h.mask with }, list := h.list.mono hgrow, owed := fun m hm => ?_ }
  change update s.owed nr true m = true at hm
  obtain rfl | hne := eq_or_ne m nr
  · exact .inl (update_self ..)
  · rw [update_of_ne hne] at hm
    exact (h.owed m hm).imp_left fun hact => Bool.le_iff_imp.mp (hgrow m) hact

theorem Inv.clearBit (h : Inv inited { s with todo := rest })
    (hfit : Fits inited mask rest) (nr : Nr) (body next : Code) :
    Inv inited { s with
      bhMask := update mask nr false
      todo := .incCount .first nr body next :: rest } := by
  refine ⟨⟨fun m hm => ?_, fun m hi hm => ?_⟩, h.maskCount, ?_, ⟨trivial, h.list⟩, h.owed, h.wrong, h.missed⟩
  · change update mask nr false m = false
    obtain rfl | hne := eq_or_ne m nr
    · exact update_self ..
    · rw [update_of_ne hne]
      rw [any_cons, holds, decide_eq_false hne.symm, Bool.false_or] at hm
      exact hfit.held m hm
  · change update mask nr false m = false at hm
    rw [any_cons, covers]
    obtain rfl | hne := eq_or_ne m nr
    · rw [decide_eq_true rfl, Bool.true_or]
    · rw [update_of_ne hne] at hm
      rw [hfit.covered m hi hm, Bool.or_true]
  · exact h.count.trans (Nat.zero_add _).symm

theorem countP_code (c : Code) (nr : Nr) (todo : List Item) :
    (Item.code c :: todo).countP (isEnable nr) = todo.countP (isEnable nr) :=
  countP_cons_of_neg Bool.false_ne_true

theorem Inv.incCount {loop : Loop ℤ} {body next : Code}
    (h : Inv inited { s with todo := .incCount loop nr body next :: rest }) :
    Inv inited (run bhBase s rest (.incCount loop nr body next)) := by
  have hold : ∀ m, s.bhMaskCount m = rest.countP (isEnable m) := h.maskCount
  have hloop : loop.Within Eq (s.bhMaskCount nr) := hold nr ▸ h.list.1
  rw [BottomHalf.run]
  rcases hacc : loop.access (s.bhMaskCount nr) with loop' | count
  · exact h.replace rfl ((congrArg (loop'.Within Eq ·) (hold nr)).mp (hloop.access hacc))
  obtain rfl := hloop.eq_of_swap hacc
  refine ⟨⟨fun m hm => h.mask.held m hm, fun m hi hm => h.mask.covered m hi hm⟩, fun m => ?_,
    h.count.trans (by simp only [depth_cons, locks, Nat.zero_add]),
    ⟨trivial, trivial, trivial, h.list.2⟩, h.owed, h.wrong, h.missed⟩
  change update s.bhMaskCount nr (s.bhMaskCount nr + 1) m =
    ((Item.code body :: .enableBh .first nr :: .code next :: rest).countP (isEnable m) : ℕ)
  rw [countP_code]
  obtain rfl | hne := eq_or_ne m nr
  · rw [update_self, hold, countP_cons_of_pos (by simp [isEnable]), countP_code]
    rfl
  · rw [update_of_ne hne, hold, countP_cons_of_neg (by simp [isEnable, hne.symm]), countP_code]

/-- `enable_bh` lowers the count; if it is 0 the bit will be set, and otherwise another section is
open. -/
theorem Inv.enableBh {loop : Loop ℤ} (h : Inv inited { s with todo := .enableBh loop nr :: rest }) :
    Inv inited (run bhBase s rest (.enableBh loop nr)) := by
  have hnr : s.bhMaskCount nr = rest.countP (isEnable nr) + 1 := by
    have hold : s.bhMaskCount nr = ((Item.enableBh loop nr :: rest).countP (isEnable nr) : ℕ) :=
      h.maskCount nr
    rw [hold, countP_cons_of_pos (by simp [isEnable]), Nat.cast_add, Nat.cast_one]
  have hloop : loop.Within Eq (s.bhMaskCount nr) := hnr ▸ h.list.1
  rw [BottomHalf.run]
  rcases hacc : loop.access (s.bhMaskCount nr) with loop' | count
  · exact h.replace rfl ((congrArg (loop'.Within Eq ·) hnr).mp (hloop.access hacc))
  obtain rfl := hloop.eq_of_swap hacc
  have hless : s.bhMaskCount nr - 1 = rest.countP (isEnable nr) := by rw [hnr, add_sub_cancel_right]
  have hcount : ∀ m, update s.bhMaskCount nr (s.bhMaskCount nr - 1) m = (rest.countP (isEnable m) : ℕ) := by
    intro m
    obtain rfl | hne := eq_or_ne m nr
    · rw [update_self, hless]
    · have hold : s.bhMaskCount m = ((Item.enableBh loop nr :: rest).countP (isEnable m) : ℕ) := h.maskCount m
      rw [update_of_ne hne, hold, countP_cons_of_neg (by simp [isEnable, hne.symm])]
  have hheld : ∀ m, rest.any (holds m) = true → s.bhMask m = false := fun m hm =>
    h.mask.held m (by rw [any_cons, hm, Bool.or_true])
  have hdepth : s.bhCount = depth rest := h.count.trans (Nat.zero_add _)
  dsimp only
  split_ifs with hz <;> rw [hless] at hz
  · refine ⟨⟨hheld, fun m hi hm => h.mask.covered m hi hm⟩, hcount, hdepth.trans (Nat.zero_add _).symm,
      ⟨by exact_mod_cast hz, h.list.2⟩, h.owed, h.wrong, h.missed⟩
  refine ⟨⟨hheld, fun m hi hm => ?_⟩, hcount, hdepth, h.list.2, h.owed, h.wrong, h.missed⟩
  have hcov := h.mask.covered m hi hm
  rw [any_cons, Bool.or_eq_true] at hcov
  obtain hcov | hcov := hcov
  · -- a further section is open
    obtain rfl : nr = m := of_decide_eq_true hcov
    obtain ⟨item, hmem, hitem⟩ := countP_pos_iff.mp (Nat.pos_of_ne_zero fun h0 => hz (by exact_mod_cast h0))
    refine any_eq_true.mpr ⟨item, hmem, ?_⟩
    cases item <;> first | exact hitem | cases hitem
  · exact hcov

theorem Inv.loadMask (h : Inv inited { s with todo := .loadMask nr :: rest }) :
    Inv inited { s with todo := .setBit nr s.bhMask :: rest } := by
  refine h.replace rfl ⟨h.list.1, h.mask.held, fun m hi hm => ?_⟩
  have hcov := h.mask.covered m hi hm
  rw [any_cons, Bool.or_eq_true] at hcov
  exact hcov.imp_left fun he => (of_decide_eq_true he).symm

/-- `enable_bh` sets the bit: no section is open, and none is about to be. -/
theorem Inv.setBit (h : Inv inited { s with todo := .setBit nr mask :: rest })
    (hc : rest.any (isCleared nr) = false) :
    Inv inited { s with bhMask := update mask nr true, todo := rest } := by
  obtain ⟨hopen, hheld, hcov⟩ := h.list.1
  refine ⟨⟨fun m hm => ?_, fun m hi hm => ?_⟩, h.maskCount, h.count.trans (Nat.zero_add _), h.list.2,
    h.owed, h.wrong, h.missed⟩
  · change update mask nr true m = false
    have hne : m ≠ nr := by
      rintro rfl
      obtain ⟨item, hmem, hitem⟩ := any_eq_true.mp hm
      cases item with
      | incCount loop m' body next =>
        exact absurd (any_eq_false.mp hc _ hmem) (not_not_intro hitem)
      | enableBh loop m' => exact absurd hitem (countP_eq_zero.mp hopen _ hmem)
      | _ => cases hitem
    rw [update_of_ne hne]
    exact hheld m hm
  · obtain ⟨hne, hmask⟩ := update_eq hm (by decide)
    exact (hcov m hi hmask).resolve_left hne

theorem Inv.storeStart (h : Inv inited { s with todo := rest }) (body next : Code) :
    Inv inited { s with
      bhCount := depth rest + 1
      todo := .code body :: .endBhAtomic :: .code next :: rest } := by
  refine Inv.code (s := { s with bhCount := depth rest + 1 }) ?_ body
  have hnext := h.code next
  exact { hnext with
    mask := { hnext.mask with }
    count := by rw [depth_cons, depth_cons]; exact (Nat.add_comm _ _).trans (congrArg _ (Nat.zero_add _).symm)
    list := ⟨trivial, hnext.list⟩ }

theorem Inv.endBhAtomic (h : Inv inited { s with todo := .endBhAtomic :: rest }) :
    Inv inited { s with todo := .storeEnd s.bhCount :: rest } :=
  h.replace rfl (h.count.trans (Nat.add_comm _ _))

theorem Inv.storeEnd {count : ℕ} (h : Inv inited { s with todo := .storeEnd count :: rest }) :
    Inv inited { s with bhCount := count - 1, todo := rest } := by
  have hcount : count = depth rest + 1 := h.list.1
  exact { h with mask := { h.mask with }, count := by rw [hcount, Nat.add_sub_cancel], list := h.list.2 }

/-! The items of `do_bottom_half`. -/

theorem Inv.tryStore (h : Inv inited { s with todo := rest }) (hd : depth rest = 0) :
    Inv inited { s with bhCount := 1, todo := .getMask :: rest } :=
  { h with mask := { h.mask with }, count := by rw [depth_cons, hd]; rfl, list := ⟨hd, h.list⟩ }

theorem Inv.getMask (h : Inv inited { s with todo := .getMask :: rest }) :
    Inv inited { s with todo := .getActive s.bhMask :: rest } :=
  h.replace rfl ⟨h.list.1, h.mask.held⟩

theorem starts_of_depth (h : depth todo = 0) (nr : Nr) : todo.any (starts nr) = false := by
  refine any_eq_false.mpr fun item hmem hst => ?_
  have hle : locks item ≤ depth todo := le_sum_of_mem (mem_map_of_mem hmem)
  rw [h] at hle
  cases item <;> first | exact absurd hst Bool.false_ne_true | exact absurd hle (Nat.not_succ_le_zero 0)

theorem Inv.getActive (h : Inv inited { s with todo := .getActive mask :: rest }) :
    Inv inited { s with
      todo := .clearActive .first (fun i => mask i && s.bhActive i) (fun i => mask i && s.owed i) ::
        rest } := by
  obtain ⟨hd, hheld⟩ := h.list.1
  refine { h with
    mask := { h.mask with }
    list := ⟨⟨hd, fun m hm => ?_, fun m hm => ?_, trivial⟩, h.list.2⟩, owed := fun m hm => ?_ }
  · change (mask m && s.bhActive m) = false
    rw [hheld m hm, Bool.false_and]
  · obtain ⟨hmask, howed⟩ := Bool.and_eq_true_iff.mp hm
    have hact := (h.owed m howed).resolve_right
      (by rw [any_cons, starts_of_depth hd]; exact Bool.false_ne_true)
    exact Bool.and_eq_true_iff.mpr ⟨hmask, hact⟩
  · refine (h.owed m hm).imp_right fun hst => ?_
    rw [any_cons, starts_of_depth hd] at hst
    cases hst

theorem ListOk.of_depth (hd : depth todo = 0) (h : ListOk inited marks todo) : ListOk inited marks' todo := by
  induction todo with
  | nil => trivial
  | cons item todo ih =>
    rw [depth_cons, Nat.add_eq_zero_iff] at hd
    refine ⟨?_, ih hd.2 h.2⟩
    have hitem := h.1
    cases item with
    | clearActive loop active due => exact absurd hd.1 Nat.one_ne_zero
    | _ => exact hitem

theorem Inv.clearActive (h : Inv inited { s with todo := .clearActive loop active due :: rest }) :
    Inv inited (run bhBase s rest (.clearActive loop active due)) := by
  obtain ⟨hd, hheld, hdue, hloop⟩ := h.list.1
  rw [BottomHalf.run]
  rcases hacc : loop.access s.bhActive with loop' | word
  · exact h.replace rfl ⟨hd, hheld, hdue, hloop.access hacc⟩
  obtain rfl := hloop.eq_of_swap hacc
  refine { h with
    mask := { h.mask with }, owed := fun m hm => ?_
    list := ⟨⟨hd, hheld, fun m hm => ⟨hdue m hm, Fin.zero_le m⟩⟩, h.list.2.of_depth hd⟩ }
  rw [any_cons, starts_of_depth hd, Bool.or_false]
  change (s.bhActive m && !active m) = true ∨ (active m && decide (0 ≤ m)) = true
  rcases hact : active m with _ | _
  · have := h.owed m hm
    rw [any_cons, starts_of_depth hd, Bool.or_false] at this
    refine .inl ((Bool.and_true _).trans (this.resolve_right ?_))
    rw [starts, hact]
    exact Bool.false_ne_true
  · exact .inr (by simp)

theorem not_handlerRet (h : ListOk inited marks todo) (hd : depth todo = 0) (nr : Nr) :
    .handlerRet nr ∉ todo := by
  induction todo with
  | nil => exact not_mem_nil
  | cons item todo ih =>
    rw [depth_cons] at hd
    intro hmem
    obtain rfl | hmem := mem_cons.mp hmem
    · have hlock : 1 ≤ depth todo := h.1
      omega
    · exact ih h.2 (Nat.eq_zero_of_add_eq_zero_left hd) hmem

/-- **A handler starts** only where it may. -/
theorem not_forbids (hok : ItemOk inited marks rest (.bh active due nr)) (hl : ListOk inited marks rest)
    (ha : active nr = true) : rest.any (forbids nr) = false := by
  obtain ⟨hd, hheld, -⟩ := hok
  refine any_eq_false.mpr fun item hmem hf => ?_
  cases item with
  | enableBh loop m =>
    have := hheld nr (any_eq_true.mpr ⟨_, hmem, hf⟩)
    cases ha.symm.trans this
  | endBhAtomic =>
    have hle : 1 ≤ depth rest := le_sum_of_mem (mem_map_of_mem hmem)
    omega
  | handlerRet m => exact not_handlerRet hl hd m hmem
  | _ => cases hf

/-- **A turn** of the loop over the handlers, after which the handler at hand is no longer due. -/
theorem Inv.turn {due' owed' : Word} (h : Inv inited { s with todo := .bh active due nr :: rest })
    (hdue : ∀ m, due' m = true → due m = true ∧ m ≠ nr)
    (howed : ∀ m, owed' m = true → s.owed m = true ∧ (active m = true → m ≠ nr)) :
    Inv inited { s with owed := owed', todo := afterTurn active due' nr :: rest } := by
  obtain ⟨hd, hheld, hold⟩ := h.list.1
  have hnext : ∀ m, due' m = true → active m = true ∧ nr < m := fun m hm =>
    ⟨(hold m (hdue m hm).1).1, lt_of_le_of_ne (hold m (hdue m hm).1).2 (hdue m hm).2.symm⟩
  have hstart : ∀ m, owed' m = true → s.bhActive m = true ∨ active m = true ∧ nr < m := by
    intro m hm
    obtain ⟨ho, hne⟩ := howed m hm
    refine (h.owed m ho).imp_right fun hst => ?_
    rw [any_cons, starts_of_depth hd, Bool.or_false, starts, Bool.and_eq_true, decide_eq_true_eq] at hst
    exact ⟨hst.1, lt_of_le_of_ne hst.2 (hne hst.1).symm⟩
  rw [afterTurn]
  split_ifs with hmore
  · refine ⟨⟨h.mask.held, h.mask.covered⟩, h.maskCount, h.count,
      ⟨⟨hd, hheld, fun m hm => ⟨(hnext m hm).1, Fin.add_one_le_of_lt (hnext m hm).2⟩⟩, h.list.2⟩,
      fun m hm => (hstart m hm).imp_right fun hst => ?_, h.wrong, h.missed⟩
    rw [any_cons, starts, hst.1, decide_eq_true (Fin.add_one_le_of_lt hst.2)]
    rfl
  · refine ⟨⟨h.mask.held, h.mask.covered⟩, h.maskCount, h.count, ⟨⟨hd, fun m => ?_⟩, h.list.2⟩,
      fun m hm => .inl ((hstart m hm).resolve_right fun hst => hmore ⟨m, hst.2, hst.1⟩), h.wrong,
      h.missed⟩
    exact Bool.eq_false_of_not_eq_true fun hm => hmore ⟨m, (hnext m hm).2, (hnext m hm).1⟩

theorem locks_afterTurn (active due : Word) (nr : Nr) : locks (afterTurn active due nr) = 1 := by
  rw [afterTurn]
  split_ifs <;> rfl

theorem Inv.bh (h : Inv inited { s with todo := .bh active due nr :: rest }) :
    Inv inited (run bhBase s rest (.bh active due nr)) := by
  rw [run]
  rcases ha : active nr with _ | _
  · refine h.turn (fun m hm => ⟨hm, ?_⟩) fun m hm => ⟨hm, fun hact => ?_⟩
    · rintro rfl
      exact absurd (ha.symm.trans ((h.list.1.2.2 m hm).1)) (by decide)
    · rintro rfl
      cases ha.symm.trans hact
  · have hforbid := not_forbids h.list.1 h.list.2 ha
    have hturn : Inv inited { s with
        owed := update s.owed nr false
        todo := afterTurn active (update due nr false) nr :: rest } := by
      refine h.turn (fun m hm => ?_) fun m hm => ?_
      · obtain ⟨hne, hdue⟩ := update_eq hm (by decide)
        exact ⟨hdue, hne⟩
      · obtain ⟨hne, howed⟩ := update_eq hm (by decide)
        exact ⟨howed, fun _ => hne⟩
    have hret : 1 ≤ depth (afterTurn active (update due nr false) nr :: rest) := by
      rw [depth_cons, locks_afterTurn]
      exact Nat.le_add_right _ _
    simp only [if_true, hforbid, Bool.or_false]
    exact Inv.code (s := { s with owed := update s.owed nr false })
      ((inv_neutral rfl).mpr ⟨show ItemOk inited s.bhActive _ (.handlerRet nr) from hret, hturn⟩)
      (bhBase nr)

theorem Inv.softirqEndlock (h : Inv inited { s with todo := .softirqEndlock due :: rest }) :
    Inv inited { s with
      bhCount := 0
      missed := s.missed || decide (∃ i, due i = true)
      todo := rest } := by
  obtain ⟨hd, hdue⟩ := h.list.1
  refine ⟨⟨h.mask.held, h.mask.covered⟩, h.maskCount, hd.symm, h.list.2, h.owed, h.wrong, ?_⟩
  rw [show s.missed = false from h.missed, Bool.false_or]
  exact decide_eq_false fun ⟨i, hi⟩ => absurd ((hdue i).symm.trans hi) (by decide)

/-- Where `ordered` allows it, `set_bit` stores every mark there is. -/
theorem le_of_swap (hacc : loop.access s.bhActive = .inr active)
    (hc : ordered { s with todo := .markBh loop nr :: rest } .run = true) : s.bhActive ≤ active := by
  cases loop with
  | first | second old => cases hacc
  | swap old new =>
    rw [Loop.access] at hacc
    split_ifs at hacc with he
    obtain rfl := Sum.inr.inj hacc
    subst he
    exact of_decide_eq_true hc rfl

/-- **A load or store** keeps the invariant. -/
theorem Inv.run (h : Inv inited { s with todo := item :: rest })
    (hc : ordered { s with todo := item :: rest } .run = true) :
    Inv inited (run bhBase s rest item) := by
  cases item with
  | code c =>
    have htail := ((inv_neutral rfl).mp h).2
    cases c with
    | done => exact htail
    | markBh nr next => exact (inv_neutral rfl).mpr ⟨trivial, htail.code next⟩
    | doBottomHalf next =>
      rw [BottomHalf.run]
      have hcode := htail.code next
      split_ifs with h0
      · exact (inv_neutral rfl).mpr ⟨hcode.count.symm.trans h0, hcode⟩
      · exact hcode
    | disableBh nr body next => exact (inv_neutral rfl).mpr ⟨htail.mask, htail⟩
    | bhAtomic body next => exact (inv_neutral rfl).mpr ⟨htail.count, htail⟩
  | markBh loop nr =>
    have htail := ((inv_neutral rfl).mp h).2
    rw [BottomHalf.run]
    rcases hacc : loop.access s.bhActive with loop' | active
    · exact (inv_neutral rfl).mpr ⟨trivial, htail⟩
    · exact htail.markBh (le_of_swap hacc hc) nr
  | clearBit nr mask body next =>
    obtain ⟨hfit, htail⟩ := (inv_neutral rfl).mp h
    exact htail.clearBit hfit nr body next
  | incCount loop nr body next => exact h.incCount
  | enableBh loop nr => exact h.enableBh
  | loadMask nr => exact h.loadMask
  | setBit nr mask => exact h.setBit (Bool.eq_false_iff.mpr fun hany => by simp [ordered, hany] at hc)
  | storeStart count body next =>
    obtain ⟨hcount, htail⟩ := (inv_neutral rfl).mp h
    obtain rfl : count = depth rest := hcount
    exact htail.storeStart body next
  | endBhAtomic => exact h.endBhAtomic
  | storeEnd count => exact h.storeEnd
  | tryStore =>
    obtain ⟨hd, htail⟩ := (inv_neutral rfl).mp h
    exact htail.tryStore hd
  | getMask => exact h.getMask
  | getActive mask => exact h.getActive
  | clearActive loop active due => exact h.clearActive
  | bh active due nr => exact h.bh
  | handlerRet nr => exact ((inv_neutral rfl).mp h).2
  | softirqEndlock due => exact h.softirqEndlock

end Run

/-! ### Whole runs -/

theorem covers_isMasking {nr : Nr} {item : Item} (h : covers nr item = true) : isMasking item = true := by
  cases item <;> first | rfl | cases h

/-- **The exclusion.** In a run that is `ordered` no handler starts where it is disabled or inside of another handler or an
atomic section, no mark is passed over, and the bits are set when every `disable_bh` is matched. -/
theorem exclusion {bhBase : Nr → Code} {inited : Word} {c : Code} {s : Cpu}
    (h : ReachesBy (step bhBase) (fun s e => ordered s e = true) (init inited c) s) :
    Exclusion inited s := by
  have hinv : Inv inited s := by
    refine h.invariant (I := Inv inited) (init_inv inited c) fun s e t hs hc hstep => ?_
    cases e with
    | run =>
      rcases htodo : s.todo with _ | ⟨item, rest⟩
      · rw [step, htodo] at hstep
        cases hstep
      rw [step, htodo] at hstep
      cases hstep
      obtain ⟨mask, active, maskCount, count, todo, owed, wrong, missed⟩ := s
      obtain rfl : todo = item :: rest := htodo
      exact Inv.run hs hc
    | interrupt c =>
      cases hstep
      exact Inv.code (s := s) hs c
  refine ⟨hinv.wrong, hinv.missed, fun hnone nr hi => ?_⟩
  by_contra hmask
  obtain ⟨item, hmem, hcov⟩ := any_eq_true.mp (hinv.mask.covered nr hi (Bool.eq_false_of_not_eq_true hmask))
  exact any_eq_false.mp hnone item hmem (covers_isMasking hcov)

/-- Bottom half 5 is marked while it is disabled, with an interrupt that calls `do_bottom_half`, and
starts once it is enabled. -/
theorem exclusion_marked : ∃ s, ReachesBy (step fun _ => .done) (fun s e => ordered s e = true)
    (init (fun _ => true) (.disableBh 5 (.markBh 5 .done) (.doBottomHalf .done))) s ∧
      s.todo = [] ∧ s.owed 5 = false ∧ s.bhActive 5 = false ∧ Exclusion (fun _ => true) s :=
  (ReachesBy.exists_of_exec (P := fun s => s.todo = [] ∧ s.owed 5 = false ∧ s.bhActive 5 = false)
    (.replicate 9 .run ++ .interrupt (.doBottomHalf .done) :: .replicate 33 .run) (by decide +kernel)).imp
    fun _ ⟨hrun, htodo, howed, hactive⟩ => ⟨hrun, htodo, howed, hactive, exclusion hrun⟩

/-- An interrupt between the two statements of `disable_bh` sets the bit, and handler 5 starts inside of the section; and a
mark for handler 3 is lost in `set_bit` for 5. -/
theorem not_exclusion :
    (∃ s, Reaches (step fun _ => .done) (init (fun _ => true) (.disableBh 5 .done .done)) s ∧
      s.wrong = true ∧ .enableBh .first 5 ∈ s.todo) ∧
    ∃ s, Reaches (step fun _ => .done)
      (init (fun _ => true) (.markBh 3 (.markBh 5 (.doBottomHalf .done)))) s ∧ s.missed = true :=
  ⟨Reaches.exists_of_exec (.replicate 2 .run ++ .interrupt (.disableBh 5 .done .done) :: .replicate 15 .run ++
      .interrupt (.markBh 5 (.doBottomHalf .done)) :: .replicate 17 .run) (by decide +kernel),
    Reaches.exists_of_exec (.replicate 6 .run ++ .interrupt (.doBottomHalf .done) :: .replicate 16 .run ++
      .interrupt (.markBh 3 .done) :: .replicate 23 .run) (by decide +kernel)⟩

end I370Linux.BottomHalf
