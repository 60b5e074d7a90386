import Mathlib

/-! # Compare-and-swap loops

A loop that changes a word by compare and swap, where the word is loaded twice: the first load is what
the swap compares, and the new word is computed from the second.  Between any two accesses the word may
change.

`Loop.Within` says that the loads are in order below the word, for a relation that the changes from
outside keep to.  With an antisymmetric relation a swap that succeeds has then loaded the word as it is
(`Loop.Within.eq_of_swap`), and the loop is as good as one atomic step. -/

namespace I370Linux.CasLoop

variable {α : Type*}

/-- The accesses still to come. -/
inductive Loop (α : Type*) where
  | first
  | second (old : α)
  | swap (old new : α)
deriving DecidableEq, Repr

/-- One access: the loop goes on, or the swap succeeds for what the second load has given. -/
def Loop.access [DecidableEq α] (word : α) : Loop α → Loop α ⊕ α
  | .first => .inl (.second word)
  | .second old => .inl (.swap old word)
  | .swap old new => if word = old then .inr new else .inl .first

/-- What was loaded first is below what was loaded second, and that is below the word. -/
def Loop.Within (r : α → α → Prop) (word : α) : Loop α → Prop
  | .first => True
  | .second old => r old word
  | .swap old new => r old new ∧ r new word

variable {r : α → α → Prop} {word word' : α} {loop loop' : Loop α}

theorem Loop.Within.mono [IsTrans α r] (h : loop.Within r word) (hr : r word word') :
    loop.Within r word' := by
  cases loop with
  | first => trivial
  | second old => exact IsTrans.trans _ _ _ h hr
  | swap old new => exact ⟨h.1, IsTrans.trans _ _ _ h.2 hr⟩

theorem Loop.Within.access [DecidableEq α] [Std.Refl r] (h : loop.Within r word)
    (hl : loop.access word = .inl loop') : loop'.Within r word := by
  cases loop with
  | first =>
    obtain rfl := Sum.inl.inj hl
    exact refl word
  | second old =>
    obtain rfl := Sum.inl.inj hl
    exact ⟨h, refl word⟩
  | swap old new =>
    rw [Loop.access] at hl
    split_ifs at hl
    obtain rfl := Sum.inl.inj hl
    trivial

instance eqAntisymm : Std.Antisymm (@Eq α) := ⟨fun _ _ h _ => h⟩

theorem Loop.Within.eq_of_swap [DecidableEq α] [Std.Antisymm r] {new : α} (h : loop.Within r word)
    (hl : loop.access word = .inr new) : new = word := by
  cases loop with
  | first | second old => cases hl
  | swap old second =>
    rw [Loop.access] at hl
    split_ifs at hl with he
    obtain rfl := Sum.inr.inj hl
    subst he
    exact antisymm h.2 h.1

end I370Linux.CasLoop
