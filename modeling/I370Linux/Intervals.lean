import Mathlib

/-! # Half-open intervals laid out in order

A list of items, each with a half-open interval `[start a, fin a)` of a linear order, is laid out
between `lo` and `hi` when the intervals follow each other in the order of the list inside
`[lo, hi)`.  The predicate is recursive on the list, as the walks over such a list are;
`laidOut_iff` says what it means for the list as a whole, and `Free` is the statement, without a
walk, that `[x, y)` is a gap of the layout. -/

namespace I370Linux.Intervals

variable {α β : Type*} [LinearOrder β] {start fin : α → β}

/-- The intervals of the list follow each other inside `[lo, hi)`. -/
def LaidOut (start fin : α → β) : β → β → List α → Prop
  | lo, hi, [] => lo ≤ hi
  | lo, hi, a :: l => lo ≤ start a ∧ start a ≤ fin a ∧ LaidOut start fin (fin a) hi l

variable {lo lo' hi x y : β} {a : α} {l : List α}

@[simp]
theorem laidOut_nil : LaidOut start fin lo hi [] ↔ lo ≤ hi := Iff.rfl

@[simp]
theorem laidOut_cons : LaidOut start fin lo hi (a :: l) ↔
    lo ≤ start a ∧ start a ≤ fin a ∧ LaidOut start fin (fin a) hi l := Iff.rfl

theorem laidOut_iff : ∀ {lo : β} {l : List α}, LaidOut start fin lo hi l ↔
    lo ≤ hi ∧ (∀ a ∈ l, lo ≤ start a ∧ start a ≤ fin a ∧ fin a ≤ hi) ∧ l.Pairwise fun a b => fin a ≤ start b
  | lo, [] => by simp
  | lo, a :: l => by
    rw [laidOut_cons, laidOut_iff]
    simp only [List.forall_mem_cons, List.pairwise_cons]
    constructor
    · rintro ⟨hlo, hle, hhi, hin, hord⟩
      refine ⟨hlo.trans (hle.trans hhi), ⟨⟨hlo, hle, hhi⟩, ?_⟩, fun b hb => (hin b hb).1, hord⟩
      intro b hb
      exact ⟨hlo.trans (hle.trans (hin b hb).1), (hin b hb).2⟩
    · rintro ⟨-, ⟨⟨hlo, hle, hhi⟩, hin⟩, hfirst, hord⟩
      exact ⟨hlo, hle, hhi, fun b hb => ⟨hfirst b hb, (hin b hb).2⟩, hord⟩

section

variable (h : LaidOut start fin lo hi l)
include h

theorem LaidOut.sublist {l' : List α} (hl : l'.Sublist l) : LaidOut start fin lo hi l' := by
  obtain ⟨hle, hin, hord⟩ := laidOut_iff.mp h
  exact laidOut_iff.mpr ⟨hle, fun a ha => hin a (hl.subset ha), hord.sublist hl⟩

theorem LaidOut.disjoint :
    l.Pairwise fun a b => Disjoint (Set.Ico (start a) (fin a)) (Set.Ico (start b) (fin b)) := by
  refine (laidOut_iff.mp h).2.2.imp fun hab => ?_
  exact Set.disjoint_left.mpr fun z hz hz' => absurd (hz.2.trans_le hab) (not_lt.mpr hz'.1)

theorem LaidOut.subset : ∀ a ∈ l, Set.Ico (start a) (fin a) ⊆ Set.Ico lo hi := by
  intro a ha
  have hin := (laidOut_iff.mp h).2.1 a ha
  exact Set.Ico_subset_Ico hin.1 hin.2.2

end

/-- `[x, y)` lies inside `[lo, hi)` and meets no interval of the list. -/
def Free (start fin : α → β) (lo hi : β) (l : List α) (x y : β) : Prop :=
  lo ≤ x ∧ y ≤ hi ∧ ∀ a ∈ l, y ≤ start a ∨ fin a ≤ x

@[simp]
theorem free_nil : Free start fin lo hi [] x y ↔ lo ≤ x ∧ y ≤ hi := by
  simp [Free]

theorem Free.cons (hlo : lo ≤ start a) (hle : start a ≤ fin a) (h : Free start fin (fin a) hi l x y) :
    Free start fin lo hi (a :: l) x y := by
  refine ⟨hlo.trans (hle.trans h.1), h.2.1, ?_⟩
  rw [List.forall_mem_cons]
  exact ⟨.inr h.1, h.2.2⟩

theorem Free.of_before (h : LaidOut start fin lo hi (a :: l)) (hx : lo ≤ x) (hy : y ≤ start a) :
    Free start fin lo hi (a :: l) x y := by
  obtain ⟨-, hin, hord⟩ := laidOut_iff.mp h
  obtain ⟨-, hle, hhi⟩ := hin a List.mem_cons_self
  refine ⟨hx, hy.trans (hle.trans hhi), ?_⟩
  rw [List.forall_mem_cons]
  refine ⟨.inl hy, fun b hb => .inl (hy.trans (hle.trans ?_))⟩
  exact (List.pairwise_cons.mp hord).1 b hb

end I370Linux.Intervals
