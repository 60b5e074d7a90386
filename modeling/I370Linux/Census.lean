import Mathlib

/-! # Counting the parties in a phase

`census p f` is the number of indices `i` of a finite family `f` whose value satisfies the test
`p`.  Moving one party changes a census by the difference of the two tests
(`census_update`), which is all that counting arguments about interleaved programs need. -/

namespace I370Linux

open Function
open Finset (add_sum_erase mem_univ sum_congr univ)

variable {ι β : Type*} [Fintype ι]

/-- The number of indices of `f` whose value satisfies `p`. -/
def census (p : β → Bool) (f : ι → β) : ℤ := ∑ i, if p (f i) then 1 else 0

theorem census_nonneg (p : β → Bool) (f : ι → β) : 0 ≤ census p f := by
  apply Finset.sum_nonneg
  intro i _
  split_ifs <;> decide

variable {p : β → Bool} {f : ι → β} {i : ι} {M : Type*}

theorem census_eq_zero (h : ∀ i, p (f i) = false) : census p f = 0 := by
  apply Finset.sum_eq_zero
  intro i _
  simp [h i]

theorem census_pos (h : p (f i) = true) : 0 < census p f := by
  apply Finset.sum_pos'
  · intro j _
    split_ifs <;> decide
  · exact ⟨i, mem_univ i, by simp [h]⟩

omit [Fintype ι] in
theorem of_update [DecidableEq ι] {j : ι} {b c : β} (h : update f i b j = c) :
    j = i ∧ b = c ∨ j ≠ i ∧ f j = c := by
  obtain rfl | hj := eq_or_ne j i
  · rw [update_self] at h
    exact .inl ⟨rfl, h⟩
  · rw [update_of_ne hj] at h
    exact .inr ⟨hj, h⟩

theorem sum_update [AddCommGroup M] {κ : Type*} [DecidableEq κ] {s : Finset κ} (g : β → M)
    (f : κ → β) {i : κ} (hi : i ∈ s) (b : β) :
    ∑ j ∈ s, g (update f i b j) = ∑ j ∈ s, g (f j) - g (f i) + g b := by
  rw [← add_sum_erase s _ hi, ← add_sum_erase s (fun j => g (f j)) hi]
  have hrest : ∑ j ∈ s.erase i, g (update f i b j) = ∑ j ∈ s.erase i, g (f j) := by
    apply sum_congr rfl
    intro j hj
    rw [update_of_ne (Finset.ne_of_mem_erase hj)]
  rw [hrest, update_self]
  abel

theorem sum_change [AddCommGroup M] [DecidableEq ι] {F F' : ι → M} (i : ι) (h : ∀ j, j ≠ i → F' j = F j) :
    ∑ j, F' j = ∑ j, F j + (F' i - F i) := by
  rw [← add_sum_erase _ F' (mem_univ i), ← add_sum_erase _ F (mem_univ i)]
  have hrest : ∑ j ∈ univ.erase i, F' j = ∑ j ∈ univ.erase i, F j := by
    apply sum_congr rfl
    intro j hj
    exact h j (Finset.ne_of_mem_erase hj)
  rw [hrest]
  abel

theorem census_update [DecidableEq ι] (p : β → Bool) (f : ι → β) (i : ι) (b : β) :
    census p (update f i b) = census p f - (if p (f i) then 1 else 0) + (if p b then 1 else 0) :=
  sum_update (fun c => if p c then (1 : ℤ) else 0) f (mem_univ i) b

end I370Linux
