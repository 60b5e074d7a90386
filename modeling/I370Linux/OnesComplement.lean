import Mathlib

/-! # One's complement sums

Sums modulo `2 ^ n - 1`, the arithmetic of a machine that adds the carry out of the top back in at
the bottom.  `2 ^ n` counts as one there, so folding a number keeps its residue (`fold_modEq`).
`canon n x` is the number below `2 ^ n` that repeated folding leaves of `x`: zero for zero only, and
otherwise the residue, with `2 ^ n - 1` in the place of zero. -/

namespace I370Linux.OnesComplement

/-- The part above the low `n` bits, added to the part below. -/
def fold (n x : ℕ) : ℕ := x % 2 ^ n + x / 2 ^ n

variable {n x y : ℕ}

theorem two_pow_modEq (n : ℕ) : 2 ^ n ≡ 1 [MOD 2 ^ n - 1] := by
  have h : 2 ^ n = (2 ^ n - 1) + 1 := (Nat.sub_add_cancel Nat.one_le_two_pow).symm
  calc 2 ^ n = (2 ^ n - 1) + 1 := h
    _ ≡ 0 + 1 [MOD 2 ^ n - 1] := Nat.ModEq.add_right 1 (Nat.modEq_zero_iff_dvd.mpr dvd_rfl)
    _ = 1 := rfl

theorem two_pow_mul_modEq (n x : ℕ) : 2 ^ n * x ≡ x [MOD 2 ^ n - 1] := by
  simpa using (two_pow_modEq n).mul_right x

theorem fold_modEq (n x : ℕ) : fold n x ≡ x [MOD 2 ^ n - 1] := by
  calc fold n x = x % 2 ^ n + x / 2 ^ n := rfl
    _ ≡ x % 2 ^ n + 2 ^ n * (x / 2 ^ n) [MOD 2 ^ n - 1] :=
      (two_pow_mul_modEq n _).symm.add_left _
    _ = x := Nat.mod_add_div x _

theorem fold_eq_zero (h : fold n x = 0) : x = 0 := by
  obtain ⟨hmod, hdiv⟩ := Nat.add_eq_zero_iff.mp h
  rw [← Nat.mod_add_div x (2 ^ n), hmod, hdiv, mul_zero, add_zero]

theorem fold_of_lt (h : x < 2 ^ n) : fold n x = x := by
  rw [fold, Nat.mod_eq_of_lt h, Nat.div_eq_of_lt h, add_zero]

/-- The number that folding leaves. -/
def canon (n x : ℕ) : ℕ := if x = 0 then 0 else (x - 1) % (2 ^ n - 1) + 1

theorem eq_canon_iff (hy : y < 2 ^ n) : y = canon n x ↔ y ≡ x [MOD 2 ^ n - 1] ∧ (y = 0 ↔ x = 0) := by
  obtain ⟨m, hm⟩ : ∃ m, 2 ^ n - 1 = m := ⟨_, rfl⟩
  rw [canon, hm]
  split_ifs with hx
  · subst hx
    exact ⟨fun h => ⟨by rw [h], by simp [h]⟩, fun h => h.2.mpr rfl⟩
  have hxm : (x - 1) % m + 1 ≡ x [MOD m] := by
    calc (x - 1) % m + 1 ≡ x - 1 + 1 [MOD m] := (Nat.mod_modEq _ _).add_right 1
      _ = x := by omega
  constructor
  · rintro rfl
    exact ⟨hxm, by omega⟩
  · rintro ⟨hmod, hz⟩
    -- both lie between 1 and `m`
    have h1 : y - 1 ≡ (x - 1) % m [MOD m] := by
      refine Nat.ModEq.add_right_cancel' 1 ?_
      rw [show y - 1 + 1 = y by omega]
      exact hmod.trans hxm.symm
    have h2 : y - 1 = (x - 1) % m := Nat.ModEq.eq_of_lt_of_lt h1 (by omega) (Nat.mod_lt _ (by omega))
    omega

end I370Linux.OnesComplement
