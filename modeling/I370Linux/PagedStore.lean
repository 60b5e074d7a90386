import Mathlib

/-! # Byte stores cut into pages

A store is a function from addresses to values.  `blit` copies a run of values into it, `base n x`
is the first address of the page of `x` for pages of `n` addresses.  A run that stays on one page
touches no other page (`blit_off_page`), which is what an argument about address translation needs
from a copy. -/

namespace I370Linux.PagedStore

variable {β : Type*}

/-- Copy `n` values of `src`, from `frm` on, to the addresses from `a` on. -/
def blit (dst : ℕ → β) (a : ℕ) (src : ℕ → β) (frm n : ℕ) : ℕ → β :=
  fun x => if a ≤ x ∧ x < a + n then src (frm + (x - a)) else dst x

variable {dst src : ℕ → β} {a f frm n o x : ℕ}

theorem blit_inside (h1 : a ≤ x) (h2 : x < a + n) :
    blit dst a src frm n x = src (frm + (x - a)) := if_pos ⟨h1, h2⟩

theorem blit_outside (h : x < a ∨ a + n ≤ x) : blit dst a src frm n x = dst x := if_neg (by omega)

/-- The first address of the page of `x`. -/
def base (n x : ℕ) : ℕ := x / n * n

theorem base_add_mod (n x : ℕ) : base n x + x % n = x := Nat.div_add_mod' x n

theorem base_eq (hf : f % n = 0) (ho : o < n) : base n (f + o) = f := by
  obtain ⟨q, rfl⟩ := Nat.dvd_of_mod_eq_zero hf
  rw [base, Nat.mul_add_div (by omega), Nat.div_eq_of_lt ho, add_zero, mul_comm]

theorem mod_eq (hf : f % n = 0) (ho : o < n) : (f + o) % n = o := by
  rw [Nat.add_mod, hf, zero_add, Nat.mod_mod, Nat.mod_eq_of_lt ho]

theorem blit_off_page {r : ℕ} (hf : f % n = 0) (hr : o + r ≤ n)
    (hx : base n x ≠ f) : blit dst (f + o) src frm r x = dst x := by
  refine blit_outside ?_
  by_contra hc
  obtain ⟨d, rfl⟩ := Nat.exists_eq_add_of_le (show f + o ≤ x by omega)
  exact hx (by rw [add_assoc]; exact base_eq hf (by omega))

end I370Linux.PagedStore
