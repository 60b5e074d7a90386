import Mathlib

/-! # Circular buffers

The contents of a buffer of `N` cells from the cell `start` on, around its end.  They can be taken off at
the front in pieces (`ring_add`), and a piece stored behind them is appended (`ring_store`). -/

namespace I370Linux.CircularBuffer

variable {β : Type*}

/-- The `len` cells from the cell `start` on. -/
def ring (N : ℕ) (base : ℕ → β) (start len : ℕ) : List β := (List.range len).map fun k => base ((start + k) % N)

/-- A list stored from the cell `p` on. -/
def store (base : ℕ → β) (p : ℕ) (bytes : List β) : ℕ → β := fun k =>
  if p ≤ k then bytes.getD (k - p) (base k) else base k

variable (N : ℕ) (base : ℕ → β)

@[simp] theorem length_ring (start len : ℕ) : (ring N base start len).length = len := by
  rw [ring, List.length_map, List.length_range]

theorem ring_zero (start : ℕ) : ring N base start 0 = [] := rfl

theorem ring_add (start m n : ℕ) :
    ring N base start (m + n) = ring N base start m ++ ring N base ((start + m) % N) n := by
  unfold ring
  rw [List.range_add, List.map_append, List.map_map]
  congr 1
  apply List.map_congr_left
  intro k _
  rw [Function.comp_apply, Nat.mod_add_mod, Nat.add_assoc]

theorem ring_mod (start len : ℕ) : ring N base (start % N) len = ring N base start len := by
  unfold ring
  simp only [Nat.mod_add_mod]

theorem store_of_lt {p k : ℕ} (bytes : List β) (h : k < p) : store base p bytes k = base k :=
  if_neg (by omega)

theorem store_of_le {p k : ℕ} (bytes : List β) (h : p + bytes.length ≤ k) : store base p bytes k = base k := by
  rw [store, if_pos (by omega), List.getD_eq_default _ _ (by omega)]

theorem store_add {p i : ℕ} (bytes : List β) (h : i < bytes.length) : store base p bytes (p + i) = bytes[i] := by
  rw [store, if_pos (by omega), Nat.add_sub_cancel_left, List.getD_eq_getElem _ _ h]

variable {N base}

theorem ring_store {start len p : ℕ} {bytes : List β} (hlen : len + bytes.length ≤ N) (hstart : start < N)
    (hp : p = (start + len) % N) (hfit : p + bytes.length ≤ N) :
    ring N (store base p bytes) start (len + bytes.length) = ring N base start len ++ bytes := by
  rw [ring_add, ← hp]
  congr 1
  · apply List.map_congr_left
    intro k hk
    have hk := List.mem_range.mp hk
    by_cases hlt : (start + k) % N < p
    · exact store_of_lt _ _ hlt
    -- the cells before the piece and those of the piece are less than `N` apart
    apply store_of_le
    by_contra hover
    have hmod : (start + k) % N = start + k ∨ (start + k) % N = start + k - N ∧ N ≤ start + k := by
      by_cases hk' : start + k < N
      · exact .inl (Nat.mod_eq_of_lt hk')
      · rw [Nat.mod_eq_sub_mod (by omega), Nat.mod_eq_of_lt (by omega)]
        exact .inr ⟨rfl, by omega⟩
    have hmod' : p = start + len ∨ p = start + len - N ∧ N ≤ start + len := by
      by_cases hk' : start + len < N
      · exact .inl (hp.trans (Nat.mod_eq_of_lt hk'))
      · rw [Nat.mod_eq_sub_mod (by omega), Nat.mod_eq_of_lt (by omega)] at hp
        exact .inr ⟨hp, by omega⟩
    omega
  · apply List.ext_getElem
    · rw [length_ring]
    · intro i hi hi'
      rw [length_ring] at hi
      simp only [ring, List.getElem_map, List.getElem_range]
      rw [Nat.mod_eq_of_lt (by omega)]
      exact store_add base bytes hi'

end I370Linux.CircularBuffer
