import Mathlib

/-! # The two `strncpy`

`strncpy` of `arch/i370/lib/string.c` and the one of `lib/string.c` that it replaces, on a memory in which
the two strings may overlap.

The loop of the first tests its bound, which was decremented, after the turn.  From one turn on the loops are
the same (`loop_eq`), but for `n = 0` the first turn is made all the same: the file has a `__kernel_size_t` of its own,
which is an `int`, so that the bound is `-1` and one byte is stored. -/

namespace I370Linux.Strncpy

open Function

/-- Bytes by address. -/
abbrev Memory := ℕ → BitVec 8

/-- `strncpy` of `lib/string.c`, with `count` turns left. -/
def generic (mem : Memory) (dest src : ℕ) : ℕ → Memory
  | 0 => mem
  | count + 1 =>
    if mem src ≠ 0 then generic (update mem dest (mem src)) (dest + 1) (src + 1) count
    else update mem dest (mem src)

/-- The loop of `arch/i370/lib/string.c` at `i`, which is `left` below the bound, or not below it for `left = 0`. -/
def loop (mem : Memory) (dest src i : ℕ) : ℕ → Memory
  | 0 => update mem (dest + i) (mem (src + i))
  | left + 1 =>
    let mem := update mem (dest + i) (mem (src + i))
    if mem (src + i) ≠ 0 then loop mem dest src (i + 1) left else mem

/-- `strncpy` of `arch/i370/lib/string.c`: the bound `n - 1` is compared with `i` as an `int`. -/
def strncpy (mem : Memory) (dest src : ℕ) (n : BitVec 32) : Memory := loop mem dest src 0 (n - 1).toInt.toNat

variable {mem : Memory} {dest src : ℕ}

theorem update_read (mem : Memory) (a b : ℕ) : update mem a (mem b) b = mem b := by
  rw [update_apply]
  split <;> rfl

theorem loop_eq (i left : ℕ) : loop mem dest src i left = generic mem (dest + i) (src + i) (left + 1) := by
  induction left generalizing mem i with
  | zero => simp [loop, generic]
  | succ left ih =>
    rw [generic, loop]
    simp only [update_read, ih]
    rfl

theorem generic_apply (count : ℕ) {len : ℕ} (hlen : ∀ i < len, mem (src + i) ≠ 0) (hnul : mem (src + len) = 0)
    (hapart : dest ≤ src ∨ src + len < dest) (a : ℕ) : generic mem dest src count a =
      if dest ≤ a ∧ a < dest + min count (len + 1) then mem (src + (a - dest)) else mem a := by
  induction count generalizing mem dest src len with
  | zero => rw [generic, if_neg (by omega)]
  | succ count ih =>
    rw [generic]
    cases len with
    | zero =>
      rw [if_neg (show ¬ mem src ≠ 0 from not_not.mpr hnul), update_apply]
      by_cases ha : a = dest
      · simp [ha]
      · rw [if_neg ha, if_neg (by omega)]
    | succ len =>
      -- what is still to be read is not where the byte was stored
      have hkeep : ∀ i ≤ len, update mem dest (mem src) (src + 1 + i) = mem (src + (i + 1)) := by
        intro i hi
        rw [update_of_ne (by omega), Nat.add_assoc, Nat.add_comm 1]
      rw [if_pos (show mem src ≠ 0 from hlen 0 len.succ_pos), @ih _ _ _ len
        (fun i hi => hkeep i (Nat.le_of_lt hi) ▸ hlen (i + 1) (by omega)) (hkeep len (Nat.le_refl _) ▸ hnul) (by omega)]
      by_cases ha : dest + 1 ≤ a ∧ a < dest + 1 + min count (len + 1)
      · rw [if_pos ha, if_pos (by omega), hkeep _ (by omega)]
        congr 2
        omega
      · rw [if_neg ha, update_apply]
        by_cases hd : a = dest
        · rw [if_pos hd, if_pos (by omega), hd, Nat.sub_self]
          rfl
        · rw [if_neg hd, if_neg (by omega)]

/-- The signed bound leaves `n - 1` turns behind the first one. -/
theorem turns_left {n : BitVec 32} (hn : 0 ≤ n.toInt) (h0 : n ≠ 0) : (n - 1).toInt.toNat + 1 = n.toNat := by
  rw [BitVec.toInt_eq_toNat_cond] at hn ⊢
  split <;> bv_omega

/-- **The two `strncpy`** leave the same memory exactly if `n` is not zero or the first byte is at `dest` already. The
generic one writes `min (n, strlen + 1)` bytes and nothing else. -/
theorem strncpy_eq_iff (mem : Memory) (dest src : ℕ) {n : BitVec 32} (hn : 0 ≤ n.toInt) :
    (strncpy mem dest src n = generic mem dest src n.toNat ↔ n ≠ 0 ∨ mem dest = mem src) ∧
    ∀ len, (∀ i < len, mem (src + i) ≠ 0) → mem (src + len) = 0 → dest ≤ src ∨ src + len < dest →
      ∀ a, generic mem dest src n.toNat a =
        if dest ≤ a ∧ a < dest + min n.toNat (len + 1) then mem (src + (a - dest)) else mem a := by
  refine ⟨?_, fun len hlen hnul hapart => generic_apply _ hlen hnul hapart⟩
  by_cases h0 : n = 0
  · subst h0
    -- one turn against none
    change update mem dest (mem src) = mem ↔ _
    rw [update_eq_self_iff, or_iff_right (not_not.mpr rfl), eq_comm]
  · rw [strncpy, loop_eq, turns_left hn h0]
    exact iff_of_true rfl (.inl h0)

/-- Two bytes of a string of three. -/
theorem strncpy_eq_iff_three : (0 : ℤ) ≤ (2#32).toInt ∧
    strncpy (fun a => if a < 3 then 0x41 else 0) 8 0 2#32 = generic (fun a => if a < 3 then 0x41 else 0) 8 0 2 :=
  ⟨by decide, (strncpy_eq_iff _ _ _ (by decide)).1.mpr (.inl (by decide))⟩

/-- With `n = 0` a byte is stored. -/
theorem stores_byte : strncpy (fun a => if a = 0 then 0x41 else 0) 2 0 0 2 = 0x41 ∧
    generic (fun a => if a = 0 then 0x41 else 0) 2 0 0 2 = 0 := ⟨rfl, rfl⟩

end I370Linux.Strncpy
