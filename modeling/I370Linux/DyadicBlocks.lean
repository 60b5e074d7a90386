import Mathlib

/-! # Dyadic blocks and queues of them

A block is a pair of a first element and an order: `(i, k)` is the `2 ^ k` elements from `i` on.
Aligned blocks of one order come in pairs of buddies, and the two halves of a block are buddies
(`covers_parent`).

Blocks are kept in one queue for each order.  `queueSum` adds up a weight over all blocks of all
queues; with `covers · p` as the weight it counts the blocks that hold `p`, with `2 ^ k` it counts
elements.  How it changes when a block is put on a queue or taken off one is said once, for every
weight. -/

namespace I370Linux.DyadicBlocks

open Function List

/-! ### Blocks -/

/-- How often the block holds `p`: once or not at all. -/
def covers (b : ℕ × ℕ) (p : ℕ) : ℕ := if b.1 ≤ p ∧ p < b.1 + 2 ^ b.2 then 1 else 0

def Apart (b c : ℕ × ℕ) : Prop := ∀ p, covers b p = 0 ∨ covers c p = 0

/-- The other half of the block that an aligned block `(i, k)` is a half of. -/
def buddy (k i : ℕ) : ℕ := i ^^^ 2 ^ k

/-- The start of the block that `(i, k)` is a half of. -/
def parent (k i : ℕ) : ℕ := i / 2 ^ (k + 1) * 2 ^ (k + 1)

variable {b : ℕ × ℕ} {i k n p : ℕ} {l : List (ℕ × ℕ)} {q : ℕ → List ℕ}

theorem covers_pos_iff : 0 < covers b p ↔ b.1 ≤ p ∧ p < b.1 + 2 ^ b.2 := by
  unfold covers
  split_ifs with h <;> simp [h]

theorem covers_first (b : ℕ × ℕ) : covers b b.1 = 1 := by
  simp [covers]

theorem xor_one_div_two (a : ℕ) : (a ^^^ 1) / 2 = a / 2 := by
  rw [Nat.xor_div_two]
  simp

theorem xor_one_mod_two (a : ℕ) : (a ^^^ 1) % 2 = 1 - a % 2 := by
  rw [Nat.xor_mod_two_eq]
  omega

theorem buddy_mul (k a : ℕ) : buddy k (2 ^ k * a) = 2 ^ k * (a ^^^ 1) := by
  have h : 2 ^ k * a ^^^ 2 ^ k * 1 = 2 ^ k * (a ^^^ 1) := by
    simp only [Nat.mul_comm (2 ^ k), ← Nat.shiftLeft_eq]
    exact (Nat.shiftLeft_xor_distrib ..).symm
  rwa [Nat.mul_one] at h

theorem buddy_buddy (k i : ℕ) : buddy k (buddy k i) = i := by
  unfold buddy
  rw [Nat.xor_assoc, Nat.xor_self, Nat.xor_zero]

theorem mul_div_pow_succ (k a : ℕ) : 2 ^ k * a / 2 ^ (k + 1) = a / 2 := by
  rw [pow_succ, Nat.mul_div_mul_left _ _ (Nat.two_pow_pos k)]

theorem buddy_div (h : 2 ^ k ∣ i) : buddy k i / 2 ^ (k + 1) = i / 2 ^ (k + 1) := by
  obtain ⟨a, rfl⟩ := h
  rw [buddy_mul, mul_div_pow_succ, mul_div_pow_succ, xor_one_div_two]

theorem buddy_ne (h : 2 ^ k ∣ i) : buddy k i ≠ i := by
  obtain ⟨a, rfl⟩ := h
  rw [buddy_mul]
  intro he
  have h1 := Nat.eq_of_mul_eq_mul_left (Nat.two_pow_pos k) he
  have h2 := xor_one_mod_two a
  omega

theorem eq_or_eq_buddy {j : ℕ} (hi : 2 ^ k ∣ i) (hj : 2 ^ k ∣ j)
    (h : j / 2 ^ (k + 1) = i / 2 ^ (k + 1)) : j = i ∨ j = buddy k i := by
  obtain ⟨a, rfl⟩ := hi
  obtain ⟨b, rfl⟩ := hj
  rw [mul_div_pow_succ, mul_div_pow_succ] at h
  rw [buddy_mul]
  have h1 := xor_one_div_two a
  have h2 := xor_one_mod_two a
  have hb : b = a ∨ b = a ^^^ 1 := by omega
  obtain rfl | rfl := hb
  · exact .inl rfl
  · exact .inr rfl

theorem buddy_of_dvd_succ (h : 2 ^ (k + 1) ∣ i) : buddy k i = i + 2 ^ k := by
  obtain ⟨c, rfl⟩ := h
  have he : 2 ^ (k + 1) * c = 2 ^ k * (2 * c) := by rw [pow_succ, Nat.mul_assoc]
  have hx : 2 * c ^^^ 1 = 2 * c + 1 := by
    have h1 := xor_one_div_two (2 * c)
    have h2 := xor_one_mod_two (2 * c)
    omega
  rw [he, buddy_mul, hx, Nat.mul_add, Nat.mul_one]

theorem dvd_parent (k i : ℕ) : 2 ^ (k + 1) ∣ parent k i := Nat.dvd_mul_left ..

theorem covers_halves (k i p : ℕ) : covers (i, k + 1) p = covers (i, k) p + covers (i + 2 ^ k, k) p := by
  have h2 : 2 ^ (k + 1) = 2 ^ k + 2 ^ k := by rw [pow_succ]; omega
  unfold covers
  dsimp only
  rw [h2]
  split_ifs <;> omega

theorem covers_parent (h : 2 ^ k ∣ i) (p : ℕ) :
    covers (parent k i, k + 1) p = covers (i, k) p + covers (buddy k i, k) p := by
  have hd := dvd_parent k i
  have hpi : parent k i / 2 ^ (k + 1) = i / 2 ^ (k + 1) := Nat.mul_div_cancel _ (Nat.two_pow_pos _)
  have hdk : 2 ^ k ∣ parent k i := (pow_dvd_pow 2 (Nat.le_succ k)).trans hd
  rw [covers_halves]
  generalize parent k i = q at hd hpi hdk ⊢
  obtain rfl | rfl := eq_or_eq_buddy hdk h hpi.symm
  · rw [buddy_of_dvd_succ hd]
  · rw [buddy_buddy, buddy_of_dvd_succ hd, Nat.add_comm]

/-! ### Lists of blocks -/

/-- How many blocks of the list hold `p`. -/
def coverCount (l : List (ℕ × ℕ)) (p : ℕ) : ℕ := (l.map (covers · p)).sum

theorem covers_le_coverCount (h : b ∈ l) (p : ℕ) : covers b p ≤ coverCount l p :=
  single_le_sum (by simp) _ (mem_map_of_mem h)

theorem pairwise_apart (h : ∀ p, coverCount l p ≤ 1) : l.Pairwise Apart := by
  induction l with
  | nil => exact List.Pairwise.nil
  | cons b l ih =>
    have hsum : ∀ p, covers b p + coverCount l p ≤ 1 := by
      intro p
      simpa [coverCount] using h p
    refine pairwise_cons.2 ⟨fun c hc p => ?_, ih fun p => ?_⟩
    · have h1 := hsum p
      have h2 := covers_le_coverCount hc p
      omega
    · have := hsum p
      omega

theorem existsUnique_of_coverCount (h : coverCount l p = 1) :
    ∃ b ∈ l, 0 < covers b p ∧ ∀ c ∈ l, 0 < covers c p → c = b := by
  induction l with
  | nil => simp [coverCount] at h
  | cons b l ih =>
    have hsum : covers b p + coverCount l p = 1 := by simpa [coverCount] using h
    obtain hb | hb := Nat.eq_zero_or_pos (covers b p)
    · obtain ⟨c, hc, hcp, huniq⟩ := ih (by omega)
      refine ⟨c, mem_cons_of_mem _ hc, hcp, ?_⟩
      rintro d hd hdp
      obtain rfl | hd := mem_cons.1 hd
      · omega
      · exact huniq d hd hdp
    · refine ⟨b, mem_cons_self .., hb, ?_⟩
      rintro c hc hcp
      obtain rfl | hc := mem_cons.1 hc
      · rfl
      · have := covers_le_coverCount hc p
        omega

theorem sum_covers (h : b.1 + 2 ^ b.2 ≤ n) : ∑ p ∈ Finset.range n, covers b p = 2 ^ b.2 := by
  unfold covers
  rw [← Finset.sum_filter, Finset.sum_const, smul_eq_mul, Nat.mul_one]
  have hset : Finset.filter (fun p => b.1 ≤ p ∧ p < b.1 + 2 ^ b.2) (Finset.range n) =
      Finset.Ico b.1 (b.1 + 2 ^ b.2) := by
    ext p
    simp only [Finset.mem_filter, Finset.mem_range, Finset.mem_Ico]
    omega
  rw [hset, Nat.card_Ico, Nat.add_sub_cancel_left]

theorem sum_sizes (h : ∀ b ∈ l, b.1 + 2 ^ b.2 ≤ n) :
    (l.map fun b => 2 ^ b.2).sum = ∑ p ∈ Finset.range n, coverCount l p := by
  induction l with
  | nil => simp [coverCount]
  | cons b l ih =>
    have hsum : ∀ p, coverCount (b :: l) p = covers b p + coverCount l p := by
      intro p
      simp [coverCount]
    simp only [hsum, map_cons, sum_cons, Finset.sum_add_distrib]
    rw [sum_covers (h b (mem_cons_self ..)), ih fun c hc => h c (mem_cons_of_mem _ hc)]

/-! ### Queues by order -/

/-- The sum of a weight over all blocks of the queues of orders below `n`. -/
def queueSum (n : ℕ) (q : ℕ → List ℕ) (w : ℕ × ℕ → ℕ) : ℕ :=
  ∑ k ∈ Finset.range n, ((q k).map fun i => w (i, k)).sum

/-- The blocks of the queues of orders below `n`. -/
def queueBlocks (n : ℕ) (q : ℕ → List ℕ) : List (ℕ × ℕ) :=
  (List.range n).flatMap fun k => (q k).map fun i => (i, k)

theorem mem_queueBlocks : b ∈ queueBlocks n q ↔ b.2 < n ∧ b.1 ∈ q b.2 := by
  obtain ⟨i, k⟩ := b
  simp only [queueBlocks, mem_flatMap, mem_range, mem_map, Prod.mk.injEq]
  constructor
  · rintro ⟨k', hk, i', hi, rfl, rfl⟩
    exact ⟨hk, hi⟩
  · rintro ⟨hk, hi⟩
    exact ⟨k, hk, i, hi, rfl, rfl⟩

theorem sum_queueBlocks (n : ℕ) (q : ℕ → List ℕ) (w : ℕ × ℕ → ℕ) :
    ((queueBlocks n q).map w).sum = queueSum n q w := by
  unfold queueBlocks queueSum
  induction n with
  | zero => rfl
  | succ n ih =>
    rw [range_succ, flatMap_append, map_append, sum_append, ih, Finset.sum_range_succ]
    simp [Function.comp_def]

section Update

variable (q : ℕ → List ℕ) (w : ℕ × ℕ → ℕ)

theorem queueSum_update (hk : k < n) (l : List ℕ) :
    queueSum n (update q k l) w + ((q k).map fun i => w (i, k)).sum =
      queueSum n q w + (l.map fun i => w (i, k)).sum := by
  unfold queueSum
  have hmem : k ∈ Finset.range n := Finset.mem_range.2 hk
  rw [← Finset.add_sum_erase _ _ hmem, ← Finset.add_sum_erase (Finset.range n) _ hmem]
  have hrest : ∑ j ∈ (Finset.range n).erase k, ((update q k l j).map fun i => w (i, j)).sum =
      ∑ j ∈ (Finset.range n).erase k, ((q j).map fun i => w (i, j)).sum := by
    refine Finset.sum_congr rfl fun j hj => ?_
    rw [update_of_ne (Finset.ne_of_mem_erase hj)]
  rw [hrest, update_self]
  omega

theorem queueSum_push (hk : k < n) (i : ℕ) :
    queueSum n (update q k (i :: q k)) w = queueSum n q w + w (i, k) := by
  have := queueSum_update q w hk (i :: q k)
  simp only [map_cons, sum_cons] at this
  omega

theorem queueSum_erase (hk : k < n) {i : ℕ} (hi : i ∈ q k) :
    queueSum n (update q k ((q k).erase i)) w + w (i, k) = queueSum n q w := by
  have hup := queueSum_update q w hk ((q k).erase i)
  have herase := ((perm_cons_erase hi).map fun i => w (i, k)).sum_eq
  simp only [map_cons, sum_cons] at herase
  omega

theorem weight_le_queueSum (hk : k < n) {i : ℕ} (hi : i ∈ q k) : w (i, k) ≤ queueSum n q w := by
  have := queueSum_erase q w hk hi
  omega

end Update

theorem nodup_of_queueSum (hk : k < n) (h : ∀ p, queueSum n q (covers · p) ≤ 1) : (q k).Nodup := by
  refine nodup_iff_count_le_one.2 fun i => ?_
  by_contra hlt
  have hi : i ∈ q k := count_pos_iff.1 (by omega)
  have hi' : i ∈ (q k).erase i := count_pos_iff.1 (by rw [count_erase_self]; omega)
  have h1 := queueSum_erase q (covers · i) hk hi
  have h2 := weight_le_queueSum (update q k ((q k).erase i)) (covers · i) hk (by rw [update_self]; exact hi')
  have h3 := covers_first (i, k)
  have h4 := h i
  dsimp only at h1 h2 h3
  omega

end I370Linux.DyadicBlocks
