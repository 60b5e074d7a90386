import I370Linux.Buddy

/-! # The invariant of the buddy allocator

`Inv m held` is the invariant with the blocks `held` off the queues: every page that is not reserved
is in exactly one block, free or held, and the bit of a pair of buddies tells whether one of them is
free, never both.  Four moves keep it: a free block is taken (`Inv.take`), a held block is put
back (`Inv.put`), a held block is split (`Inv.split`), two held buddies are merged (`Inv.merge`).
The loops of the source are made of these moves: `free_pages_ok` takes buddies and merges, then puts;
`EXPAND` splits and puts. -/

namespace I370Linux.Buddy

open Runs DyadicBlocks Function List
open BitVec (ofNat toNat_ushiftRight toNat_ofNat)

/-- The top order, whose bitmap the free path never looks at. -/
def topOrder : ℕ := nrMemLists - 1

/-- How many blocks, free or held, contain the page `p`. -/
def owners (m : Mem) (held : List (ℕ × ℕ)) (p : ℕ) : ℕ :=
  queueSum nrMemLists m.queue (covers · p) + coverCount held p

/-- The bit of each pair of buddies below the top tells whether one of them is free. -/
def BitsOk (m : Mem) : Prop :=
  ∀ k < topOrder, ∀ i, 2 ^ k ∣ i → ¬ (i ∈ m.queue k ∧ buddy k i ∈ m.queue k) ∧
    (m.map k (i / 2 ^ (k + 1)) = true ↔ i ∈ m.queue k ∨ buddy k i ∈ m.queue k)

/-- The invariant of the allocator with the blocks `held` off its queues. -/
structure Inv (m : Mem) (held : List (ℕ × ℕ)) : Prop where
  aligned : ∀ k < nrMemLists, ∀ i ∈ m.queue k, 2 ^ k ∣ i
  aligned_held : ∀ b ∈ held, 2 ^ b.2 ∣ b.1 ∧ b.2 < nrMemLists
  owners_eq : ∀ p, owners m held p = if p < m.maxMapnr ∧ m.reserved p = false then 1 else 0
  bits : BitsOk m

def freeTotal (m : Mem) : ℕ := queueSum nrMemLists m.queue fun b => 2 ^ b.2

section Moves

variable {m : Mem} {held : List (ℕ × ℕ)} {i k : ℕ}

theorem Inv.owners_le_one (h : Inv m held) (p : ℕ) : owners m held p ≤ 1 := by
  rw [h.owners_eq p]
  split_ifs <;> omega

theorem Inv.nodup (h : Inv m held) (hk : k < nrMemLists) : (m.queue k).Nodup :=
  nodup_of_queueSum hk fun p => (Nat.le_add_right ..).trans (h.owners_le_one p)

theorem Inv.not_free_of_held (h : Inv m held) {b : ℕ × ℕ} (hb : b ∈ held) {p : ℕ}
    (hp : 0 < covers b p) {j l : ℕ} (hl : l < nrMemLists) (hj : 0 < covers (j, l) p) :
    j ∉ m.queue l := by
  intro hmem
  have h1 := weight_le_queueSum m.queue (covers · p) hl hmem
  have h2 := covers_le_coverCount hb p
  have h3 := h.owners_le_one p
  unfold owners at h3
  omega

theorem coverCount_cons (b : ℕ × ℕ) (p : ℕ) : coverCount (b :: held) p = covers b p + coverCount held p := by
  simp [coverCount]

theorem Inv.merge (h : Inv m ((i, k) :: (buddy k i, k) :: held)) (hk : k < topOrder) :
    Inv m ((parent k i, k + 1) :: held) where
  __ := h
  aligned_held := by
    intro b hb
    obtain rfl | hb := mem_cons.1 hb
    · refine ⟨dvd_parent k i, ?_⟩
      unfold topOrder at hk
      omega
    · exact h.aligned_held b (mem_cons_of_mem _ (mem_cons_of_mem _ hb))
  owners_eq := by
    intro p
    have hi := (h.aligned_held (i, k) (mem_cons_self ..)).1
    rw [← h.owners_eq p]
    simp only [owners, coverCount_cons, covers_parent hi]
    omega

theorem Inv.split (h : Inv m ((i, k + 1) :: held)) : Inv m ((i, k) :: (i + 2 ^ k, k) :: held) where
  __ := h
  aligned_held := by
    obtain ⟨hi, hk⟩ := h.aligned_held (i, k + 1) (mem_cons_self ..)
    have hik : 2 ^ k ∣ i := (pow_dvd_pow 2 (Nat.le_succ k)).trans hi
    have hlt : k < nrMemLists := Nat.lt_of_succ_lt hk
    intro b hb
    simp only [mem_cons] at hb
    obtain rfl | rfl | hb := hb
    · exact ⟨hik, hlt⟩
    · exact ⟨hik.add (Nat.dvd_refl _), hlt⟩
    · exact h.aligned_held b (mem_cons_of_mem _ hb)
  owners_eq := by
    intro p
    rw [← h.owners_eq p]
    simp only [owners, coverCount_cons, covers_halves k i]
    omega

/-- The invariant reads the queues, the reserved pages and the bitmaps below the top only. -/
theorem Inv.congr {m' : Mem} (h : Inv m held) (hq : m'.queue = m.queue)
    (hm : ∀ k < topOrder, m'.map k = m.map k) (hn : m'.maxMapnr = m.maxMapnr)
    (hr : m'.reserved = m.reserved) : Inv m' held where
  aligned := by rw [hq]; exact h.aligned
  aligned_held := h.aligned_held
  owners_eq := by
    unfold owners
    rw [hq, hn, hr]
    exact h.owners_eq
  bits := by
    intro k hk i hi
    rw [hq, hm k hk]
    exact h.bits k hk i hi

theorem changeBit_map (m : Mem) (k a k' b : ℕ) :
    (m.changeBit k a).map k' b = if k' = k ∧ b = a then !m.map k a else m.map k' b := by
  simp only [Mem.changeBit, update_apply]
  split_ifs with h1 h2 h2
  · rw [update_apply, if_pos h2.2]
  · rw [update_apply, if_neg fun hb => h2 ⟨h1, hb⟩, h1]
  · exact absurd h2.1 h1
  · rfl

/-- The free block `(i, k)` off its queue and its bit changed. -/
def Mem.take (m : Mem) (k i : ℕ) : Mem :=
  ({ m with queue := update m.queue k ((m.queue k).erase i) } : Mem).changeBit k
    (i / 2 ^ (k + 1))

/-- The block `(i, k)` on its queue and its bit changed. -/
def Mem.put (m : Mem) (k i : ℕ) : Mem := (m.addMemQueue k i).changeBit k (i / 2 ^ (k + 1))

/-- A new queue of order `k` that differs in `i` only, with the bit of its pair changed, keeps the
bits right if it does so for the pair of `i`. -/
theorem bitsOk_of_pair {m' : Mem} {l : List ℕ} (h : BitsOk m) (hi : 2 ^ k ∣ i)
    (hq : m'.queue = update m.queue k l)
    (hm : ∀ k' b, m'.map k' b = if k' = k ∧ b = i / 2 ^ (k + 1) then !m.map k (i / 2 ^ (k + 1))
      else m.map k' b)
    (hl : ∀ j, j ≠ i → (j ∈ l ↔ j ∈ m.queue k))
    (hpair : k < topOrder → ¬ (i ∈ l ∧ buddy k i ∈ l) ∧
      ((!m.map k (i / 2 ^ (k + 1))) = true ↔ i ∈ l ∨ buddy k i ∈ l)) : BitsOk m' := by
  intro k' hk' j hj
  obtain rfl | hkk := eq_or_ne k' k
  · have hself : m'.queue k' = l := by rw [hq, update_self]
    rw [hself, hm]
    by_cases hji : j / 2 ^ (k' + 1) = i / 2 ^ (k' + 1)
    · rw [if_pos ⟨rfl, hji⟩]
      obtain rfl | rfl := eq_or_eq_buddy hi hj hji
      · exact hpair hk'
      · obtain ⟨hnot, hbit⟩ := hpair hk'
        rw [buddy_buddy]
        exact ⟨fun hc => hnot hc.symm, hbit.trans or_comm⟩
    · have hbj := buddy_div hj
      rw [if_neg fun hc => hji hc.2, hl j (fun he => hji (by rw [he])),
        hl (buddy k' j) (fun he => hji (by rw [← hbj, he]))]
      exact h k' hk' j hj
  · rw [hq, hm, update_of_ne hkk, if_neg fun hc => hkk hc.1]
    exact h k' hk' j hj

theorem Inv.take (h : Inv m held) (hk : k < nrMemLists) (hi : i ∈ m.queue k) :
    Inv (m.take k i) ((i, k) :: held) where
  aligned := by
    intro k' hk' j hj
    refine h.aligned k' hk' j ?_
    simp only [Mem.take, Mem.changeBit, update_apply] at hj
    split_ifs at hj with hkk
    · subst hkk
      exact mem_of_mem_erase hj
    · exact hj
  aligned_held := by
    intro b hb
    obtain rfl | hb := mem_cons.1 hb
    · exact ⟨h.aligned k hk i hi, hk⟩
    · exact h.aligned_held b hb
  owners_eq := by
    intro p
    have hsum := queueSum_erase m.queue (covers · p) hk hi
    refine Eq.trans ?_ (h.owners_eq p)
    simp only [owners, coverCount_cons, Mem.take, Mem.changeBit]
    omega
  bits := by
    have hnd := h.nodup hk
    have hid := h.aligned k hk i hi
    refine bitsOk_of_pair h.bits hid rfl (changeBit_map _ _ _) ?_ fun hkt => ?_
    · intro j hj
      exact mem_erase_of_ne hj
    · obtain ⟨hnot, hbit⟩ := h.bits k hkt i hid
      have hb : buddy k i ∉ m.queue k := fun hb => hnot ⟨hi, hb⟩
      have hset : m.map k (i / 2 ^ (k + 1)) = true := hbit.2 (.inl hi)
      have hi' : i ∉ (m.queue k).erase i := hnd.not_mem_erase
      have hb' : buddy k i ∉ (m.queue k).erase i := fun hc => hb (mem_of_mem_erase hc)
      simp [hset, hi', hb']

theorem Inv.put (h : Inv m ((i, k) :: held)) (hb : k < topOrder → buddy k i ∉ m.queue k) :
    Inv (m.put k i) held := by
  obtain ⟨hid, hk⟩ := h.aligned_held (i, k) (mem_cons_self ..)
  refine ⟨?_, ?_, ?_, ?_⟩
  · intro k' hk' j hj
    simp only [Mem.put, Mem.addMemQueue, Mem.changeBit, update_apply] at hj
    split_ifs at hj with hkk
    · subst hkk
      obtain rfl | hj := mem_cons.1 hj
      · exact hid
      · exact h.aligned k' hk' j hj
    · exact h.aligned k' hk' j hj
  · exact fun b hb => h.aligned_held b (mem_cons_of_mem _ hb)
  · intro p
    have hsum := queueSum_push m.queue (covers · p) hk i
    refine Eq.trans ?_ (h.owners_eq p)
    simp only [owners, coverCount_cons, Mem.put, Mem.addMemQueue, Mem.changeBit] at hsum ⊢
    omega
  · refine bitsOk_of_pair h.bits hid rfl (changeBit_map _ _ _) ?_ fun hkt => ?_
    · intro j hj
      simp [hj]
    · have hi : i ∉ m.queue k := by
        refine h.not_free_of_held (mem_cons_self ..) (p := i) ?_ hk ?_ <;> rw [covers_first (i, k)] <;> omega
      obtain ⟨-, hbit⟩ := h.bits k hkt i hid
      have hclear : m.map k (i / 2 ^ (k + 1)) = false := by
        rw [← Bool.not_eq_true, hbit]
        rintro (hc | hc)
        · exact hi hc
        · exact hb hkt hc
      have hne := buddy_ne hid
      simp [hclear, hb hkt, hne]

theorem Inv.put_top (h : Inv m ((i, topOrder) :: held)) : Inv (m.addMemQueue topOrder i) held := by
  refine (h.put fun hk => absurd hk (lt_irrefl _)).congr rfl ?_ rfl rfl
  intro k hk
  funext b
  rw [Mem.put, changeBit_map, if_neg fun hc => hk.ne hc.1]

theorem freeTotal_take (m : Mem) (hk : k < nrMemLists) (hi : i ∈ m.queue k) :
    freeTotal (m.take k i) + 2 ^ k = freeTotal m :=
  queueSum_erase m.queue (fun b => 2 ^ b.2) hk hi

theorem freeTotal_addMemQueue (m : Mem) (hk : k < nrMemLists) (i : ℕ) :
    freeTotal (m.addMemQueue k i) = freeTotal m + 2 ^ k :=
  queueSum_push m.queue (fun b => 2 ^ b.2) hk i

end Moves

/-! ### The words of the free path -/

/-- `(~0UL) << k`. -/
def maskOf (k : ℕ) : BitVec 32 := (~~~(0 : BitVec 32)) <<< k

theorem maskOf_succ (k : ℕ) : maskOf k <<< 1 = maskOf (k + 1) := by
  unfold maskOf
  rw [BitVec.shiftLeft_add]

variable {i k : ℕ} {m : Mem} {held : List (ℕ × ℕ)} {s : Sys}

theorem maskOf_top_iff (hk : k < nrMemLists) :
    maskOf k + (1 : BitVec 32) <<< (nrMemLists - 1) = 0 ↔ k = topOrder := by
  unfold nrMemLists at hk
  interval_cases k <;> decide

theorem toNat_neg_maskOf (hk : k < nrMemLists) : (-maskOf k).toNat = 2 ^ k := by
  unfold nrMemLists at hk
  interval_cases k <;> decide

theorem toNat_xor_neg_maskOf (hk : k < nrMemLists) (x : BitVec 32) :
    (x ^^^ -maskOf k).toNat = buddy k x.toNat := by
  rw [BitVec.toNat_xor, toNat_neg_maskOf hk, buddy]

theorem and_maskOf (x : BitVec 32) (k : ℕ) : x &&& maskOf k = (x >>> k) <<< k := by
  refine BitVec.eq_of_getLsbD_eq fun i hi => ?_
  simp only [maskOf, BitVec.getLsbD_and, BitVec.getLsbD_shiftLeft, BitVec.getLsbD_ushiftRight,
    BitVec.getLsbD_not, hi, decide_true, Bool.true_and]
  obtain hik | hik := lt_or_ge i k
  · simp [hik]
  · have h1 : k + (i - k) = i := by omega
    have h2 : i - k < 32 := by omega
    simp [hik.not_gt, h1, h2]

theorem toNat_and_maskOf (x : BitVec 32) (k : ℕ) : (x &&& maskOf k).toNat = x.toNat / 2 ^ k * 2 ^ k := by
  rw [and_maskOf, BitVec.toNat_shiftLeft, toNat_ushiftRight, Nat.shiftRight_eq_div_pow,
    Nat.shiftLeft_eq]
  exact Nat.mod_eq_of_lt ((Nat.div_mul_le_self _ _).trans_lt x.isLt)

/-! ### Freeing a block -/

theorem removeMemQueue_changeBit {j : ℕ} (hj : j ∈ m.queue k) (hidx : j / 2 ^ (k + 1) = i / 2 ^ (k + 1)) :
    (m.changeBit k (i / 2 ^ (k + 1))).removeMemQueue k j = some (m.take k j) := by
  have hmem : j ∈ (m.changeBit k (i / 2 ^ (k + 1))).queue k := hj
  rw [Mem.removeMemQueue, if_pos hmem, Mem.take, hidx]
  rfl

/-- **The free loop** ends, and leaves the invariant without the block `(mapNr, k)` and its pages among the free ones;
nothing but queues and bitmaps changes. -/
theorem freeLoop_spec {fuel : ℕ} : ∀ {k : ℕ} {m : Mem}
    {index mapNr mask : BitVec 32}, k < nrMemLists → nrMemLists - k ≤ fuel → mask = maskOf k →
    index.toNat = mapNr.toNat / 2 ^ (k + 1) → Inv m ((mapNr.toNat, k) :: held) →
    ∃ q b, freeLoop m fuel k index mapNr mask = some { m with queue := q, map := b } ∧
      Inv { m with queue := q, map := b } held ∧
      freeTotal { m with queue := q, map := b } = freeTotal m + 2 ^ k := by
  induction fuel with
  | zero =>
    intro k m index mapNr mask hk hf
    omega
  | succ fuel ih =>
    rintro k m index mapNr mask hk hf rfl hidx h
    obtain ⟨hal, -⟩ := h.aligned_held (mapNr.toNat, k) (mem_cons_self ..)
    have hput := freeTotal_addMemQueue m hk mapNr.toNat
    rw [freeLoop]
    obtain rfl | hne := eq_or_ne k topOrder
    · rw [if_pos ((maskOf_top_iff hk).2 rfl)]
      exact ⟨_, _, rfl, h.put_top, hput⟩
    rw [if_neg (mt (maskOf_top_iff hk).1 hne)]
    have hkt : k < topOrder := by
      unfold topOrder at hne ⊢
      omega
    obtain ⟨-, hbit⟩ := h.bits k hkt _ hal
    rw [hidx]
    cases hb : m.map k (mapNr.toNat / 2 ^ (k + 1)) with
    | false =>
      have hnb : buddy k mapNr.toNat ∉ m.queue k := by
        intro hc
        rw [hb] at hbit
        exact absurd (hbit.2 (.inr hc)) (by simp)
      exact ⟨_, _, rfl, h.put fun _ => hnb, hput⟩
    | true =>
      have hfree : buddy k mapNr.toNat ∈ m.queue k := by
        obtain hc | hc := hbit.1 hb
        · have hpos : 0 < covers (mapNr.toNat, k) mapNr.toNat := by
            rw [covers_first (mapNr.toNat, k)]
            omega
          exact absurd hc (h.not_free_of_held (mem_cons_self ..) hpos hk hpos)
        · exact hc
      have hrem := removeMemQueue_changeBit hfree (buddy_div hal)
      have htotal := freeTotal_take m hk hfree
      -- The buddy and the block in hand are merged, and the loop goes on with the pair.
      have hmerged := h.take hk hfree
      have hhand : Inv (m.take k (buddy k mapNr.toNat)) ((parent k mapNr.toNat, k + 1) :: held) := by
        have hpair : parent k (buddy k mapNr.toNat) = parent k mapNr.toNat := by
          rw [parent, buddy_div hal, parent]
        rw [← hpair]
        refine Inv.merge ?_ hkt
        rw [buddy_buddy]
        exact hmerged
      have hnext : (mapNr &&& maskOf k <<< 1).toNat = parent k mapNr.toNat := by
        rw [maskOf_succ, toNat_and_maskOf, parent]
      have hindex : (index >>> 1).toNat = (mapNr &&& maskOf k <<< 1).toNat / 2 ^ (k + 1 + 1) := by
        rw [hnext, toNat_ushiftRight, Nat.shiftRight_eq_div_pow, hidx, pow_one, parent,
          pow_succ 2 (k + 1), ← Nat.div_div_eq_div_mul, Nat.mul_div_cancel _ (Nat.two_pow_pos _)]
      rw [← hnext] at hhand
      have hk' : k + 1 < nrMemLists := by
        unfold topOrder at hkt
        omega
      obtain ⟨q, b, hrun, hinv, htot⟩ := ih hk' (by omega) (maskOf_succ k) hindex hhand
      refine ⟨q, b, ?_, hinv, ?_⟩
      · simp only [Bool.not_true, Bool.false_eq_true, if_false, toNat_xor_neg_maskOf hk, hrem]
        exact hrun
      · refine htot.trans ?_
        omega

theorem freePagesOk_spec (hi : i < 2 ^ 32) (h : Inv m ((i, k) :: held)) :
    ∃ q b, freePagesOk m (ofNat 32 i) k =
        some { m with queue := q, map := b, nrFreePages := m.nrFreePages + ofNat 32 (2 ^ k) } ∧
      Inv { m with queue := q, map := b } held ∧
      freeTotal { m with queue := q, map := b } = freeTotal m + 2 ^ k := by
  obtain ⟨hal, hk⟩ := h.aligned_held (i, k) (mem_cons_self ..)
  have hnat : (ofNat 32 i).toNat = i := by
    rw [toNat_ofNat]
    exact Nat.mod_eq_of_lt hi
  have hstart : (ofNat 32 i &&& maskOf k).toNat = i := by
    rw [toNat_and_maskOf, hnat]
    exact Nat.div_mul_cancel hal
  have hnr : m.nrFreePages - maskOf k = m.nrFreePages + ofNat 32 (2 ^ k) := by
    have hneg : -maskOf k = ofNat 32 (2 ^ k) := by
      rw [← toNat_neg_maskOf hk, BitVec.ofNat_toNat, BitVec.setWidth_eq]
    rw [BitVec.sub_eq_add_neg, hneg]
  have hidx : (ofNat 32 i >>> (1 + k)).toNat =
      (ofNat 32 i &&& maskOf k).toNat / 2 ^ (k + 1) := by
    rw [hstart, toNat_ushiftRight, hnat, Nat.shiftRight_eq_div_pow, Nat.add_comm]
  have hinv : Inv { m with nrFreePages := m.nrFreePages - maskOf k }
      (((ofNat 32 i &&& maskOf k).toNat, k) :: held) := by
    rw [hstart]
    exact h.congr rfl (fun _ _ => rfl) rfl rfl
  obtain ⟨q, b, hrun, hinv', htot⟩ := freeLoop_spec hk (Nat.sub_le _ _) rfl hidx hinv
  refine ⟨q, b, ?_, hinv'.congr rfl (fun _ _ => rfl) rfl rfl, htot⟩
  rw [← hnr]
  exact hrun

/-! ### Allocating a block -/

/-- **`EXPAND`.**  With the block `(index, high)` in hand it leaves a block of order `low` in hand and
the rest on the queues. -/
theorem expand_spec {low : ℕ} : ∀ {high index : ℕ} {m : Mem} {held : List (ℕ × ℕ)}, low ≤ high →
    Inv m ((index, high) :: held) →
    Inv (expand low high index m).2 (((expand low high index m).1, low) :: held) ∧
      freeTotal (expand low high index m).2 + 2 ^ low = freeTotal m + 2 ^ high ∧
      (expand low high index m).2.nrFreePages = m.nrFreePages ∧
      (expand low high index m).2.maxMapnr = m.maxMapnr := by
  intro high
  induction high with
  | zero =>
    intro index m held hlow h
    obtain rfl := Nat.le_zero.1 hlow
    exact ⟨h.congr rfl (fun _ _ => rfl) rfl rfl, rfl, rfl, rfl⟩
  | succ high ih =>
    intro index m held hlow h
    rw [expand]
    obtain rfl | hlt := Nat.eq_or_lt_of_le hlow
    · rw [if_neg (lt_irrefl _)]
      exact ⟨h.congr rfl (fun _ _ => rfl) rfl rfl, rfl, rfl, rfl⟩
    rw [if_pos hlt]
    obtain ⟨hal, hk⟩ := h.aligned_held (index, high + 1) (mem_cons_self ..)
    have hk' : high < nrMemLists := Nat.lt_of_succ_lt hk
    -- The upper half stays in hand, so it is not free when the lower half is put back.
    have hupper : buddy high index ∉ m.queue high := by
      rw [buddy_of_dvd_succ hal]
      have hcov := covers_first (index + 2 ^ high, high)
      refine h.split.not_free_of_held (b := (index + 2 ^ high, high)) (by simp)
        (p := index + 2 ^ high) ?_ hk' ?_ <;> rw [hcov] <;> omega
    have hput := h.split.put fun _ => hupper
    have htot := freeTotal_addMemQueue m hk' index
    obtain ⟨hinv, htotal, hnr⟩ := ih (Nat.lt_succ_iff.1 hlt) hput
    rw [Nat.add_comm 1 high]
    refine ⟨hinv, htotal.trans ?_, hnr⟩
    have hsame : freeTotal (m.put high index) = freeTotal (m.addMemQueue high index) := rfl
    omega

theorem rmqueue_spec {m' : Mem} {gfpDma : Bool} {order : ℕ}
    (h : Inv m held) {n : ℕ} : ∀ {newOrder : ℕ}, order ≤ newOrder → newOrder + n = nrMemLists →
    rmqueue m gfpDma order n newOrder = some (i, m') →
    Inv m' ((i, order) :: held) ∧ freeTotal m' + 2 ^ order = freeTotal m ∧
      m'.nrFreePages = m.nrFreePages - ofNat 32 (2 ^ order) ∧ m'.maxMapnr = m.maxMapnr := by
  induction n with
  | zero =>
    intro newOrder _ _ hr
    exact absurd hr (by simp [rmqueue])
  | succ n ih =>
    intro newOrder hle hn hr
    rw [rmqueue] at hr
    cases hf : (m.queue newOrder).find? fun ret => !gfpDma || m.dma ret with
    | none =>
      rw [hf] at hr
      exact ih (by omega) (by omega) hr
    | some ret =>
      rw [hf] at hr
      have hmem := mem_of_find?_eq_some hf
      have hk : newOrder < nrMemLists := by omega
      have hsize : (1 : BitVec 32) <<< order = ofNat 32 (2 ^ order) := by
        refine BitVec.eq_of_toNat_eq ?_
        rw [BitVec.toNat_shiftLeft, toNat_ofNat, Nat.shiftLeft_eq]
        simp
      have htake : Inv { m.take newOrder ret with
          nrFreePages := m.nrFreePages - ofNat 32 (2 ^ order) } ((ret, newOrder) :: held) :=
        (h.take hk hmem).congr rfl (fun _ _ => rfl) rfl rfl
      have htot := freeTotal_take m hk hmem
      obtain ⟨hinv, htotal, hnr⟩ := expand_spec hle htake
      have hres := Option.some.inj hr
      rw [Nat.add_comm 1 newOrder, hsize] at hres
      have hi : i = _ := (congrArg Prod.fst hres).symm
      have hm : m' = _ := (congrArg Prod.snd hres).symm
      rw [hi, hm]
      refine ⟨hinv, htotal.trans ?_, hnr⟩
      exact htot

/-! ### The system -/

section Held

section

variable (h : Inv m held)
include h

theorem Inv.page_of_owners {p : ℕ} (hp : 0 < owners m held p) : p < m.maxMapnr ∧ m.reserved p = false := by
  by_contra hno
  have := h.owners_eq p
  rw [if_neg hno] at this
  omega

theorem Inv.free_within {k i : ℕ} (hk : k < nrMemLists) (hi : i ∈ m.queue k) : i + 2 ^ k ≤ m.maxMapnr := by
  have hpow := Nat.two_pow_pos k
  have hcov : 0 < covers (i, k) (i + 2 ^ k - 1) := covers_pos_iff.2 (by dsimp only; omega)
  have hle := weight_le_queueSum m.queue (covers · (i + 2 ^ k - 1)) hk hi
  have := (h.page_of_owners (p := i + 2 ^ k - 1) (by unfold owners; omega)).1
  omega

theorem Inv.held_within {b : ℕ × ℕ} (hb : b ∈ held) : b.1 + 2 ^ b.2 ≤ m.maxMapnr := by
  have hpow := Nat.two_pow_pos b.2
  have hcov : 0 < covers b (b.1 + 2 ^ b.2 - 1) := covers_pos_iff.2 (by omega)
  have hle := covers_le_coverCount hb (b.1 + 2 ^ b.2 - 1)
  have := (h.page_of_owners (p := b.1 + 2 ^ b.2 - 1) (by unfold owners; omega)).1
  omega

theorem Inv.claim {p : ℕ} (hp : p < m.maxMapnr) (hr : m.reserved p = true) : Inv { m with
      reserved := update m.reserved p false
      count := update m.count p 1 } ((p, 0) :: held) where
  __ := h
  aligned_held := by
    intro b hb
    obtain rfl | hb := mem_cons.1 hb
    · exact ⟨by simp, by simp [nrMemLists]⟩
    · exact h.aligned_held b hb
  owners_eq := by
    intro q
    have hold := h.owners_eq q
    unfold owners at hold ⊢
    dsimp only
    rw [coverCount_cons]
    have hcov : covers (p, 0) q = if q = p then 1 else 0 := by
      unfold covers
      dsimp only
      split_ifs <;> omega
    obtain rfl | hne := eq_or_ne q p
    · rw [hcov, if_pos rfl, if_pos ⟨hp, update_self ..⟩]
      rw [if_neg (by simp [hr])] at hold
      omega
    · simp only [hcov, if_neg hne, update_of_ne hne, Nat.zero_add]
      exact hold

theorem Inv.perm {held' : List (ℕ × ℕ)} (hp : held.Perm held') : Inv m held' where
  __ := h
  aligned_held := fun b hb => h.aligned_held b (hp.mem_iff.2 hb)
  owners_eq := by
    intro p
    rw [← h.owners_eq p]
    simp only [owners, coverCount, (hp.map (covers · p)).sum_eq]

end

end Held

/-- The invariant of the page allocator. -/
structure SysInv (s : Sys) : Prop where
  inv : Inv s.mem s.held
  total : s.mem.nrFreePages = ofNat 32 (freeTotal s.mem)
  small : s.mem.maxMapnr ≤ 2 ^ 20

theorem freeAreaInit_sysInv (endMem : BitVec 32) (dma : ℕ → Bool) : SysInv (freeAreaInit endMem dma) where
  inv := by
    refine ⟨by simp [freeAreaInit], by simp [freeAreaInit], ?_, ?_⟩
    · intro p
      simp [owners, queueSum, coverCount, freeAreaInit]
    · intro k _ i _
      simp [freeAreaInit]
  total := by
    simp [freeTotal, queueSum, freeAreaInit]
  small := by
    simp only [freeAreaInit]
    omega

/-- `free_pages` on a block that is held never loses its way in the queues, and keeps the
invariant without the block if that was the last reference to it. -/
theorem freePages_spec (h : SysInv s) {b : ℕ × ℕ} (hb : b ∈ s.held) :
    ∃ m, freePages s.mem b.1 b.2 = some m ∧
      SysInv { mem := m, held := if s.mem.releases b.1 then s.held.erase b else s.held } := by
  have hpage := h.inv.held_within hb
  have hpow := Nat.two_pow_pos b.2
  have hlt : b.1 < s.mem.maxMapnr := by omega
  have hsmall := h.small
  have hperm := h.inv.perm (perm_cons_erase hb)
  unfold freePages Mem.releases
  rw [if_pos hlt, decide_eq_true hlt, Bool.true_and]
  cases hres : s.mem.reserved b.1 with
  | true => exact ⟨_, rfl, h.inv, h.total, h.small⟩
  | false =>
    simp only [Bool.false_eq_true, if_false, update_self, Bool.not_false, Bool.true_and, decide_eq_true_eq]
    split_ifs with hcount
    · have hinv : Inv { s.mem with count := update s.mem.count b.1 (s.mem.count b.1 - 1) }
          ((b.1, b.2) :: s.held.erase b) := hperm.congr rfl (fun _ _ => rfl) rfl rfl
      obtain ⟨q, a, hrun, hinv', htot⟩ := freePagesOk_spec (by omega) hinv
      refine ⟨_, hrun, hinv'.congr rfl (fun _ _ => rfl) rfl rfl, ?_, h.small⟩
      have hfree : freeTotal { s.mem with queue := q, map := a } = freeTotal s.mem + 2 ^ b.2 := htot
      calc s.mem.nrFreePages + ofNat 32 (2 ^ b.2)
          = ofNat 32 (freeTotal s.mem + 2 ^ b.2) := by rw [h.total, BitVec.ofNat_add]
        _ = ofNat 32 (freeTotal { s.mem with queue := q, map := a }) := by rw [hfree]
    · exact ⟨_, rfl, h.inv.congr rfl (fun _ _ => rfl) rfl rfl, h.total, h.small⟩

theorem step_sysInv (s : Sys) (e : Event) (t : Sys) (h : SysInv s) (hs : step s e = some t) : SysInv t := by
  cases e with
  | claim p =>
    obtain ⟨hp, rfl⟩ := of_guard hs
    exact ⟨h.inv.claim hp.1 hp.2, h.total, h.small⟩
  | get gfpDma order =>
    simp only [step, Option.map_eq_some_iff] at hs
    obtain ⟨⟨i, m⟩, hget, rfl⟩ := hs
    unfold getFreePages at hget
    split_ifs at hget with ho
    obtain ⟨hinv, htot, hnr, hmax⟩ := rmqueue_spec h.inv (le_refl _) (by omega) hget
    refine ⟨hinv, ?_, hmax.trans_le h.small⟩
    rw [hnr, h.total, ← htot, BitVec.ofNat_add, BitVec.add_sub_cancel]
  | share b =>
    obtain ⟨hb, rfl⟩ := of_guard hs
    exact ⟨h.inv.congr rfl (fun _ _ => rfl) rfl rfl, h.total, h.small⟩
  | free b =>
    simp only [step] at hs
    have hb : b ∈ s.held := by
      by_contra hno
      rw [if_neg hno] at hs
      cases hs
    obtain ⟨m, hm, hinv⟩ := freePages_spec h hb
    rw [if_pos hb, hm] at hs
    cases hs
    exact hinv

/-! ### Reachable states -/

def freeBlocks (m : Mem) : List (ℕ × ℕ) := queueBlocks nrMemLists m.queue

/-- What the allocator promises in a state, with the blocks `held` handed out. -/
structure Sound (s : Sys) : Prop where
  /-- free blocks are aligned to their size and inside `mem_map` -/
  aligned : ∀ b ∈ freeBlocks s.mem, 2 ^ b.2 ∣ b.1 ∧ b.1 + 2 ^ b.2 ≤ s.mem.maxMapnr
  /-- no two blocks, free or handed out, share a page -/
  apart : (freeBlocks s.mem ++ s.held).Pairwise Apart
  /-- every page that is not reserved is in exactly one block -/
  owned : ∀ p < s.mem.maxMapnr, s.mem.reserved p = false →
    ∃ b ∈ freeBlocks s.mem ++ s.held, 0 < covers b p ∧
      ∀ c ∈ freeBlocks s.mem ++ s.held, 0 < covers c p → c = b
  /-- `nr_free_pages` is the number of pages in free blocks -/
  count : s.mem.nrFreePages.toInt = (((freeBlocks s.mem).map fun b => 2 ^ b.2).sum : ℕ)
  /-- the bit of a pair of buddies says that exactly one of them is free, and never both are -/
  bits : ∀ k < topOrder, ∀ i, 2 ^ k ∣ i →
    (s.mem.map k (i / 2 ^ (k + 1)) = true ↔ (i ∈ s.mem.queue k ∧ buddy k i ∉ s.mem.queue k) ∨
      (buddy k i ∈ s.mem.queue k ∧ i ∉ s.mem.queue k)) ∧
      ¬ (i ∈ s.mem.queue k ∧ buddy k i ∈ s.mem.queue k)
  /-- giving a block back never takes a page off a queue it is not on, and comes to an end -/
  frees : ∀ b ∈ s.held, (freePages s.mem b.1 b.2).isSome = true

theorem SysInv.coverCount_blocks (h : SysInv s) (p : ℕ) : coverCount (freeBlocks s.mem ++ s.held) p =
      if p < s.mem.maxMapnr ∧ s.mem.reserved p = false then 1 else 0 := by
  rw [← h.inv.owners_eq p, owners, ← sum_queueBlocks]
  simp [coverCount, freeBlocks]

theorem SysInv.sound (h : SysInv s) : Sound s where
  aligned := by
    intro b hb
    obtain ⟨hk, hi⟩ := mem_queueBlocks.1 hb
    exact ⟨h.inv.aligned b.2 hk b.1 hi, h.inv.free_within hk hi⟩
  apart := by
    refine pairwise_apart fun p => ?_
    rw [h.coverCount_blocks p]
    split_ifs <;> omega
  owned := by
    intro p hp hr
    refine existsUnique_of_coverCount ?_
    rw [h.coverCount_blocks p, if_pos ⟨hp, hr⟩]
  count := by
    have hsum : ((freeBlocks s.mem).map fun b => 2 ^ b.2).sum = freeTotal s.mem := sum_queueBlocks ..
    have hle : freeTotal s.mem ≤ s.mem.maxMapnr := by
      rw [← hsum, sum_sizes (n := s.mem.maxMapnr)]
      · calc ∑ p ∈ Finset.range s.mem.maxMapnr, coverCount (freeBlocks s.mem) p
            ≤ ∑ p ∈ Finset.range s.mem.maxMapnr, 1 := by
              refine Finset.sum_le_sum fun p _ => ?_
              refine le_trans ?_ (h.inv.owners_le_one p)
              rw [owners, coverCount, freeBlocks, sum_queueBlocks]
              exact Nat.le_add_right ..
          _ = s.mem.maxMapnr := by simp
      · intro b hb
        obtain ⟨hk, hi⟩ := mem_queueBlocks.1 hb
        exact h.inv.free_within hk hi
    have hsmall := h.small
    rw [hsum, h.total, BitVec.toInt_eq_toNat_of_lt] <;> rw [toNat_ofNat] <;>
      rw [Nat.mod_eq_of_lt (by omega)]
    omega
  bits := by
    intro k hk i hi
    obtain ⟨hnot, hbit⟩ := h.inv.bits k hk i hi
    refine ⟨hbit.trans ?_, hnot⟩
    tauto
  frees := by
    intro b hb
    obtain ⟨m, hm, -⟩ := freePages_spec h hb
    rw [hm]
    rfl

/-- **The buddy allocator is sound in every reachable state.** -/
theorem buddy_sound (endMem : BitVec 32) (dma : ℕ → Bool) {s : Sys}
    (hr : Reaches step (freeAreaInit endMem dma) s) : Sound s :=
  (hr.invariant (freeAreaInit_sysInv endMem dma) fun s e t h _ hs => step_sysInv s e t h hs).sound

/-- What a run leaves: the blocks handed out, the queue of order 0 and the number of free pages. -/
def Sys.view (s : Sys) : List (ℕ × ℕ) × List ℕ × BitVec 32 :=
  (s.held, s.mem.queue 0, s.mem.nrFreePages)

/-- Two buddies are freed and merged, and the pair is split again for one page. -/
theorem buddy_sound_pair : ∃ s : Sys, s.view = ([(3, 0)], [2], 1) ∧ Sound s := by
  have hx : (exec step (fun _ _ => true) (freeAreaInit 0x10000 fun _ => true)
      [.claim 2, .claim 3, .free (2, 0), .free (3, 0), .get true 0]).map Sys.view =
      some ([(3, 0)], [2], 1) := by decide
  obtain ⟨s, hs, hv⟩ := Option.map_eq_some_iff.mp hx
  exact ⟨s, hv, buddy_sound _ _ (Reaches.of_exec _ _ _ hs)⟩

/-! ### Fragmentation -/

/-- The page is in a free block. -/
def Mem.Free (m : Mem) (p : ℕ) : Prop := ∃ b ∈ freeBlocks m, 0 < covers b p

theorem eq_of_dvd_of_le {n i j : ℕ} (hi : n ∣ i) (hj : n ∣ j) (hle : j ≤ i) (hlt : i < j + n) : i = j := by
  have h0 := Nat.eq_zero_of_dvd_of_lt (Nat.dvd_sub hi hj) (by omega)
  omega

/-- An aligned run of free pages lies in one free block: its halves would be free buddies. -/
theorem Inv.free_block {m : Mem} {held : List (ℕ × ℕ)} {i k : ℕ} (h : Inv m held) (hk : k < nrMemLists)
    (hi : 2 ^ k ∣ i) (hfree : ∀ p, 0 < covers (i, k) p → m.Free p) :
    ∃ l j, k ≤ l ∧ l < nrMemLists ∧ j ∈ m.queue l ∧ 0 < covers (j, l) i := by
  induction k generalizing i with
  | zero =>
    obtain ⟨b, hb, hbi⟩ := hfree i (by simp [covers_first (i, 0)])
    obtain ⟨hl, hj⟩ := mem_queueBlocks.1 hb
    exact ⟨b.2, b.1, Nat.zero_le _, hl, hj, hbi⟩
  | succ k ih =>
    have hik : 2 ^ k ∣ i := (pow_dvd_pow 2 (Nat.le_succ k)).trans hi
    simp only [covers_halves] at hfree
    obtain ⟨l, j, hl, hln, hj, hji⟩ := ih (by omega) hik fun p hp => hfree p (by omega)
    obtain ⟨l', j', hl', hln', hj', hji'⟩ := ih (by omega) (hik.add dvd_rfl) fun p hp => hfree p (by omega)
    have hd := h.aligned l hln j hj
    have hd' := h.aligned l' hln' j' hj'
    rw [covers_pos_iff] at hji hji'
    obtain hlt | rfl := hl.lt_or_eq
    · exact ⟨l, j, hlt, hln, hj, covers_pos_iff.mpr hji⟩
    obtain rfl := eq_of_dvd_of_le hik hd hji.1 hji.2
    obtain hlt' | rfl := hl'.lt_or_eq
    · refine ⟨l', j', hlt', hln', hj', covers_pos_iff.mpr ⟨?_, (Nat.le_add_right ..).trans_lt hji'.2⟩⟩
      by_contra hgt
      have hpos := Nat.two_pow_pos k
      have heq := eq_of_dvd_of_le ((pow_dvd_pow 2 hlt').trans hd') hi (by omega) (by
        rw [pow_succ]
        dsimp only at hji'
        omega)
      omega
    · obtain heq := eq_of_dvd_of_le (hik.add dvd_rfl) hd' hji'.1 hji'.2
      refine absurd ⟨hj, ?_⟩ (h.bits k (Nat.lt_sub_of_add_lt hk) i hik).1
      rw [buddy_of_dvd_succ hi, heq]
      exact hj'

theorem rmqueue_eq_none_iff {m : Mem} {order : ℕ} (n : ℕ) : ∀ newOrder, rmqueue m false order n newOrder = none ↔
    ∀ l, newOrder ≤ l → l < newOrder + n → m.queue l = [] := by
  induction n with
  | zero =>
    intro newOrder
    exact iff_of_true rfl fun l h1 h2 => by omega
  | succ n ih =>
    intro newOrder
    unfold rmqueue
    cases hq : m.queue newOrder with
    | nil =>
      simp only [find?_nil, ih]
      refine ⟨fun h l h1 h2 => ?_, fun h l h1 h2 => h l (by omega) (by omega)⟩
      obtain rfl | hlt := h1.eq_or_lt
      · exact hq
      · exact h l hlt (by omega)
    | cons j q =>
      simp only [find?_cons, Bool.not_false, Bool.true_or]
      refine iff_of_false (Option.some_ne_none _) fun h => ?_
      rw [h newOrder le_rfl (by omega)] at hq
      cases hq

/-- **No needless fragmentation.**  In every reachable state an allocation fails only if every aligned run of that many
pages has a page that is not free. -/
theorem getFreePages_eq_none_iff (endMem : BitVec 32) (dma : ℕ → Bool) {s : Sys}
    (hr : Reaches step (freeAreaInit endMem dma) s) {order : ℕ} (ho : order < nrMemLists) :
    getFreePages s.mem false order = none ↔
      ∀ i, 2 ^ order ∣ i → ∃ p, i ≤ p ∧ p < i + 2 ^ order ∧ ¬ s.mem.Free p := by
  have h : SysInv s := hr.invariant (freeAreaInit_sysInv endMem dma) fun s e t h _ hs => step_sysInv s e t h hs
  rw [getFreePages, if_neg (not_le.mpr ho), rmqueue_eq_none_iff]
  constructor
  · intro hempty i hi
    by_contra hall
    push Not at hall
    obtain ⟨l, j, hl, hln, hj, -⟩ := h.inv.free_block ho hi fun p hp => hall p (covers_pos_iff.mp hp).1 (covers_pos_iff.mp hp).2
    rw [hempty l hl (by omega)] at hj
    cases hj
  · intro hsome l hl hln
    refine eq_nil_iff_forall_not_mem.mpr fun j hj => ?_
    obtain ⟨p, hp, hlt, hno⟩ := hsome j ((pow_dvd_pow 2 hl).trans (h.inv.aligned l (by omega) j hj))
    have hle : 2 ^ order ≤ 2 ^ l := Nat.pow_le_pow_right (by decide) hl
    exact hno ⟨(j, l), mem_queueBlocks.2 ⟨by omega, hj⟩, covers_pos_iff.mpr ⟨hp, by dsimp only; omega⟩⟩

/-- Two free buddies of one page each are a free block of two. -/
theorem getFreePages_eq_none_iff_pair : ∃ s : Sys, getFreePages s.mem false 1 ≠ none ∧
    ∃ i, 2 ∣ i ∧ ∀ p, i ≤ p → p < i + 2 → s.mem.Free p := by
  have hx : (exec step (fun _ _ => true) (freeAreaInit 0x10000 fun _ => true)
      [.claim 2, .claim 3, .free (2, 0), .free (3, 0)]).map (fun s => (getFreePages s.mem false 1).isSome) =
      some true := by decide
  obtain ⟨s, hs, hv⟩ := Option.map_eq_some_iff.mp hx
  have hne : getFreePages s.mem false 1 ≠ none := Option.isSome_iff_ne_none.mp hv
  refine ⟨s, hne, ?_⟩
  by_contra hno
  push Not at hno
  exact hne ((getFreePages_eq_none_iff _ _ (Reaches.of_exec _ _ _ hs) (by decide)).mpr hno)

end I370Linux.Buddy
