import I370Linux.TimerWheel

/-! # The timer wheel runs every timer at its tick

Each vector but the first has a position `c`, the number of slots it has cascaded so far, of which
its `index` is the residue.  A slot of width `2 ^ b` is cascaded when `timer_jiffies` gets to its
start, so `c * 2 ^ b` is at `now`, or ahead of it by at most one slot (`ClockOk`).  A timer in the
vector is due in one of the 64 slots from `c` on, and its slot is the one it is due in (`Placed`).
The calls on timers keep this (`internalAddTimer_inv`), so does a cascade (`cascadeTimers_inv`), and
with it the wheel is simulated by the abstract timers (`step_simulates`). -/

namespace I370Linux.TimerWheel

open Runs Function
open BitVec (ofNat ofNat_add toNat_ofNat)

/-- The number of low bits of `expires` that the level does not look at. -/
def bits (l : ℕ) : ℕ := if l = 0 then 0 else 6 * l + 2

def Upper (l : ℕ) : Prop := 1 ≤ l ∧ l ≤ 4

variable {d l now t : ℕ} {c : ℕ → ℕ} {e : BitVec 32} {w : Wheel} {a : Timers} {due : ℕ → Option ℕ}

theorem Upper.cases (h : Upper l) : l = 1 ∨ l = 2 ∨ l = 3 ∨ l = 4 := by
  unfold Upper at h
  omega

/-- Where a timer due at `d` may be: in the slot of `d`, not before the position of the vector and
not a whole turn behind it.  Upper levels go by `expires` again later, so it has to be `d`. -/
def Placed (now : ℕ) (c : ℕ → ℕ) (e : BitVec 32) (d : ℕ) (s : ℕ × ℕ) : Prop :=
  (s.1 = 0 ∧ s.2 = d % 256 ∧ now ≤ d ∧ d < now + 256) ∨
    (Upper s.1 ∧ s.2 = d / 2 ^ bits s.1 % 64 ∧ c s.1 * 2 ^ bits s.1 ≤ d ∧
      d < (c s.1 + 64) * 2 ^ bits s.1 ∧ e = ofNat 32 d)

/-- The positions of the upper levels are at `now` or less than a slot ahead of it, or exactly one
slot if they have just been cascaded. -/
def ClockOk (now : ℕ) (c : ℕ → ℕ) : Prop :=
  ∀ l, Upper l → now ≤ c l * 2 ^ bits l ∧ c l * 2 ^ bits l ≤ now + 2 ^ bits l

/-- The invariant of the wheel, with the timer `x` in no chain whatever its links say. -/
structure InvBut (x : Option ℕ) (w : Wheel) (now : ℕ) (c : ℕ → ℕ) (due : ℕ → Option ℕ) : Prop where
  nodup : ∀ s : ℕ × ℕ, (w.vec s.1 s.2).Nodup
  mem_iff : ∀ (t : ℕ) (s : ℕ × ℕ), t ∈ w.vec s.1 s.2 ↔ w.place t = some s ∧ x ≠ some t
  armed : ∀ t, x ≠ some t → ((w.place t).isSome = true ↔ (due t).isSome = true)
  placed : ∀ t s d, x ≠ some t → w.place t = some s → due t = some d →
    Placed now c (w.expires t) d s
  jiffies : w.timerJiffies = ofNat 32 now
  index_zero : w.index 0 = now % 256
  index_upper : ∀ l, Upper l → w.index l = c l % 64
  clock : ClockOk now c

abbrev Inv (w : Wheel) (now : ℕ) (c : ℕ → ℕ) (due : ℕ → Option ℕ) : Prop := InvBut none w now c due

/-! ### The slot of a timer -/

theorem toNat_and_63 (x : BitVec 32) (k : ℕ) : (x >>> k &&& 63).toNat = x.toNat / 2 ^ k % 64 := by
  rw [BitVec.toNat_and, BitVec.toNat_ushiftRight, Nat.shiftRight_eq_div_pow]
  exact Nat.and_two_pow_sub_one_eq_mod _ 6

theorem toNat_and_255 (x : BitVec 32) : (x &&& 255).toNat = x.toNat % 256 := by
  exact Nat.and_two_pow_sub_one_eq_mod _ 8

theorem expires_eq (now : ℕ) (e : BitVec 32) :
    e = ofNat 32 (now + (e - ofNat 32 now).toNat) := by
  rw [ofNat_add, BitVec.ofNat_toNat, BitVec.setWidth_eq, BitVec.add_comm, BitVec.sub_add_cancel]

theorem shiftLeft_one_toNat {k : ℕ} (hk : k < 32) : ((1 : BitVec 32) <<< k).toNat = 2 ^ k := by
  rw [BitVec.toNat_shiftLeft, Nat.shiftLeft_eq]
  have hlt : 1 * 2 ^ k < 2 ^ 32 := by
    rw [Nat.one_mul]
    exact Nat.pow_lt_pow_right (by omega) hk
  exact (Nat.mod_eq_of_lt hlt).trans (Nat.one_mul _)

theorem mod_wrap_div_mod (hl : Upper l) (n : ℕ) : n % 2 ^ 32 / 2 ^ bits l % 64 = n / 2 ^ bits l % 64 := by
  obtain rfl | rfl | rfl | rfl := hl.cases
  · show n % 2 ^ 32 / 2 ^ 8 % 64 = n / 2 ^ 8 % 64
    omega
  · show n % 2 ^ 32 / 2 ^ 14 % 64 = n / 2 ^ 14 % 64
    omega
  · show n % 2 ^ 32 / 2 ^ 20 % 64 = n / 2 ^ 20 % 64
    omega
  · show n % 2 ^ 32 / 2 ^ 26 % 64 = n / 2 ^ 26 % 64
    omega

/-- The slot of an upper level for a timer that is ahead by one of its slots at least, and by less
than a turn. -/
theorem placed_upper {a : ℕ} (hl : Upper l)
    (hc : ClockOk now c) (he : e = ofNat 32 (now + a)) (hlow : 2 ^ bits l ≤ a)
    (hhigh : a < 64 * 2 ^ bits l) : Placed now c e (now + a) (l, (e >>> bits l &&& 63).toNat) := by
  obtain ⟨hc1, hc2⟩ := hc l hl
  refine .inr ⟨hl, ?_, ?_, ?_, he⟩
  · rw [toNat_and_63, he, toNat_ofNat, mod_wrap_div_mod hl]
  · dsimp only
    omega
  · dsimp only
    rw [Nat.add_mul]
    omega

/-- What `internal_add_timer` picks: the first vector if `expires` is less than 256 ahead, the
vector that it is one slot ahead but not a turn ahead in, or the current slot of the first
vector. -/
theorem slotFor_cases (e tj : BitVec 32) (i : ℕ) :
    ((e - tj).toNat < 256 ∧ slotFor e tj i = (0, e.toNat % 256)) ∨
      (∃ l, Upper l ∧ 2 ^ bits l ≤ (e - tj).toNat ∧ (e - tj).toNat < 64 * 2 ^ bits l ∧
        (e - tj).toNat < 2 ^ 31 ∧ slotFor e tj i = (l, (e >>> bits l &&& 63).toNat)) ∨
      (2 ^ 31 ≤ (e - tj).toNat ∧ slotFor e tj i = (0, i)) := by
  unfold slotFor
  generalize e - tj = idx
  have hneg : idx.toInt < 0 ↔ 2 ^ 31 ≤ idx.toNat := by
    rw [BitVec.toInt_neg_iff]
    omega
  have h256 : (256 : BitVec 32).toNat = 256 := rfl
  simp only [BitVec.lt_def, shiftLeft_one_toNat (k := 14) (by omega),
    shiftLeft_one_toNat (k := 20) (by omega), shiftLeft_one_toNat (k := 26) (by omega), h256, hneg]
  split_ifs with h1 h2 h3 h4 h5
  · exact .inl ⟨h1, by rw [toNat_and_255]⟩
  · exact .inr (.inl ⟨1, ⟨by omega, by omega⟩, not_lt.1 h1, h2, by omega, rfl⟩)
  · exact .inr (.inl ⟨2, ⟨by omega, by omega⟩, not_lt.1 h2, h3, by omega, rfl⟩)
  · exact .inr (.inl ⟨3, ⟨by omega, by omega⟩, not_lt.1 h3, h4, by omega, rfl⟩)
  · exact .inr (.inr ⟨h5, rfl⟩)
  · exact .inr (.inl ⟨4, ⟨by omega, by omega⟩, not_lt.1 h4, idx.isLt, not_le.1 h5, rfl⟩)

theorem slotFor_placed (hc : ClockOk now c) (e : BitVec 32) :
    Placed now c e (deadline now e) (slotFor e (ofNat 32 now) (now % 256)) := by
  have he := expires_eq now e
  unfold deadline
  rcases slotFor_cases e (ofNat 32 now) (now % 256) with
    ⟨ha, hs⟩ | ⟨l, hl, hlow, hhigh, ha, hs⟩ | ⟨ha, hs⟩
  · rw [hs, if_pos (by omega)]
    refine .inl ⟨rfl, ?_, by omega, by omega⟩
    have hnat : e.toNat = (now + (e - ofNat 32 now).toNat) % 2 ^ 32 :=
      (congrArg BitVec.toNat he).trans (toNat_ofNat ..)
    omega
  · rw [hs, if_pos ha]
    exact placed_upper hl hc he hlow hhigh
  · rw [hs, if_neg (by omega)]
    exact .inl ⟨rfl, rfl, by omega, by omega⟩

theorem slotFor_level_ne {tj : BitVec 32} {i n : ℕ} (hn : Upper n)
    (h : (e - tj).toNat < 2 ^ bits n) : (slotFor e tj i).1 ≠ n := by
  intro he
  unfold Upper at hn
  obtain ⟨-, hs⟩ | ⟨l, -, hlow, -, -, hs⟩ | ⟨-, hs⟩ := slotFor_cases e tj i <;> rw [hs] at he
  · omega
  · dsimp only at he
    subst he
    omega
  · omega

/-! ### Linking and unlinking -/

section Links

theorem setSlot_vec (w : Wheel) (s : ℕ × ℕ) (l : List ℕ) (s' : ℕ × ℕ) :
    (w.setSlot s l).vec s'.1 s'.2 = if s' = s then l else w.vec s'.1 s'.2 := by
  obtain ⟨n, i⟩ := s
  obtain ⟨n', i'⟩ := s'
  simp only [Wheel.setSlot, update_apply, Prod.mk.injEq]
  split_ifs with h1 h2 h2
  · rw [update_apply, if_pos h2.2]
  · rw [update_apply, if_neg fun h => h2 ⟨h1, h⟩, h1]
  · exact absurd h2.1 h1
  · rfl

theorem setSlot_ext {w v : Wheel} {s : ℕ × ℕ} {l : List ℕ} (hv : { w with vec := v.vec } = v)
    (h : ∀ s' : ℕ × ℕ, (if s' = s then l else w.vec s'.1 s'.2) = v.vec s'.1 s'.2) : w.setSlot s l = v := by
  rw [← hv, Wheel.setSlot, Wheel.mk.injEq]
  refine ⟨funext fun n => funext fun i => ?_, rfl, rfl, rfl, rfl, rfl, rfl⟩
  exact (setSlot_vec w s l (n, i)).trans (h (n, i))

theorem setSlot_setSlot (w : Wheel) (s : ℕ × ℕ) (a b : List ℕ) :
    (w.setSlot s a).setSlot s b = w.setSlot s b := by
  refine setSlot_ext rfl fun s' => ?_
  rw [setSlot_vec, setSlot_vec]
  split_ifs <;> rfl

theorem setSlot_self (w : Wheel) (s : ℕ × ℕ) : w.setSlot s (w.vec s.1 s.2) = w := by
  refine setSlot_ext rfl fun s' => ?_
  split_ifs with h
  · rw [h]
  · rfl

theorem setSlot_comm (w : Wheel) {s s' : ℕ × ℕ} (hne : s ≠ s') (a b : List ℕ) :
    (w.setSlot s a).setSlot s' b = (w.setSlot s' b).setSlot s a := by
  refine setSlot_ext rfl fun t => ?_
  rw [setSlot_vec, setSlot_vec, setSlot_vec]
  split_ifs with h1 h2
  · exact absurd (h2.symm.trans h1) hne
  all_goals rfl

section Relink

variable {x : Option (ℕ × ℕ)} {y : Option ℕ}

theorem InvBut.armed_update (h : InvBut (some t) w now c due) (hxy : x.isSome = true ↔ y.isSome = true)
    (t' : ℕ) : (update w.place t x t').isSome = true ↔ (update due t y t').isSome = true := by
  obtain rfl | hne := eq_or_ne t' t
  · rw [update_self, update_self, hxy]
  · rw [update_of_ne hne, update_of_ne hne]
    exact h.armed t' fun he => hne (Option.some.inj he).symm

theorem InvBut.placed_update (h : InvBut (some t) w now c due)
    (hp : ∀ s d, x = some s → y = some d → Placed now c (w.expires t) d s) {t' : ℕ} {s : ℕ × ℕ} {d : ℕ}
    (hplace : update w.place t x t' = some s) (hdue : update due t y t' = some d) :
    Placed now c (w.expires t') d s := by
  obtain rfl | hne := eq_or_ne t' t
  · rw [update_self] at hplace hdue
    exact hp s d hplace hdue
  · rw [update_of_ne hne] at hplace hdue
    exact h.placed t' s d (fun he => hne (Option.some.inj he).symm) hplace hdue

end Relink

theorem InvBut.insert (h : InvBut (some t) w now c due) {s : ℕ × ℕ} {d : ℕ}
    (hp : Placed now c (w.expires t) d s) :
    Inv (insertTimer w t s) now c (update due t (some d)) where
  nodup := by
    intro s'
    show ((w.setSlot s (t :: w.vec s.1 s.2)).vec s'.1 s'.2).Nodup
    rw [setSlot_vec]
    split_ifs with hs
    · refine List.nodup_cons.2 ⟨fun hmem => ?_, h.nodup s⟩
      exact ((h.mem_iff t s).1 hmem).2 rfl
    · exact h.nodup s'
  mem_iff := by
    intro t' s'
    show t' ∈ (w.setSlot s (t :: w.vec s.1 s.2)).vec s'.1 s'.2 ↔
      update w.place t (some s) t' = some s' ∧ none ≠ some t'
    have hnone : (none : Option ℕ) ≠ some t' := by simp
    rw [setSlot_vec, and_iff_left hnone]
    obtain rfl | hne := eq_or_ne t' t
    · split_ifs with hs
      · simp [hs]
      · rw [h.mem_iff]
        simp [Ne.symm hs]
    · rw [update_of_ne hne]
      have hother := h.mem_iff t' s'
      rw [and_iff_left (fun he => hne (Option.some.inj he).symm)] at hother
      rw [← hother]
      split_ifs with hs
      · simp [hne, hs]
      · rfl
  armed := fun t' _ => h.armed_update Iff.rfl t'
  placed := by
    intro t' s' d' _ hplace hdue
    refine h.placed_update (fun s' d' hs hd => ?_) hplace hdue
    cases hs
    cases hd
    exact hp
  __ := h

theorem internalAddTimer_inv (h : InvBut (some t) w now c due) :
    Inv (internalAddTimer w t) now c (update due t (some (deadline now (w.expires t)))) := by
  refine h.insert ?_
  rw [h.jiffies, h.index_zero]
  exact slotFor_placed h.clock (w.expires t)

theorem Inv.removed (h : Inv w now c due) {s : ℕ × ℕ} {l : List ℕ} (hplace : w.place t = some s)
    (hl : l.Nodup) (hmem : ∀ t', t' ∈ l ↔ t' ∈ w.vec s.1 s.2 ∧ t' ≠ t) :
    InvBut (some t) (w.setSlot s l) now c due where
  nodup := by
    intro s'
    rw [setSlot_vec]
    split_ifs with hs
    · exact hl
    · exact h.nodup s'
  mem_iff := by
    intro t' s'
    have hold := h.mem_iff t' s'
    rw [and_iff_left (by simp)] at hold
    show t' ∈ (w.setSlot s l).vec s'.1 s'.2 ↔ w.place t' = some s' ∧ some t ≠ some t'
    rw [setSlot_vec, ← hold]
    have hne : (some t ≠ some t') ↔ t' ≠ t := by
      rw [ne_eq, Option.some.injEq, eq_comm]
    split_ifs with hs
    · rw [hmem, hs, hne]
    · refine ⟨fun h' => ⟨h', hne.2 ?_⟩, And.left⟩
      rintro rfl
      rw [hold, hplace, Option.some.injEq] at h'
      exact hs h'.symm
  armed := fun t' _ => h.armed t' (by simp)
  placed := fun t' s' d _ => h.placed t' s' d (by simp)
  __ := h

theorem Inv.of_not_pending (h : Inv w now c due) (hplace : w.place t = none) :
    InvBut (some t) w now c due where
  __ := h
  mem_iff := by
    intro t' s'
    rw [h.mem_iff, and_iff_left (by simp)]
    refine ⟨fun h' => ⟨h', ?_⟩, And.left⟩
    rintro ⟨⟩
    rw [hplace] at h'
    cases h'
  armed := fun t' _ => h.armed t' (by simp)
  placed := fun t' s' d _ => h.placed t' s' d (by simp)

theorem detachTimer_inv (h : Inv w now c due) (t : ℕ) : InvBut (some t) (detachTimer w t) now c due := by
  unfold detachTimer
  cases hplace : w.place t with
  | none => exact h.of_not_pending hplace
  | some s =>
    refine h.removed hplace ((h.nodup s).erase t) fun t' => ?_
    rw [(h.nodup s).mem_erase_iff, and_comm]

theorem InvBut.setExpires (h : InvBut (some t) w now c due) (e : BitVec 32) :
    InvBut (some t) (w.setExpires t e) now c due where
  __ := h
  placed := by
    intro t' s d hne hplace hdue
    have hne' : t' ≠ t := fun he => hne (by rw [he])
    show Placed now c (update w.expires t e t') d s
    rw [update_of_ne hne']
    exact h.placed t' s d hne hplace hdue

theorem InvBut.clearLinks (h : InvBut (some t) w now c due) :
    Inv (w.clearLinks t) now c (update due t none) where
  __ := h
  mem_iff := by
    intro t' s
    show t' ∈ w.vec s.1 s.2 ↔ update w.place t none t' = some s ∧ none ≠ some t'
    rw [h.mem_iff, and_iff_left (show (none : Option ℕ) ≠ some t' by simp)]
    obtain rfl | hne := eq_or_ne t' t
    · simp
    · rw [update_of_ne hne, and_iff_left fun he => hne (Option.some.inj he).symm]
  armed := fun t' _ => h.armed_update Iff.rfl t'
  placed := by
    intro t' s d _ hplace hdue
    exact h.placed_update (x := none) (fun _ _ hs => absurd hs nofun) hplace hdue

end Links

/-! ### Cascading -/

section Cascade

theorem pow_bits_pos (l : ℕ) : 0 < 2 ^ bits l := Nat.two_pow_pos _

variable {n : ℕ} {s : ℕ × ℕ}

/-- A timer in the slot that a vector is about to cascade is due within that slot. -/
theorem Placed.due_of_cascaded {e : BitVec 32} (hn : Upper n)
    (h : Placed now c e d (n, c n % 64)) (hnow : c n * 2 ^ bits n = now) :
    now ≤ d ∧ d < now + 2 ^ bits n ∧ e = ofNat 32 d := by
  obtain ⟨h0, -⟩ | ⟨-, hslot, hlow, hhigh, he⟩ := h
  · unfold Upper at hn
    omega
  dsimp only at hslot hlow hhigh
  have hpos := pow_bits_pos n
  have h2 : d / 2 ^ bits n < c n + 64 := (Nat.div_lt_iff_lt_mul hpos).2 hhigh
  have h3 : d / 2 ^ bits n < c n + 1 := by omega
  have h4 := (Nat.div_lt_iff_lt_mul hpos).1 h3
  rw [Nat.add_mul, Nat.one_mul] at h4
  exact ⟨by omega, by omega, he⟩

theorem deadline_of_ahead (hle : now ≤ d) (hlt : d < now + 2 ^ 31) :
    deadline now (ofNat 32 d) = d ∧ (ofNat 32 d - ofNat 32 now).toNat = d - now := by
  have hsub : (ofNat 32 d - ofNat 32 now).toNat = d - now := by
    obtain ⟨k, rfl⟩ := Nat.exists_eq_add_of_le hle
    rw [ofNat_add, BitVec.add_comm, BitVec.add_sub_cancel, toNat_ofNat]
    omega
  refine ⟨?_, hsub⟩
  unfold deadline
  rw [hsub, if_pos (by omega)]
  omega

theorem internalAddTimer_setSlot {t : ℕ} {l : List ℕ}
    (h : slotFor (w.expires t) w.timerJiffies (w.index 0) ≠ s) :
    internalAddTimer (w.setSlot s l) t = (internalAddTimer w t).setSlot s l := by
  change insertTimer (w.setSlot s l) t (slotFor (w.expires t) w.timerJiffies (w.index 0)) = _
  unfold insertTimer
  rw [setSlot_vec, if_neg h, setSlot_comm w h.symm]
  rfl

theorem foldl_internalAddTimer_inv (hs : Upper s.1)
    (hbits : now + 2 ^ bits s.1 ≤ now + 2 ^ 26) (l : List ℕ) : ∀ w : Wheel,
    Inv (w.setSlot s l) now c due → (∀ t ∈ l, ∃ d, due t = some d ∧ now ≤ d ∧ d < now + 2 ^ bits s.1 ∧
      w.expires t = ofNat 32 d) →
    Inv ((l.foldl internalAddTimer w).setSlot s []) now c due := by
  induction l with
  | nil => exact fun w h _ => h
  | cons t l ih =>
    intro w h hl
    obtain ⟨d, hdue, hle, hlt, hexp⟩ := hl t (List.mem_cons_self ..)
    obtain ⟨hdead, hahead⟩ := deadline_of_ahead hle (by omega : d < now + 2 ^ 31)
    have hplace : (w.setSlot s (t :: l)).place t = some s := by
      refine ((h.mem_iff t s).1 ?_).1
      rw [setSlot_vec, if_pos rfl]
      exact List.mem_cons_self ..
    have hnodup : (t :: l).Nodup := by
      have := h.nodup s
      rwa [setSlot_vec, if_pos rfl] at this
    have hout := h.removed (l := l) hplace (List.nodup_cons.1 hnodup).2 (by
      intro t'
      rw [setSlot_vec, if_pos rfl]
      constructor
      · exact fun hm => ⟨List.mem_cons_of_mem _ hm, fun he => (List.nodup_cons.1 hnodup).1 (he ▸ hm)⟩
      · rintro ⟨hm, hne⟩
        exact (List.mem_cons.1 hm).resolve_left hne)
    rw [setSlot_setSlot] at hout
    have hadd := internalAddTimer_inv hout
    have hsame : update due t (some (deadline now ((w.setSlot s l).expires t))) = due := by
      show update due t (some (deadline now (w.expires t))) = due
      rw [hexp, hdead, ← hdue, update_eq_self]
    have htarget : slotFor (w.expires t) w.timerJiffies (w.index 0) ≠ s := by
      intro he
      refine slotFor_level_ne hs (i := w.index 0) ?_ (congrArg Prod.fst he)
      rw [show w.timerJiffies = ofNat 32 now from h.jiffies, hexp, hahead]
      omega
    rw [hsame, internalAddTimer_setSlot htarget] at hadd
    exact ih _ hadd fun t' ht' => hl t' (List.mem_cons_of_mem _ ht')

theorem ClockOk.advance (h : ClockOk now c) (hnow : c n * 2 ^ bits n = now) :
    ClockOk now (update c n (c n + 1)) := by
  intro l hl
  obtain rfl | hne := eq_or_ne l n
  · rw [update_self, Nat.add_mul, Nat.one_mul, hnow]
    exact ⟨Nat.le_add_right .., le_refl _⟩
  · rw [update_of_ne hne]
    exact h l hl

theorem cascadeTimers_inv (hn : Upper n) (h : Inv w now c due) (hnow : c n * 2 ^ bits n = now) :
    Inv (cascadeTimers w n) now (update c n (c n + 1)) due := by
  have hidx := h.index_upper n hn
  have hbits : 2 ^ bits n ≤ 2 ^ 26 := by
    refine Nat.pow_le_pow_right (by omega) ?_
    rcases hn.cases with rfl | rfl | rfl | rfl <;> decide
  have hmoved : Inv (((w.vec n (w.index n)).foldl internalAddTimer w).setSlot (n, w.index n) []) now
      c due := by
    refine foldl_internalAddTimer_inv (s := (n, w.index n)) hn (by dsimp only; omega) _ w ?_ ?_
    · rw [setSlot_self w (n, w.index n)]
      exact h
    · intro t ht
      have hplace := ((h.mem_iff t (n, w.index n)).1 ht).1
      have harmed := (h.armed t (by simp)).1 (by rw [hplace]; rfl)
      obtain ⟨d, hd⟩ := Option.isSome_iff_exists.1 harmed
      have hp := h.placed t _ d (by simp) hplace hd
      rw [hidx] at hp
      obtain ⟨h1, h2, h3⟩ := hp.due_of_cascaded hn hnow
      exact ⟨d, hd, h1, h2, h3⟩
  unfold cascadeTimers
  generalize (w.vec n (w.index n)).foldl internalAddTimer w = w' at hmoved ⊢
  have hidx' : w'.index n = c n % 64 := hmoved.index_upper n hn
  refine { hmoved with placed := ?_, index_zero := ?_, index_upper := ?_, clock := hmoved.clock.advance hnow }
  · intro t s d hne hplace hdue
    have hp := hmoved.placed t s d hne hplace hdue
    have hmem := (hmoved.mem_iff t s).2 ⟨hplace, hne⟩
    refine hp.imp id ?_
    rintro ⟨hs, hslot, hlow, hhigh, he⟩
    refine ⟨hs, hslot, ?_⟩
    rcases eq_or_ne s.1 n with hsn | hsn
    · -- The slot at the old position is empty now, so the timer is due in a later one.
      have hother : s ≠ (n, w.index n) := by
        rintro rfl
        rw [setSlot_vec, if_pos rfl] at hmem
        cases hmem
      have hpos := pow_bits_pos n
      rw [hsn] at hslot hlow hhigh ⊢
      have h1 : c n ≤ d / 2 ^ bits n := (Nat.le_div_iff_mul_le hpos).2 hlow
      have h2 : d / 2 ^ bits n ≠ c n := by
        intro hq
        refine hother (Prod.ext hsn ?_)
        rw [hslot, hq, hidx]
      have h3 : (c n + 1) * 2 ^ bits n ≤ d := (Nat.le_div_iff_mul_le hpos).1 (by omega)
      rw [update_self]
      refine ⟨h3, ?_, he⟩
      rw [Nat.add_mul] at hhigh ⊢
      rw [Nat.add_mul]
      omega
    · rw [update_of_ne hsn]
      exact ⟨hlow, hhigh, he⟩
  · show update w'.index n _ 0 = _
    rw [update_of_ne (by unfold Upper at hn; omega)]
    exact hmoved.index_zero
  · intro l hl
    show update w'.index n _ l = _
    rcases eq_or_ne l n with rfl | hne
    · rw [update_self, update_self, hidx']
      omega
    · rw [update_of_ne hne, update_of_ne hne]
      exact hmoved.index_upper l hl

/-- The positions are ahead of `now`: everything due is in the first vector. -/
def Cascaded (now : ℕ) (c : ℕ → ℕ) : Prop := ∀ l, Upper l → now < c l * 2 ^ bits l

/-- The positions are less than a slot ahead of `now`: what starts at `now` is still to cascade. -/
def Waiting (now : ℕ) (c : ℕ → ℕ) : Prop := ∀ l, Upper l → c l * 2 ^ bits l < now + 2 ^ bits l

theorem bits_succ (hn : Upper n) : bits (n + 1) = bits n + 6 := by
  unfold Upper at hn
  unfold bits
  rw [if_neg (by omega), if_neg (by omega)]
  omega

theorem bits_mono {l : ℕ} (hn : Upper n) (h : n ≤ l) : bits n ≤ bits l := by
  unfold Upper at hn
  unfold bits
  rw [if_neg (by omega), if_neg (by omega)]
  omega

/-- A vector whose position is at `now` has made whole turns exactly if `now` is the start of a slot
of the next vector. -/
theorem whole_turns_iff (hn : Upper n) (hnow : c n * 2 ^ bits n = now) :
    c n % 64 = 0 ↔ 2 ^ bits (n + 1) ∣ now := by
  rw [bits_succ hn, pow_add, ← hnow, Nat.mul_comm (2 ^ bits n), Nat.mul_dvd_mul_iff_right (pow_bits_pos n)]
  exact Nat.dvd_iff_mod_eq_zero.symm

theorem cascadeFrom_inv (fuel : ℕ) : ∀ (n : ℕ) (w : Wheel) (c : ℕ → ℕ), Upper n → n + fuel = 5 →
    Inv w now c due → c n * 2 ^ bits n = now →
    (∀ l, Upper l → l < n → now < c l * 2 ^ bits l) →
    (∀ l, Upper l → n ≤ l → c l * 2 ^ bits l < now + 2 ^ bits l) →
    ∃ c', Inv (cascadeFrom w fuel n) now c' due ∧ Cascaded now c' := by
  induction fuel with
  | zero =>
    intro n w c hn hfuel
    unfold Upper at hn
    omega
  | succ fuel ih =>
    intro n w c hn hfuel h hnow hdone hwait
    have hcas := cascadeTimers_inv hn h hnow
    have hidx := hcas.index_upper n hn
    rw [update_self] at hidx
    have hself : now < update c n (c n + 1) n * 2 ^ bits n := by
      rw [update_self, Nat.add_mul, hnow]
      have := pow_bits_pos n
      omega
    have hother : ∀ l, l ≠ n → update c n (c n + 1) l = c l := fun l hl =>
      update_of_ne hl ..
    rw [cascadeFrom, hidx]
    split_ifs with hturn
    · -- The vector has made a turn: the next one is at `now` too.
      have hn' : Upper (n + 1) := ⟨by unfold Upper at hn; omega, by omega⟩
      have hdvd := (whole_turns_iff hn hnow).1 (by omega)
      have hclock := (h.clock (n + 1) hn').1
      have hlt := hwait (n + 1) hn' (by omega)
      have hnext : c (n + 1) * 2 ^ bits (n + 1) = now := by
        obtain ⟨k, hk⟩ := hdvd
        have h1 : k ≤ c (n + 1) := by
          refine Nat.le_of_mul_le_mul_left ?_ (pow_bits_pos (n + 1))
          rw [Nat.mul_comm _ (c (n + 1)), ← hk]
          exact hclock
        have h2 : c (n + 1) < k + 1 := by
          refine Nat.lt_of_mul_lt_mul_left (a := 2 ^ bits (n + 1)) ?_
          rw [Nat.mul_comm _ (c (n + 1)), Nat.mul_add, ← hk, Nat.mul_one]
          exact hlt
        rw [hk, Nat.mul_comm, show c (n + 1) = k by omega]
      refine ih (n + 1) _ _ hn' (by omega) hcas (by rw [hother _ (by omega)]; exact hnext) ?_ ?_
      · intro l hl hln
        obtain rfl | hlt' := Nat.eq_or_lt_of_le (Nat.lt_succ_iff.1 hln)
        · exact hself
        · rw [hother l hlt'.ne]
          exact hdone l hl hlt'
      · intro l hl hln
        rw [hother l (by omega)]
        exact hwait l hl (by omega)
    · refine ⟨_, hcas, fun l hl => ?_⟩
      obtain hln | rfl | hln := lt_trichotomy l n
      · rw [hother l hln.ne]
        exact hdone l hl hln
      · exact hself
      · rw [hother l hln.ne']
        refine lt_of_le_of_ne (h.clock l hl).1 fun heq => hturn ⟨?_, ?_⟩
        · have hdvd : 2 ^ bits (n + 1) ∣ now := by
            rw [heq]
            refine (pow_dvd_pow 2 (bits_mono ⟨by omega, ?_⟩ hln)).mul_left _
            unfold Upper at hl
            omega
          have := (whole_turns_iff hn hnow).2 hdvd
          omega
        · unfold Upper at hl
          omega

end Cascade

/-! ### The simulation -/

/-- The wheel holds the timers of the abstract model. -/
structure Simulates (w : Wheel) (a : Timers) : Prop where
  ticking : w.ticking = a.ticking
  inv : ∃ c, Inv w a.now c a.due ∧ if a.ticking then Cascaded a.now c else Waiting a.now c

theorem init_simulates : Simulates Wheel.init Timers.init where
  ticking := rfl
  inv := by
    refine ⟨fun _ => 0, ⟨?_, ?_, ?_, ?_, rfl, rfl, fun _ _ => rfl, ?_⟩, ?_⟩
    · simp [Wheel.init]
    · simp [Wheel.init]
    · simp [Wheel.init, Timers.init]
    · simp [Wheel.init]
    · intro l _
      simp [Timers.init]
    · intro l _
      have := pow_bits_pos l
      simp only [Timers.init]
      omega

theorem Simulates.of_inv {w' : Wheel} (h : Simulates w a)
    (ht : w'.ticking = w.ticking) (hi : ∀ c, Inv w a.now c a.due → Inv w' a.now c due) :
    Simulates w' { a with due := due } where
  ticking := ht.trans h.ticking
  inv := by
    obtain ⟨c, hinv, hpos⟩ := h.inv
    exact ⟨c, hi c hinv, hpos⟩

theorem detachTimer_ticking (w : Wheel) (t : ℕ) : (detachTimer w t).ticking = w.ticking := by
  unfold detachTimer
  cases w.place t <;> rfl

theorem detachTimer_setExpires (w : Wheel) (t : ℕ) (e : BitVec 32) :
    detachTimer (w.setExpires t e) t = (detachTimer w t).setExpires t e := by
  have hplace : (w.setExpires t e).place t = w.place t := rfl
  unfold detachTimer
  rw [hplace]
  cases w.place t <;> rfl

theorem setExpires_self (w : Wheel) (t : ℕ) (e : BitVec 32) : (w.setExpires t e).expires t = e :=
  update_self ..

theorem Inv.due_eq_none_iff (h : Inv w now c due) (t : ℕ) : w.place t = none ↔ due t = none := by
  have := h.armed t (by simp)
  rw [Option.isSome_iff_ne_none, Option.isSome_iff_ne_none] at this
  exact not_iff_not.1 this

theorem Inv.due_of_current (h : Inv w now c due) (ht : t ∈ w.vec 0 (w.index 0)) : due t = some now := by
  have hplace := ((h.mem_iff t (0, w.index 0)).1 ht).1
  obtain ⟨d, hd⟩ := Option.isSome_iff_exists.1 ((h.armed t (by simp)).1 (by rw [hplace]; rfl))
  obtain ⟨-, hslot, hle, hlt⟩ | ⟨hup, -⟩ := h.placed t _ d (by simp) hplace hd
  · rw [h.index_zero] at hslot
    rw [hd, show d = now by omega]
  · unfold Upper at hup
    omega

/-- Once a tick has cascaded, a timer that is due is in the current slot of the first vector; the
others are due later. -/
theorem Inv.current_of_due (h : Inv w now c due) (hc : Cascaded now c) (hd : due t = some d) :
    now ≤ d ∧ (d = now → t ∈ w.vec 0 (w.index 0)) := by
  obtain ⟨s, hplace⟩ := Option.isSome_iff_exists.1 ((h.armed t (by simp)).2 (by rw [hd]; rfl))
  have hmem := (h.mem_iff t s).2 ⟨hplace, by simp⟩
  obtain ⟨h0, hslot, hle, -⟩ | ⟨hup, -, hlow, -⟩ := h.placed t s d (by simp) hplace hd
  · refine ⟨hle, ?_⟩
    rintro rfl
    rw [h0, hslot, ← h.index_zero] at hmem
    exact hmem
  · have := hc s.1 hup
    exact ⟨by omega, fun he => by omega⟩

theorem beginTick_simulates (h : Simulates w a) (ht : a.ticking = false) :
    Simulates { (if w.index 0 = 0 then cascadeFrom w 4 1 else w) with ticking := true }
      { a with ticking := true } := by
  obtain ⟨c, hinv, hpos⟩ := h.inv
  rw [ht] at hpos
  have hcas : ∃ c', Inv (if w.index 0 = 0 then cascadeFrom w 4 1 else w) a.now c' a.due ∧
      Cascaded a.now c' := by
    have hidx := hinv.index_zero
    split_ifs with h0
    · have hfirst : c 1 * 2 ^ bits 1 = a.now := by
        have h1 := (hinv.clock 1 ⟨by omega, by omega⟩).1
        have h2 := hpos 1 ⟨by omega, by omega⟩
        change a.now ≤ c 1 * 2 ^ 8 at h1
        change c 1 * 2 ^ 8 < a.now + 2 ^ 8 at h2
        show c 1 * 2 ^ 8 = a.now
        omega
      refine cascadeFrom_inv 4 1 w c ⟨by omega, by omega⟩ rfl hinv hfirst ?_ fun l hl _ => hpos l hl
      intro l hl hlt
      unfold Upper at hl
      omega
    · refine ⟨c, hinv, fun l hl => lt_of_le_of_ne (hinv.clock l hl).1 fun heq => h0 ?_⟩
      have hdvd : 2 ^ 8 ∣ a.now := by
        rw [heq]
        exact (pow_dvd_pow 2 (bits_mono ⟨by omega, by omega⟩ hl.1)).mul_left _
      omega
  obtain ⟨c', hinv', hcas'⟩ := hcas
  refine ⟨rfl, c', ?_, hcas'⟩
  exact { hinv' with }

theorem endTick_simulates (h : Simulates w a) (ht : a.ticking = true)
    (hempty : w.vec 0 (w.index 0) = []) : Simulates { w with
        timerJiffies := w.timerJiffies + 1
        index := update w.index 0 ((w.index 0 + 1) % 256)
        ticking := false }
      { a with now := a.now + 1, ticking := false } := by
  obtain ⟨c, hinv, hpos⟩ := h.inv
  rw [ht] at hpos
  refine ⟨rfl, c, ⟨hinv.nodup, hinv.mem_iff, hinv.armed, ?_, ?_, ?_, ?_, ?_⟩, ?_⟩
  · intro t s d hne hplace hdue
    refine (hinv.placed t s d hne hplace hdue).imp ?_ id
    rintro ⟨h0, hslot, hle, hlt⟩
    have hd := hinv.current_of_due hpos hdue
    have hnow : d ≠ a.now := by
      intro he
      have := hd.2 he
      rw [hempty] at this
      cases this
    exact ⟨h0, hslot, by dsimp only; omega, by dsimp only; omega⟩
  · rw [hinv.jiffies, ofNat_add]
    rfl
  · show update w.index 0 ((w.index 0 + 1) % 256) 0 = (a.now + 1) % 256
    rw [update_self, hinv.index_zero]
    omega
  · intro l hl
    show update w.index 0 ((w.index 0 + 1) % 256) l = c l % 64
    rw [update_of_ne (by unfold Upper at hl; omega)]
    exact hinv.index_upper l hl
  · intro l hl
    have h1 := hpos l hl
    have h2 := (hinv.clock l hl).2
    exact ⟨h1, h2.trans (by dsimp only; omega)⟩
  · intro l hl
    have h2 := (hinv.clock l hl).2
    show c l * 2 ^ bits l < a.now + 1 + 2 ^ bits l
    omega

/-- **Every step of the wheel is a step of the abstract timers.** -/
theorem step_simulates (w : Wheel) (e : Event) (w' : Wheel) (a : Timers) (h : Simulates w a)
    (hs : step w e = some w') : ∃ a', Timers.Step a e a' ∧ Simulates w' a' := by
  obtain ⟨c₀, hinv₀, hpos₀⟩ := h.inv
  cases e with
  | advance n =>
    cases hs
    exact ⟨a, .advance n, h.ticking, c₀, { hinv₀ with }, hpos₀⟩
  | add t e =>
    obtain ⟨hplace, rfl⟩ := of_guard hs
    refine ⟨_, .add e ((hinv₀.due_eq_none_iff t).1 hplace), h.of_inv rfl fun c hinv => ?_⟩
    have := internalAddTimer_inv ((hinv.of_not_pending hplace).setExpires e)
    rwa [setExpires_self] at this
  | mod t e =>
    cases hs
    refine ⟨_, .mod t e, h.of_inv ?_ fun c hinv => ?_⟩
    · exact detachTimer_ticking (w.setExpires t e) t
    · have := internalAddTimer_inv ((detachTimer_inv hinv t).setExpires e)
      rwa [setExpires_self, ← detachTimer_setExpires] at this
  | del t =>
    cases hs
    exact ⟨_, .del t, h.of_inv (detachTimer_ticking w t) fun c hinv =>
      (detachTimer_inv hinv t).clearLinks⟩
  | beginTick =>
    simp only [step] at hs
    split_ifs at hs with hgo h0 <;> cases hs
    all_goals
      have ht : a.ticking = false := h.ticking.symm.trans hgo.1
      have hsim := beginTick_simulates h ht
      simp only [h0, if_true, if_false] at hsim
      exact ⟨_, .beginTick ht, hsim⟩
  | run t =>
    obtain ⟨hgo, rfl⟩ := of_guard hs
    have hdue := hinv₀.due_of_current (List.mem_of_mem_head? hgo.2)
    exact ⟨_, .run (h.ticking.symm.trans hgo.1) hdue, h.of_inv (detachTimer_ticking w t)
      fun c hinv => (detachTimer_inv hinv t).clearLinks⟩
  | endTick =>
    obtain ⟨hgo, rfl⟩ := of_guard hs
    have ht : a.ticking = true := h.ticking.symm.trans hgo.1
    rw [ht] at hpos₀
    refine ⟨_, .endTick ht fun t hdue => ?_, endTick_simulates h ht hgo.2⟩
    have := (hinv₀.current_of_due hpos₀ hdue).2 rfl
    rw [hgo.2] at this
    cases this

/-! ### Whole runs -/

theorem Inv.now_le (h : Inv w now c due) (hd : due t = some d) : now ≤ d := by
  obtain ⟨s, hplace⟩ := Option.isSome_iff_exists.1 ((h.armed t (by simp)).2 (by rw [hd]; rfl))
  obtain ⟨-, -, hle, -⟩ | ⟨hup, -, hlow, -⟩ := h.placed t s d (by simp) hplace hd
  · exact hle
  · exact (h.clock s.1 hup).1.trans hlow

/-- What one step of the abstract timers that is no call on the timer `t` does to it. -/
theorem Timers.Step.untouched {a' : Timers} {e : Event} (h : Timers.Step a e a') (hu : Untouched t [e]) :
    (e = .run t ∧ a.due t = some a.now ∧ a'.due t = none ∧ a'.now = a.now ∧ a'.ticking = true) ∨
      (e ≠ .run t ∧ a'.due t = a.due t ∧
        (a.due t ≠ some a.now ∧ a'.now = a.now + 1 ∨ a'.now = a.now ∧ (a.ticking = true → a'.ticking = true))) := by
  simp only [Untouched, List.mem_singleton] at hu
  have hother : ∀ t' (y : Option ℕ), t' ≠ t → update a.due t' y t = a.due t := fun t' y hne => update_of_ne hne.symm ..
  cases h with
  | advance n => exact .inr ⟨by simp, rfl, .inr ⟨rfl, id⟩⟩
  | @add t' x hd => exact .inr ⟨by simp, hother t' _ fun he => (hu.2 x).1 (by rw [he]), .inr ⟨rfl, id⟩⟩
  | mod t' x => exact .inr ⟨by simp, hother t' _ fun he => (hu.2 x).2 (by rw [he]), .inr ⟨rfl, id⟩⟩
  | del t' => exact .inr ⟨by simp, hother t' _ fun he => hu.1 (by rw [he]), .inr ⟨rfl, id⟩⟩
  | beginTick ht => exact .inr ⟨by simp, rfl, .inr ⟨rfl, fun _ => rfl⟩⟩
  | @run t' ht hdue =>
    obtain rfl | hne := eq_or_ne t' t
    · exact .inl ⟨rfl, hdue, update_self .., rfl, ht⟩
    · exact .inr ⟨by simpa using hne, hother t' none hne, .inr ⟨rfl, id⟩⟩
  | endTick ht hdue => exact .inr ⟨by simp, rfl, .inl ⟨hdue t, rfl⟩⟩

theorem Untouched.cons_iff {e : Event} {es : List Event} : Untouched t (e :: es) ↔ Untouched t [e] ∧ Untouched t es := by
  simp only [Untouched, List.mem_cons, List.not_mem_nil, or_false, not_or]
  constructor
  · intro h
    exact ⟨⟨h.1.1, fun x => ⟨(h.2 x).1.1, (h.2 x).2.1⟩⟩, h.1.2, fun x => ⟨(h.2 x).1.2, (h.2 x).2.2⟩⟩
  · intro h
    exact ⟨⟨h.1.1, h.2.1⟩, fun x => ⟨⟨(h.1.2 x).1, (h.2.2 x).1⟩, (h.1.2 x).2, (h.2.2 x).2⟩⟩

/-- The tick `d` is over, or it is the one being processed. -/
def Timers.Begun (a : Timers) (d : ℕ) : Prop := d < a.now ∨ d = a.now ∧ a.ticking = true

theorem Timers.runs_never {es : List Event} {a' : Timers} (h : Trace Timers.Step a es a') (hd : a.due t = none)
    (hb : a.Begun d) (hu : Untouched t es) : es.count (.run t) = 0 ∧ a'.due t = none ∧ a'.Begun d := by
  induction h with
  | nil b => exact ⟨rfl, hd, hb⟩
  | cons hs _ ih =>
    obtain ⟨hue, hu⟩ := Untouched.cons_iff.mp hu
    obtain ⟨-, hdue, -⟩ | ⟨hne, hdue, hnow⟩ := hs.untouched hue
    · rw [hd] at hdue
      cases hdue
    · rw [List.count_cons_of_ne hne]
      refine ih (hdue.trans hd) ?_ hu
      obtain ⟨-, hnow⟩ | ⟨hnow, ht⟩ := hnow
      · exact .inl (by have := hb; unfold Timers.Begun at this; omega)
      · exact hb.imp (fun h => hnow ▸ h) fun h => ⟨hnow ▸ h.1, ht h.2⟩

/-- A timer that is armed for the tick `d` and then left alone runs once, inside that tick, and before the tick ends. -/
theorem Timers.runs_once {es : List Event} {a' : Timers} (h : Trace Timers.Step a es a') (hd : a.due t = some d)
    (hle : a.now ≤ d) (hu : Untouched t es) :
    (es.count (.run t) = 0 ∧ a'.due t = some d ∧ a'.now ≤ d) ∨
      (es.count (.run t) = 1 ∧ a'.due t = none ∧ a'.Begun d) := by
  induction h with
  | nil b => exact .inl ⟨rfl, hd, hle⟩
  | cons hs hrest ih =>
    obtain ⟨hue, hu⟩ := Untouched.cons_iff.mp hu
    obtain ⟨he, hdue, hnone, hnow, ht⟩ | ⟨hne, hdue, hnow⟩ := hs.untouched hue
    · rw [hd] at hdue
      cases hdue
      rw [he, List.count_cons_self]
      obtain ⟨hc, hend⟩ := Timers.runs_never hrest hnone (.inr ⟨hnow.symm, ht⟩) hu
      exact .inr ⟨by rw [hc], hend⟩
    · rw [List.count_cons_of_ne hne]
      refine ih (hdue.trans hd) ?_ hu
      obtain ⟨hlater, hnow⟩ | ⟨hnow, -⟩ := hnow
      · have : d ≠ _ := fun he => hlater (by rw [hd, he])
        omega
      · omega

/-! ### The loops of `run_timer_list` end -/

section Loops

variable {fn : ℕ → Wheel → List Event} {Q : Wheel → Timers → Prop} {w₁ w₂ w' : Wheel} {a₁ a₂ : Timers} {e : Event}
  {x : BitVec 32}

theorem cascadeTimers_jiffies (w : Wheel) (n : ℕ) : (cascadeTimers w n).jiffies = w.jiffies := by
  show ((w.vec n (w.index n)).foldl internalAddTimer w).jiffies = w.jiffies
  generalize w.vec n (w.index n) = l
  induction l generalizing w with
  | nil => rfl
  | cons t l ih => exact ih (internalAddTimer w t)

theorem cascadeFrom_jiffies (fuel : ℕ) : ∀ (w : Wheel) (n : ℕ), (cascadeFrom w fuel n).jiffies = w.jiffies := by
  induction fuel with
  | zero => exact fun w n => rfl
  | succ fuel ih =>
    intro w n
    rw [cascadeFrom]
    split_ifs
    · rw [ih, cascadeTimers_jiffies]
    · exact cascadeTimers_jiffies w n

theorem detachTimer_jiffies (w : Wheel) (t : ℕ) : (detachTimer w t).jiffies = w.jiffies := by
  unfold detachTimer
  cases w.place t <;> rfl

theorem step_jiffies (he : ∀ n, e ≠ .advance n) (hs : step w e = some w') : w'.jiffies = w.jiffies := by
  cases e with
  | advance n => exact absurd rfl (he n)
  | add t x =>
    obtain ⟨-, rfl⟩ := of_guard hs
    rfl
  | mod t x =>
    cases hs
    exact detachTimer_jiffies (w.setExpires t x) t
  | del t =>
    cases hs
    exact detachTimer_jiffies w t
  | beginTick =>
    obtain ⟨-, rfl⟩ := of_guard hs
    dsimp only
    split_ifs
    · exact cascadeFrom_jiffies 4 w 1
    · rfl
  | run t =>
    obtain ⟨-, rfl⟩ := of_guard hs
    exact detachTimer_jiffies w t
  | endTick =>
    obtain ⟨-, rfl⟩ := of_guard hs
    rfl

/-- `run_timer_list` returns from the wheel, and what it leaves is as `Q` says. -/
def Returns (fn : ℕ → Wheel → List Event) (w : Wheel) (a : Timers) (Q : Wheel → Timers → Prop) : Prop :=
  ∃ fuel es w' a', runTimerList fn fuel w = some (es, w') ∧ exec step (fun _ _ => true) w es = some w' ∧
    Trace Timers.Step a es a' ∧ Q w' a'

theorem Returns.turn (hn : w.next = some e) (hs : step w e = some w₁)
    (hc : exec step (fun _ _ => true) w₁ (calls fn w₁ e) = some w₂) (ha : Timers.Step a e a₁)
    (ht : Trace Timers.Step a₁ (calls fn w₁ e) a₂) (h : Returns fn w₂ a₂ Q) : Returns fn w a Q := by
  obtain ⟨fuel, es, w', a', hrun, hexec, htrace, hq⟩ := h
  refine ⟨fuel + 1, e :: (calls fn w₁ e ++ es), w', a', ?_, ?_, .cons ha (ht.append htrace), hq⟩
  · simp only [runTimerList, hn, hs, Option.bind_eq_bind, Option.bind_some, hc, hrun]
  · exact exec_cons_eq_some.mpr ⟨w₁, ⟨rfl, hs⟩, (exec_append hc).trans hexec⟩

theorem disarm_due_eq_some {t' : ℕ} : (a.disarm t).due t' = some d ↔ t' ≠ t ∧ a.due t' = some d := by
  show update a.due t none t' = some d ↔ _
  rw [update_apply]
  split_ifs with h <;> simp [h]

theorem arm_due_eq_some {t' : ℕ} : (a.arm t x).due t' = some d ↔
    if t' = t then deadline a.now x = d else a.due t' = some d := by
  show update a.due t _ t' = some d ↔ _
  rw [update_apply]
  split_ifs <;> simp

theorem deadline_later (h : 0 < (x - ofNat 32 now).toInt) : now < deadline now x := by
  rw [BitVec.toInt_eq_toNat_cond] at h
  unfold deadline
  dsimp only
  split_ifs at h ⊢ <;> omega

/-- A call that arms timers for later ticks only leaves no more timers due at this one. -/
theorem step_later (h : Simulates w a) (ht : a.ticking = true) (hl : later w e = true) (hs : step w e = some w') :
    ∃ a', Timers.Step a e a' ∧ Simulates w' a' ∧ a'.now = a.now ∧ a'.ticking = true ∧
      ∀ t, a'.due t = some a.now → a.due t = some a.now := by
  obtain ⟨a', hstep, hsim⟩ := step_simulates w e w' a h hs
  obtain ⟨c, hinv, -⟩ := h.inv
  have harm : ∀ t (x : BitVec 32), 0 < (x - w.timerJiffies).toInt →
      ∀ t', (a.arm t x).due t' = some a.now → a.due t' = some a.now := by
    intro t x hx t' hdue
    rw [hinv.jiffies] at hx
    rw [arm_due_eq_some] at hdue
    split_ifs at hdue
    · exact absurd hdue (deadline_later hx).ne'
    · exact hdue
  refine ⟨a', hstep, hsim, ?_⟩
  cases hstep with
  | advance | beginTick | run | endTick => cases hl
  | @add t x _ => exact ⟨rfl, ht, harm t x (of_decide_eq_true hl)⟩
  | mod t x => exact ⟨rfl, ht, harm t x (of_decide_eq_true hl)⟩
  | del t => exact ⟨rfl, ht, fun t' hdue => (disarm_due_eq_some.mp hdue).2⟩

theorem calls_later : ∀ (es : List Event) (w : Wheel) (a : Timers), Simulates w a → a.ticking = true →
    exec step later w es = some w' → exec step (fun _ _ => true) w es = some w' ∧ w'.jiffies = w.jiffies ∧
      ∃ a', Trace Timers.Step a es a' ∧ Simulates w' a' ∧ a'.now = a.now ∧ a'.ticking = true ∧
        ∀ t, a'.due t = some a.now → a.due t = some a.now
  | [], w, a, h, ht, hx => by
    cases hx
    exact ⟨rfl, rfl, a, .nil a, h, rfl, ht, fun _ => id⟩
  | e :: es, w, a, h, ht, hx => by
    obtain ⟨u, ⟨hl, hu⟩, hrest⟩ := exec_cons_eq_some.mp hx
    obtain ⟨a₁, hstep, hsim, hnow, ht₁, hdue⟩ := step_later h ht hl hu
    obtain ⟨hexec, hj, a', htrace, hsim', hnow', ht', hdue'⟩ := calls_later es u a₁ hsim ht₁ hrest
    have hju : u.jiffies = w.jiffies := by
      refine step_jiffies (fun n he => ?_) hu
      rw [he] at hl
      cases hl
    refine ⟨exec_cons_eq_some.mpr ⟨u, ⟨rfl, hu⟩, hexec⟩, hj.trans hju, a', .cons hstep htrace, hsim',
      hnow'.trans hnow, ht', fun t hd => hdue t (hnow ▸ hdue' t (hnow.symm ▸ hd))⟩

/-- Inside a tick, the timers that are due are those of the current slot. -/
theorem Simulates.mem_current (h : Simulates w a) (ht : a.ticking = true) :
    t ∈ w.vec 0 (w.index 0) ↔ a.due t = some a.now := by
  obtain ⟨c, hinv, hpos⟩ := h.inv
  rw [ht, if_pos rfl] at hpos
  exact ⟨hinv.due_of_current, fun hd => (hinv.current_of_due hpos hd).2 rfl⟩

variable (hfn : ∀ t w, (exec step later w (fn t w)).isSome = true)
include hfn

/-- The inner loop: each turn takes one timer off the current slot, and the calls put none there. -/
theorem Returns.tick (k : ℕ) : ∀ (w : Wheel) (a : Timers), Simulates w a → a.ticking = true →
    (w.vec 0 (w.index 0)).length ≤ k →
    (∀ w' a', Simulates w' a' → a'.ticking = false → a'.now = a.now + 1 → w'.jiffies = w.jiffies →
      Returns fn w' a' Q) → Returns fn w a Q := by
  induction k with
  | zero =>
    intro w a h ht hlen hret
    have hslot := List.length_eq_zero_iff.mp (Nat.le_zero.mp hlen)
    have hwt := h.ticking.trans ht
    have hs : step w .endTick = some _ := if_pos ⟨hwt, hslot⟩
    have hdue : ∀ t, a.due t ≠ some a.now := by
      intro t hd
      have := (h.mem_current ht).mpr hd
      rw [hslot] at this
      cases this
    exact Returns.turn (by simp [Wheel.next, hwt, hslot]) hs rfl (.endTick ht hdue) (.nil _)
      (hret _ _ (endTick_simulates h ht hslot) rfl rfl rfl)
  | succ k ih =>
    intro w a h ht hlen hret
    cases hslot : w.vec 0 (w.index 0) with
    | nil => exact ih w a h ht (by simp [hslot]) hret
    | cons t l =>
      have hwt := h.ticking.trans ht
      have hs : step w (.run t) = some ((detachTimer w t).clearLinks t) := if_pos ⟨hwt, by rw [hslot]; rfl⟩
      obtain ⟨a₁, hstep, hsim⟩ := step_simulates w _ _ a h hs
      obtain ⟨w₂, hw₂⟩ := Option.isSome_iff_exists.mp (hfn t ((detachTimer w t).clearLinks t))
      have ha₁ : a₁ = a.disarm t := by
        cases hstep
        rfl
      subst ha₁
      obtain ⟨hexec, hj, a₂, htrace, hsim₂, hnow, ht₂, hdue⟩ := calls_later _ _ _ hsim ht hw₂
      refine Returns.turn (by simp [Wheel.next, hwt, hslot]) hs hexec hstep htrace (ih w₂ a₂ hsim₂ ht₂ ?_ ?_)
      · have hsub : w₂.vec 0 (w₂.index 0) ⊆ l := by
          intro t' ht'
          have hd := hdue t' (((hsim₂.mem_current ht₂).mp ht').trans (by rw [hnow]))
          obtain ⟨hne, hd⟩ := disarm_due_eq_some.mp hd
          have := (h.mem_current ht).mpr hd
          rw [hslot] at this
          exact (List.mem_cons.mp this).resolve_left hne
        obtain ⟨c, hinv, -⟩ := hsim₂.inv
        have hle := ((hinv.nodup (0, w₂.index 0)).subperm hsub).length_le
        rw [hslot, List.length_cons] at hlen
        exact hle.trans (Nat.le_of_succ_le_succ hlen)
      · intro w' a' hsim' ht' hnow' hj'
        exact hret w' a' hsim' ht' (hnow'.trans (by rw [hnow]; rfl)) (hj'.trans (hj.trans (detachTimer_jiffies w t)))

/-- The outer loop processes every tick up to `jiffies`. -/
theorem Returns.ticks (n : ℕ) : ∀ (w : Wheel) (a : Timers), Simulates w a → a.ticking = false → w.ticks = n →
    Returns fn w a fun w' a' => Simulates w' a' ∧ a'.ticking = false ∧ a'.now = a.now + n := by
  induction n with
  | zero =>
    intro w a h ht hn
    have hwt := h.ticking.trans ht
    refine ⟨1, [], w, a, ?_, rfl, .nil a, h, ht, rfl⟩
    have hnext : w.next = none := by
      unfold Wheel.ticks at hn
      rw [Wheel.next, if_neg (by simp [hwt]), if_neg (by omega)]
    simp only [runTimerList, hnext]
  | succ n ih =>
    intro w a h ht hn
    have hwt := h.ticking.trans ht
    unfold Wheel.ticks at hn
    have hge : 0 ≤ (w.jiffies - w.timerJiffies).toInt := by omega
    have hs : step w .beginTick = some _ := if_pos ⟨hwt, hge⟩
    have hj := step_jiffies (fun n => by simp) hs
    refine Returns.turn (by rw [Wheel.next, if_neg (by simp [hwt]), if_pos hge]) hs rfl (.beginTick ht) (.nil _)
      (Returns.tick hfn _ _ _ (beginTick_simulates h ht) rfl le_rfl fun w' a' hsim' ht' hnow' hj' => ?_)
    have hticks : w'.ticks = n := by
      obtain ⟨c, hinv, -⟩ := h.inv
      obtain ⟨c', hinv', -⟩ := hsim'.inv
      have hsub : w'.jiffies - w'.timerJiffies = w.jiffies - w.timerJiffies - 1 := by
        rw [hj'.trans hj, hinv'.jiffies, hinv.jiffies, hnow', ofNat_add]
        exact sub_add_eq_sub_sub ..
      unfold Wheel.ticks
      rw [hsub]
      generalize w.jiffies - w.timerJiffies = y at hn hge ⊢
      rw [BitVec.toInt_sub]
      have h1 : (1 : BitVec 32).toInt = 1 := rfl
      have hlt := y.toInt_lt
      rw [h1, Int.bmod_eq_of_le (by omega) (by omega)]
      omega
    obtain ⟨fuel, es, w'', a'', hrun, hexec, htrace, hsim'', ht'', hnow''⟩ := ih w' a' hsim' ht' hticks
    refine ⟨fuel, es, w'', a'', hrun, hexec, htrace, hsim'', ht'', ?_⟩
    rw [hnow'', hnow']
    change a.now + 1 + n = _
    omega

omit hfn in
theorem ofNat_add_ticks (h : w.timerJiffies = ofNat 32 now) : ofNat 32 (now + w.ticks) =
    if 0 ≤ (w.jiffies - w.timerJiffies).toInt then w.jiffies + 1 else w.timerJiffies := by
  rw [ofNat_add, ← h, Wheel.ticks]
  split_ifs with hx
  · rw [Int.toNat_add hx (by decide), ofNat_add, ← add_assoc]
    have hnat : ofNat 32 (w.jiffies - w.timerJiffies).toInt.toNat = w.jiffies - w.timerJiffies := by
      rw [BitVec.toInt_eq_toNat_of_msb (BitVec.msb_eq_false_iff_two_mul_lt.mpr ?_), Int.toNat_natCast, BitVec.ofNat_toNat,
        BitVec.setWidth_eq]
      rw [BitVec.toInt_eq_toNat_cond] at hx
      split_ifs at hx <;> omega
    rw [hnat, add_sub_cancel]
    rfl
  · rw [Int.toNat_of_nonpos (by omega)]
    exact BitVec.add_zero _

end Loops

/-- **The timer wheel is exact.** Every run of the wheel from its zero-initialised vectors is, event by event, a run of the
abstract timers.  Afterwards `timer_jiffies` is the tick of the abstract timers, the pending timers are the armed ones, none
is overdue, and one that runs is due at this tick; a timer that no call touches runs once, in its tick.  `run_timer_list`, with
functions that arm timers for later ticks only, returns; it has processed every tick up to `jiffies`, so each timer that was
due by then and that no function touched has run once, and no other. -/
theorem timerWheel_exact {es : List Event} {w : Wheel}
    (h : exec step (fun _ _ => true) Wheel.init es = some w) :
    ∃ a, Trace Timers.Step Timers.init es a ∧ w.timerJiffies = ofNat 32 a.now ∧
      w.ticking = a.ticking ∧ (∀ t, (w.place t).isSome = true ↔ (a.due t).isSome = true) ∧
      (∀ t d, a.due t = some d → a.now ≤ d) ∧
      (∀ t, (step w (.run t)).isSome = true → a.due t = some a.now) ∧
      (w.ticking = true → (∃ t, (step w (.run t)).isSome = true) ∨ (step w .endTick).isSome = true) ∧
      (∀ es' w', exec step (fun _ _ => true) w es' = some w' → ∃ a', Trace Timers.Step a es' a' ∧
        w'.timerJiffies = ofNat 32 a'.now ∧ ∀ t d, a.due t = some d → Untouched t es' →
          (es'.count (.run t) = 0 ∧ a'.due t = some d ∧ a'.now ≤ d) ∨
            (es'.count (.run t) = 1 ∧ a'.due t = none ∧ a'.Begun d)) ∧
      (w.ticking = false → ∀ fn, (∀ t w, (exec step later w (fn t w)).isSome = true) →
        ∃ fuel es' w', runTimerList fn fuel w = some (es', w') ∧ exec step (fun _ _ => true) w es' = some w' ∧
          w'.timerJiffies = (if 0 ≤ (w.jiffies - w.timerJiffies).toInt then w.jiffies + 1 else w.timerJiffies) ∧
          ∀ t d, a.due t = some d → Untouched t es' →
            es'.count (.run t) = if d < a.now + w.ticks then 1 else 0) := by
  obtain ⟨a, htrace, hsim⟩ := Trace.of_exec step_simulates es _ _ _ init_simulates h
  obtain ⟨c, hinv, -⟩ := hsim.inv
  refine ⟨a, htrace, hinv.jiffies, hsim.ticking, fun t => hinv.armed t (by simp),
    fun t d hd => hinv.now_le hd, fun t hrun => ?_, fun ht => ?_, fun es' w' hes => ?_, fun ht fn hfn => ?_⟩
  · obtain ⟨w', hw'⟩ := Option.isSome_iff_exists.1 hrun
    exact hinv.due_of_current (List.mem_of_mem_head? (of_guard hw').1.2)
  · cases hslot : w.vec 0 (w.index 0) with
    | nil => exact .inr (by simp [step, ht, hslot])
    | cons t l => exact .inl ⟨t, by simp [step, ht, hslot]⟩
  · obtain ⟨a', htrace', hsim'⟩ := Trace.of_exec step_simulates es' _ _ _ hsim hes
    obtain ⟨c', hinv', -⟩ := hsim'.inv
    exact ⟨a', htrace', hinv'.jiffies, fun t d hd hu => Timers.runs_once htrace' hd (hinv.now_le hd) hu⟩
  · obtain ⟨fuel, es', w', a', hrun, hexec, htrace', hsim', hend, hnow⟩ :=
      Returns.ticks hfn _ w a hsim (hsim.ticking.symm.trans ht) rfl
    obtain ⟨c', hinv', -⟩ := hsim'.inv
    refine ⟨fuel, es', w', hrun, hexec, ?_, fun t d hd hu => ?_⟩
    · rw [hinv'.jiffies, hnow, ofNat_add_ticks hinv.jiffies]
    · obtain ⟨hcount, -, hle⟩ | ⟨hcount, -, hbegun⟩ := Timers.runs_once htrace' hd (hinv.now_le hd) hu
      · rw [hcount, if_neg (by omega)]
      · -- no tick is being processed any more, so that of the timer is over
        have hlt : d < a'.now := hbegun.resolve_right fun hb => absurd (hend.symm.trans hb.2) Bool.false_ne_true
        rw [hcount, if_pos (hnow ▸ hlt)]

/-- Timer 1 is due at once, timer 2 was due before the wrap, timer 3 is put off by a call and timer
4 is deleted. -/
def shortRun : List Event :=
  [.add 1 0, .add 2 0xffffffff, .add 3 1, .add 4 0, .beginTick, .del 4, .run 2, .mod 3 300, .run 1,
    .endTick, .advance 400]

/-- A function that puts its own timer off by a hundred ticks. -/
def periodic (t : ℕ) (w : Wheel) : List Event := [.mod t (w.timerJiffies + 100)]

theorem periodic_later (t : ℕ) (w : Wheel) : (exec step later w (periodic t w)).isSome = true := by
  have hlater : later w (.mod t (w.timerJiffies + 100)) = true := by
    rw [later, BitVec.add_comm, BitVec.add_sub_cancel]
    decide
  simp only [periodic, exec, List.foldlM_cons, hlater, if_true, List.foldlM_nil, step, Option.bind_eq_bind,
    Option.bind_some, Option.pure_def, Option.isSome_some]

theorem timerWheel_exact_short : ∃ w a, exec step (fun _ _ => true) Wheel.init shortRun = some w ∧
    Trace Timers.Step Timers.init shortRun a ∧ ∃ fuel es' w', runTimerList periodic fuel w = some (es', w') := by
  have hx : (exec step (fun _ _ => true) Wheel.init shortRun).any (fun w => !w.ticking) = true := by decide
  obtain ⟨w, hw, ht⟩ := (Option.any_eq_true ..).mp hx
  obtain ⟨a, ha, -, -, -, -, -, -, -, hret⟩ := timerWheel_exact hw
  obtain ⟨fuel, es', w', hrun, -⟩ := hret (by simpa using ht) periodic periodic_later
  exact ⟨w, a, hw, ha, fuel, es', w', hrun⟩

end I370Linux.TimerWheel
