import I370Linux.PosixLocksLayout

/-! # The walk of `posix_lock_file` in closed form

Over the locks of one owner the second loop of `posix_lock_file` passes through three phases: it
skips the locks before the request (`processLocks_before`), it looks for a place to put the request
(`Fresh`, or `Unlocking` for an unlock), and once `caller` points into the list it goes on
swallowing (`Adopted`).  Together they are `layOver` (`processLocks_eq_layOver`).

If the request ends at the largest offset and meets a lock of its own type, the comparison with
`caller->fl_end + 1` stops the walk too early, and the list holds the request before a lock it
should have swallowed (`processLocks_wraps`). -/

namespace I370Linux.PosixLocks

open List

/-! ### Through the phases -/

variable {α : Type*} {k : ℕ} {c fl : FileLock} {l rest : List FileLock} {s : Scan} {o : ℕ × ℕ}

theorem modify_append_left {f : α → α} {l : List α} (l' : List α)
    (h : k < l.length) : (l ++ l').modify k f = l.modify k f ++ l' := by
  induction l generalizing k with
  | nil => exact absurd h (Nat.not_lt_zero k)
  | cons a l ih =>
    cases k with
    | zero => simp
    | succ k =>
      simp only [cons_append, modify_succ_cons]
      rw [ih (by simpa using h)]

theorem modify_append_length (f : α → α) (a : α) (l : List α) :
    (l ++ [a]).modify l.length f = l ++ [f a] := by
  induction l with
  | nil => rfl
  | cons b l ih => simp [ih]

theorem trimLeft_append {left : Option ℕ} {l' : List FileLock}
    (h : ∀ k ∈ left, k < l.length) : trimLeft left c (l ++ l') = trimLeft left c l ++ l' := by
  cases left with
  | none => rfl
  | some k => exact modify_append_left l' (h k rfl)

theorem trimLeft_congr {c' : FileLock} (h : c.flStart = c'.flStart) (left : Option ℕ)
    (l : List FileLock) : trimLeft left c l = trimLeft left c' l := by
  have hend : endBefore c = endBefore c' := by
    funext fl
    simp only [endBefore, h]
  simp only [trimLeft, hend]

/-- `caller` points at the last lock passed, which is new in the list; `left` is before it. -/
structure Adopted (s : Scan) (l : List FileLock) : Prop where
  before : s.before = l ++ [s.caller]
  callerAt : s.callerAt = some l.length
  added : s.added = true
  left : ∀ k ∈ s.left, k < l.length

/-- The locks still to come belong to the caller and none starts before it. -/
def Ahead (c : FileLock) (l : List FileLock) : Prop :=
  ∀ fl ∈ l, fl.owner = c.owner ∧ Held fl ∧ c.flStart ≤ fl.flStart

theorem finish_adopted (h : Adopted s l) (rest : List FileLock) :
    finish s false rest = trimLeft s.left s.caller l ++ s.caller :: rest := by
  simp only [finish, h.added, h.before, Bool.not_true, Bool.false_and, Bool.false_eq_true, if_false,
    if_true, append_nil]
  rw [trimLeft_append h.left, append_assoc, singleton_append]

theorem finish_adopted_right (h : Adopted s l) (fl : FileLock)
    (rest : List FileLock) : finish s true (fl :: rest) =
      trimLeft s.left s.caller l ++ s.caller :: startAfter s.caller fl :: rest := by
  have hlr : s.left ≠ some (l ++ [s.caller]).length := by
    intro he
    have := h.left _ he
    simp at this
  simp only [finish, h.added, h.before, Bool.not_true, Bool.false_and, Bool.false_eq_true, if_false,
    if_true, append_nil, if_neg hlr]
  rw [trimLeft_append h.left, append_assoc, singleton_append]

theorem Adopted.setCaller (h : Adopted s l) (c : FileLock) :
    Adopted (s.setCaller c) l ∧ (s.setCaller c).caller = c ∧ (s.setCaller c).left = s.left := by
  have heq : s.setCaller c = { s with caller := c, before := s.before.set l.length c } := by
    simp only [Scan.setCaller, h.callerAt]
  rw [heq]
  refine ⟨⟨?_, h.callerAt, h.added, h.left⟩, rfl, rfl⟩
  simp [h.before]

theorem offT_start_pred (hc : InRange c) : offT (c.flStart - 1) = c.flStart - 1 := by
  obtain ⟨hc0, hc1, hc2⟩ := hc
  apply offT_of_range <;> unfold offsetMax at * <;> omega

theorem Ahead.cons (hc : InRange c) (h : Ahead c (fl :: rest)) :
    locksSameOwner c fl = true ∧ fl.owner = c.owner ∧ Held fl ∧ c.flStart ≤ fl.flStart ∧ Ahead c rest ∧
      ¬ fl.flEnd < offT (c.flStart - 1) ∧ ¬ fl.flEnd < c.flStart := by
  obtain ⟨ho, hfl, hst⟩ := h fl (mem_cons_self ..)
  have h1 := hfl.2.1.2.1
  rw [offT_start_pred hc]
  exact ⟨(locksSameOwner_iff _ _).2 ho.symm, ho, hfl, hst, fun x hx => h x (mem_cons_of_mem _ hx), by omega, by omega⟩

theorem merged_comm (ho : fl.owner = c.owner) (hp : fl.flPosix = c.flPosix)
    (ht : c.flType = fl.flType) : merged fl c = merged c fl := by
  simp only [FileLock.owner, Prod.mk.injEq] at ho
  simp only [merged, FileLock.mk.injEq, ho, hp, ht, true_and]
  constructor <;> split_ifs <;> omega

theorem replaced_eq (ho : fl.owner = c.owner) (hp : fl.flPosix = c.flPosix) : replaced fl c = c := by
  simp only [FileLock.owner, Prod.mk.injEq] at ho
  simp only [replaced, ho, hp]

/-- No lock has been added yet, and `left` points at a lock already passed. -/
structure Fresh (s : Scan) : Prop where
  added : s.added = false
  left : ∀ k ∈ s.left, k < s.before.length

theorem Fresh.adopt (h : Fresh s) (fl : FileLock) : Adopted (s.adopt fl) s.before where
  before := rfl
  callerAt := rfl
  added := rfl
  left := h.left

theorem finish_fresh (h : Fresh s) (ht : s.caller.flType ≠ .unlck) (rest : List FileLock) :
    finish s false rest = trimLeft s.left s.caller s.before ++ s.caller :: rest := by
  simp [finish, h.added, ht]

/-- The place of the request is behind `l`: it is there already, or it will be put there. -/
def Placing (s : Scan) (l : List FileLock) : Prop := Adopted s l ∨ Fresh s ∧ s.before = l

section

variable (h : Placing s l)
include h

theorem Placing.finish (ht : s.caller.flType ≠ .unlck) (rest : List FileLock) :
    finish s false rest = trimLeft s.left s.caller l ++ s.caller :: rest := by
  obtain h | ⟨h, rfl⟩ := h
  · exact finish_adopted h rest
  · exact finish_fresh h ht rest

theorem Placing.finish_right (ht : s.caller.flType ≠ .unlck) (fl : FileLock) (rest : List FileLock) :
    PosixLocks.finish s true (fl :: rest) =
      trimLeft s.left s.caller l ++ s.caller :: startAfter s.caller fl :: rest := by
  obtain h | ⟨h, rfl⟩ := h
  · exact finish_adopted_right h fl rest
  · have hlr : s.left ≠ some s.before.length := fun he => lt_irrefl _ (h.left _ he)
    simp [PosixLocks.finish, h.added, ht, hlr]

/-- The scan after a lock that the request swallows; `c` is the request as it then is. -/
theorem Placing.swallow {c' : FileLock} (hc : c' = c) :
    ∃ s', Adopted s' l ∧ s'.caller = c ∧ s'.left = s.left ∧
      s' = if s.added then s.setCaller c else s.adopt c' := by
  subst hc
  obtain h | ⟨h, rfl⟩ := h
  · rw [if_pos h.added]
    exact ⟨_, (h.setCaller c').1, (h.setCaller c').2.1, (h.setCaller c').2.2, rfl⟩
  · rw [h.added]
    exact ⟨_, h.adopt c', rfl, rfl, rfl⟩

end

theorem processLocks_placing : ∀ (rest : List FileLock) (s : Scan) (l : List FileLock),
    Placing s l → InRange s.caller → s.caller.flPosix = true → s.caller.flType ≠ .unlck → Ahead s.caller rest →
    processLocks s rest = trimLeft s.left s.caller l ++ emit (absorb s.caller rest)
  | [], s, l, hs, _, _, ht, _ => by
    rw [processLocks, hs.finish ht, absorb, emit, if_neg ht]
  | fl :: rest, s, l, hs, hc, hp, ht, ha => by
    obtain ⟨howner, ho, hfl, hst, hrest, hnb, hnb'⟩ := ha.cons hc
    rw [processLocks, absorb]
    simp only [howner, Bool.not_true, Bool.false_eq_true, if_false, if_neg hnb, if_neg hnb']
    by_cases hty : s.caller.flType = fl.flType
    · simp only [if_pos hty]
      by_cases hgap : fl.flStart > offT (s.caller.flEnd + 1)
      · simp only [if_pos hgap]
        rw [hs.finish ht, emit, if_neg ht]
      simp only [if_neg hgap]
      have hms := merged_start_of_le hst
      obtain ⟨s', hs', hcal, hleft, heq⟩ := hs.swallow (merged_comm ho (hfl.1.trans hp.symm) hty)
      rw [← apply_ite (processLocks · rest), ← heq, ← hcal, processLocks_placing rest s' l (.inl hs'), hleft, hcal,
        trimLeft_congr hms]
      · rw [hcal]
        exact merged_inRange hc hfl.2.1
      · rwa [hcal]
      · rwa [hcal]
      · intro x hx
        rw [hcal, hms]
        exact hrest x hx
    · simp only [if_neg hty]
      by_cases hgap : fl.flStart > s.caller.flEnd
      · simp only [if_pos hgap]
        rw [hs.finish ht, emit, if_neg ht]
      -- The lock starts inside the range, so `left` keeps its value.
      have hnl : ¬ fl.flStart < s.caller.flStart := by omega
      simp only [if_neg hgap, if_neg hnl, decide_eq_false ht, Bool.or_false]
      by_cases hr : fl.flEnd > s.caller.flEnd
      · simp only [if_pos hr]
        rw [hs.finish_right ht, emit, if_neg ht]
      simp only [if_neg hr, ge_iff_le, if_pos hst]
      obtain h | ⟨h, rfl⟩ := hs
      · rw [if_pos h.added]
        exact processLocks_placing rest s l (.inl h) hc hp ht hrest
      · rw [h.added, replaced_eq ho (hfl.1.trans hp.symm)]
        exact processLocks_placing rest _ s.before (.inl (h.adopt s.caller)) hc hp ht hrest

/-- An unlock request never points into the list; until it has met a lock it has no `left`. -/
structure Unlocking (s : Scan) : Prop where
  unlck : s.caller.flType = .unlck
  left : ∀ k ∈ s.left, k < s.before.length
  fresh : s.added = false → s.left = none

theorem finish_unlocking (h : Unlocking s) (rest : List FileLock) :
    finish s false rest = trimLeft s.left s.caller s.before ++ rest := by
  cases ha : s.added with
  | true => simp [finish, ha]
  | false => simp [finish, ha, h.unlck, h.fresh ha, trimLeft]

theorem processLocks_unlocking : ∀ (rest : List FileLock) (s : Scan), Unlocking s →
    InRange s.caller → Ahead s.caller rest → processLocks s rest =
      trimLeft s.left s.caller s.before ++ emit (absorb s.caller rest)
  | [], s, hs, _, _ => by
    rw [processLocks, finish_unlocking hs, absorb, emit, if_pos hs.unlck]
  | fl :: rest, s, hs, hc, ha => by
    obtain ⟨howner, -, hfl, hst, hrest, -, hnb⟩ := ha.cons hc
    have hty : ¬ s.caller.flType = fl.flType := fun h => hfl.2.2 (h ▸ hs.unlck)
    rw [processLocks, absorb]
    simp only [howner, Bool.not_true, Bool.false_eq_true, if_false, if_neg hnb, if_neg hty]
    by_cases hgap : fl.flStart > s.caller.flEnd
    · simp only [if_pos hgap]
      rw [finish_unlocking hs, emit, if_pos hs.unlck]
    have hnl : ¬ fl.flStart < s.caller.flStart := by omega
    have hadd : (s.added || decide (s.caller.flType = .unlck)) = true := by simp [hs.unlck]
    simp only [if_neg hgap, if_neg hnl, hadd]
    by_cases hr : fl.flEnd > s.caller.flEnd
    · simp only [if_pos hr]
      have hlr : s.left ≠ some s.before.length := fun he => lt_irrefl _ (hs.left _ he)
      simp [finish, hlr, emit, hs.unlck]
    · simp only [if_neg hr, ge_iff_le, if_pos hst, if_true]
      have hs' : Unlocking { s with added := true, left := s.left } :=
        ⟨hs.unlck, hs.left, fun h => absurd h (by simp)⟩
      exact processLocks_unlocking rest _ hs' hc hrest

theorem processLocks_before : ∀ (l rest : List FileLock) (s : Scan), InRange s.caller →
    (∀ fl ∈ l, fl.owner = s.caller.owner ∧ isBefore s.caller fl = true) →
    processLocks s (l ++ rest) = processLocks { s with before := s.before ++ l } rest
  | [], rest, s, _, _ => by simp
  | fl :: l, rest, s, hc, h => by
    obtain ⟨ho, hb⟩ := h fl (mem_cons_self ..)
    have howner : locksSameOwner s.caller fl = true := (locksSameOwner_iff _ _).2 ho.symm
    have hw := offT_start_pred hc
    have hstep : processLocks s (fl :: l ++ rest) = processLocks (s.next fl) (l ++ rest) := by
      rw [cons_append, processLocks]
      simp only [howner, Bool.not_true, Bool.false_eq_true, if_false, hw]
      unfold isBefore at hb
      by_cases hty : s.caller.flType = fl.flType
      · simp only [if_pos hty, decide_eq_true_eq] at hb ⊢
        rw [if_pos hb]
      · simp only [if_neg hty, decide_eq_true_eq] at hb ⊢
        rw [if_pos hb]
    rw [hstep, processLocks_before l rest (s.next fl) hc fun x hx => h x (mem_cons_of_mem _ hx)]
    simp [Scan.next]

/-- The walk over locks that start in the range or behind it, whatever the request. -/
theorem processLocks_ahead (hleft : ∀ k ∈ s.left, k < s.before.length)
    (hadd : s.added = true → s.caller.flType = .unlck) (hnew : s.added = false →
      s.caller.flType = .unlck → s.left = none) (hc : InRange s.caller)
    (hp : s.caller.flPosix = true) (ha : Ahead s.caller rest) :
    processLocks s rest = trimLeft s.left s.caller s.before ++ emit (absorb s.caller rest) := by
  by_cases ht : s.caller.flType = .unlck
  · exact processLocks_unlocking rest s ⟨ht, hleft, fun h => hnew h ht⟩ hc ha
  · have hadded : s.added = false := by
      rw [← Bool.not_eq_true]
      exact fun h => ht (hadd h)
    exact processLocks_placing rest s _ (.inr ⟨⟨hadded, hleft⟩, rfl⟩) hc hp ht ha

theorem ahead_of_block (ho : c.owner = o)
    (hl : Block o l) (hs : ∀ fl ∈ l, c.flStart ≤ fl.flStart) : Ahead c l := fun fl hfl =>
  ⟨(hl.owned fl hfl).trans ho.symm, hl.held fl hfl, hs fl hfl⟩

theorem processLocks_reaching
    (hc : InRange c) (ho : c.owner = o) (hp : c.flPosix = true) (hl : Block o (fl :: rest))
    (hs : fl.flStart < c.flStart) (hb : ¬ isBefore c fl = true) :
    processLocks { Scan.start c with before := l } (fl :: rest) =
      l ++ (leftPiece c (fl :: rest) ++ emit (absorb c (fl :: rest))) := by
  have hflo := hl.owned fl (mem_cons_self ..)
  have hfl := hl.held fl (mem_cons_self ..)
  have ⟨_, ⟨hfl0, hfl1, hfl2⟩, hflt⟩ := hfl
  have howner : locksSameOwner c fl = true := (locksSameOwner_iff _ _).2 (ho.trans hflo.symm)
  have hbehind : ∀ x ∈ rest, fl.flEnd < x.flStart := fun x hx => (hl.head_apart x hx).1
  have ⟨hc0, hc1, hc2⟩ := hc
  have hw := offT_start_pred hc
  have hfresh : Fresh { Scan.start c with before := l } := ⟨rfl, by simp [Scan.start]⟩
  rw [processLocks, absorb, leftPiece]
  simp only [howner, Bool.not_true, Bool.false_eq_true, if_false, Scan.start, hw, Bool.false_or]
  by_cases hty : c.flType = fl.flType
  · have hnb : ¬ fl.flEnd < c.flStart - 1 := fun h =>
      hb ((isBefore_iff c fl).2 ⟨by omega, fun _ => by omega⟩)
    have hct : c.flType ≠ .unlck := hty ▸ hflt
    have hnl : ¬ (c.flType ≠ fl.flType ∧ fl.flStart < c.flStart) := fun h => h.1 hty
    simp only [if_pos hty, if_neg hnb, if_neg hnl, nil_append]
    by_cases hgap : fl.flStart > offT (c.flEnd + 1)
    · simp only [if_pos hgap]
      exact (finish_fresh hfresh hct _).trans (by simp [emit, hct, trimLeft, Scan.start])
    simp only [if_neg hgap]
    rw [merged_comm (hflo.trans ho.symm) (hfl.1.trans hp.symm) hty]
    have had := hfresh.adopt (merged c fl)
    have hms : (merged c fl).flStart ≤ fl.flStart := by
      simp only [merged]
      split_ifs <;> omega
    refine processLocks_placing rest _ l (.inl had) (merged_inRange hc hfl.2.1) hp hct
      (ahead_of_block ho hl.tail fun x hx => ?_)
    have := hbehind x hx
    exact hms.trans (by omega)
  · have hnb : ¬ fl.flEnd < c.flStart := fun h =>
      hb ((isBefore_iff c fl).2 ⟨h, fun h' => absurd h'.symm hty⟩)
    have hgap : ¬ fl.flStart > c.flEnd := by omega
    have hnge : ¬ fl.flStart ≥ c.flStart := by omega
    simp only [if_neg hty, if_neg hnb, if_neg hgap, if_neg hnge,
      if_pos (show c.flType ≠ fl.flType ∧ fl.flStart < c.flStart from ⟨hty, hs⟩)]
    by_cases hr : fl.flEnd > c.flEnd
    · -- The request lies inside the lock: `left == right`.
      simp only [if_pos hr, finish, emit]
      by_cases hct : c.flType = .unlck
      · simp [hct, hs, trimLeft, modify_eq_self (le_refl l.length)]
      · simp [hct, hs, trimLeft, modify_eq_self (le_refl l.length)]
    · simp only [if_neg hr]
      refine (processLocks_ahead ?_ ?_ ?_ hc hp (ahead_of_block ho hl.tail fun x hx => ?_)).trans ?_
      · simp [Scan.next, hs]
      · exact fun h => of_decide_eq_true h
      · exact fun h ht => absurd ht (of_decide_eq_false h)
      · have := hbehind x hx
        change c.flStart ≤ x.flStart
        omega
      · simp [Scan.next, trimLeft, hs, modify_append_length]

/-- **The walk in closed form.** Over the locks of its owner, `posix_lock_file` lays the request
over them. -/
theorem processLocks_eq_layOver (hc : InRange c) (ho : c.owner = o) (hp : c.flPosix = true) (hl : Block o l) :
    processLocks (Scan.start c) l = layOver c l := by
  have hsplit := takeWhile_append_dropWhile (p := isBefore c) (l := l)
  obtain ⟨hl1, hl2, -⟩ := block_append_iff.1 (hsplit.symm ▸ hl)
  have hskip := processLocks_before (l.takeWhile (isBefore c)) (l.dropWhile (isBefore c))
    (Scan.start c) hc fun fl hfl =>
      ⟨(hl1.owned fl hfl).trans ho.symm, mem_takeWhile_imp hfl⟩
  rw [hsplit, show (Scan.start c).before = [] from rfl, nil_append] at hskip
  rw [hskip, layOver]
  have hhead := List.head?_dropWhile_not (isBefore c) l
  cases hd : l.dropWhile (isBefore c) with
  | nil =>
    have hahead : Ahead c [] := by simp [Ahead]
    exact processLocks_ahead (by simp [Scan.start]) (by simp [Scan.start]) (by simp [Scan.start]) hc hp hahead
  | cons fl rest =>
    rw [hd] at hl2 hhead
    have hb : ¬ isBefore c fl = true := by simpa using hhead
    by_cases hs : fl.flStart < c.flStart
    · exact processLocks_reaching hc ho hp hl2 hs hb
    have hfl := (hl2.held fl (mem_cons_self ..)).2.1.2.1
    have hahead : Ahead c (fl :: rest) := by
      refine ahead_of_block ho hl2 (forall_mem_cons.2 ⟨by omega, fun x hx => ?_⟩)
      have := (hl2.head_apart x hx).1
      omega
    rw [leftPiece, if_neg (fun h => hs h.2), nil_append]
    exact processLocks_ahead (by simp [Scan.start]) (by simp [Scan.start]) (by simp [Scan.start]) hc hp hahead

/-! ### When the end of the request cannot be incremented -/

/-- `caller` points at a lock already passed that `left` does not point at, or nothing has been
added yet. -/
structure Placed (s : Scan) : Prop where
  callerAt : s.added = true → ∃ k, s.before[k]? = some s.caller ∧ s.left ≠ some k
  left : ∀ k ∈ s.left, k < s.before.length

theorem mem_trimLeft (hk : s.before[k]? = some s.caller)
    (hl : s.left ≠ some k) : s.caller ∈ trimLeft s.left s.caller s.before := by
  cases hleft : s.left with
  | none => exact mem_of_getElem? hk
  | some j =>
    refine mem_of_getElem? (i := k) ?_
    have hjk : j ≠ k := by
      rintro rfl
      exact hl hleft
    rw [trimLeft, List.getElem?_modify_ne _ _ hjk]
    exact hk

section

variable (h : Placed s) (fl : FileLock)
include h

theorem finish_sublist (ht : s.caller.flType ≠ .unlck) (rest : List FileLock) :
    [s.caller, fl].Sublist (finish s false (fl :: rest)) := by
  have hpair : [s.caller, fl] = [s.caller] ++ [fl] := rfl
  cases ha : s.added with
  | true =>
    obtain ⟨k, hk, hl⟩ := h.callerAt ha
    simp only [finish, ha, Bool.not_true, Bool.false_and, Bool.false_eq_true, if_false, if_true, append_nil]
    rw [hpair]
    exact List.Sublist.append (singleton_sublist.2 (mem_trimLeft hk hl)) (by simp)
  | false =>
    rw [finish_fresh ⟨ha, h.left⟩ ht]
    exact (List.Sublist.cons_cons _ (by simp)).trans (sublist_append_right _ _)

theorem Placed.next : Placed (s.next fl) where
  callerAt := by
    intro ha
    obtain ⟨k, hk, hl⟩ := h.callerAt ha
    refine ⟨k, ?_, hl⟩
    have hlt := (List.getElem?_eq_some_iff.1 hk).1
    rw [Scan.next, List.getElem?_append_left hlt]
    exact hk
  left := by
    intro k hk
    have := h.left k hk
    simp only [Scan.next, length_append, length_singleton]
    omega

theorem Placed.setLeft : Placed (({ s with left := some s.before.length } : Scan).next fl) where
  callerAt := by
    intro ha
    obtain ⟨k, hk, -⟩ := h.callerAt ha
    have hlt := (List.getElem?_eq_some_iff.1 hk).1
    refine ⟨k, ?_, ?_⟩
    · rw [Scan.next, List.getElem?_append_left hlt]
      exact hk
    · simp only [Scan.next, ne_eq, Option.some.injEq]
      omega
  left := by simp [Scan.next]

theorem Placed.adopt : Placed (s.adopt fl) where
  callerAt := by
    intro _
    refine ⟨s.before.length, by simp [Scan.adopt], ?_⟩
    intro hl
    exact lt_irrefl _ (h.left _ hl)
  left := by
    intro k hk
    have := h.left k hk
    simp only [Scan.adopt, length_append, length_singleton]
    omega

end

/-- If the request ends at the largest offset, the first lock of its type that it overlaps or
touches stops the walk, with the request before it in the list. -/
theorem processLocks_wraps : ∀ (rest : List FileLock) (s : Scan), Placed s → InRange s.caller →
    s.caller.flEnd = offsetMax → s.caller.flType ≠ .unlck →
    (∀ fl ∈ rest, fl.owner = s.caller.owner ∧ InRange fl) →
    (∃ fl ∈ rest, fl.flType = s.caller.flType ∧ s.caller.flStart - 1 ≤ fl.flEnd) →
    ∃ c fl, c.owner = s.caller.owner ∧ c.flEnd = offsetMax ∧ fl.owner = s.caller.owner ∧
      InRange fl ∧ [c, fl].Sublist (processLocks s rest)
  | [], _, _, _, _, _, _, hex => by simp at hex
  | fl :: rest, s, hs, hc, he, ht, hr, hex => by
    obtain ⟨ho, hfl⟩ := hr fl (mem_cons_self ..)
    have hrest : ∀ x ∈ rest, x.owner = s.caller.owner ∧ InRange x := fun x hx => hr x (mem_cons_of_mem _ hx)
    have howner : locksSameOwner s.caller fl = true := (locksSameOwner_iff _ _).2 ho.symm
    have hw := offT_start_pred hc
    -- A lock that does not stop the walk is not the one we look for.
    have hlater : ¬ (fl.flType = s.caller.flType ∧ s.caller.flStart - 1 ≤ fl.flEnd) →
        ∃ x ∈ rest, x.flType = s.caller.flType ∧ s.caller.flStart - 1 ≤ x.flEnd := by
      intro hno
      obtain ⟨x, hx, hx'⟩ := hex
      obtain rfl | hx := mem_cons.1 hx
      · exact absurd hx' hno
      · exact ⟨x, hx, hx'⟩
    rw [processLocks]
    simp only [howner, Bool.not_true, Bool.false_eq_true, if_false, hw]
    by_cases hty : s.caller.flType = fl.flType
    · simp only [if_pos hty]
      by_cases hb : fl.flEnd < s.caller.flStart - 1
      · simp only [if_pos hb]
        exact processLocks_wraps rest _ (hs.next fl) hc he ht hrest (hlater fun h => absurd h.2 (by omega))
      have hgap : fl.flStart > offT (s.caller.flEnd + 1) := by
        have := hfl.1
        rw [he, offT_past_max]
        omega
      simp only [if_neg hb, if_pos hgap]
      exact ⟨s.caller, fl, rfl, he, ho, hfl, finish_sublist hs fl ht rest⟩
    · have hrest' := hlater fun h => hty h.1.symm
      simp only [if_neg hty]
      by_cases hb : fl.flEnd < s.caller.flStart
      · simp only [if_pos hb]
        exact processLocks_wraps rest _ (hs.next fl) hc he ht hrest hrest'
      have hgap : ¬ fl.flStart > s.caller.flEnd := by
        have := hfl.2
        omega
      have hright : ¬ fl.flEnd > s.caller.flEnd := by
        have := hfl.2.2
        omega
      simp only [if_neg hb, if_neg hgap, if_neg hright, decide_eq_false ht, Bool.or_false]
      by_cases hst : fl.flStart ≥ s.caller.flStart
      · have hnl : ¬ fl.flStart < s.caller.flStart := by omega
        simp only [if_pos hst, if_neg hnl]
        cases ha : s.added with
        | true =>
          exact processLocks_wraps rest { s with added := true, left := s.left }
            ⟨fun _ => hs.callerAt ha, hs.left⟩ hc he ht hrest hrest'
        | false =>
          have hown : (replaced fl s.caller).owner = s.caller.owner := ho
          obtain ⟨c, x, hco, hce, hxo, hx, hsub⟩ := processLocks_wraps rest _
            (Placed.adopt ⟨by simp [ha], hs.left⟩ (replaced fl s.caller)) hc he ht
            (fun x hx => ⟨(hrest x hx).1.trans hown.symm, (hrest x hx).2⟩) hrest'
          exact ⟨c, x, hco.trans hown, hce, hxo.trans hown, hx, hsub⟩
      · simp only [if_neg hst, if_pos (show fl.flStart < s.caller.flStart by omega)]
        exact processLocks_wraps rest _ (hs.setLeft fl) hc he ht hrest hrest'

end I370Linux.PosixLocks
