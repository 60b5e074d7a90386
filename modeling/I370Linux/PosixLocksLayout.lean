import I370Linux.PosixLocks

/-! # Tidy lock lists and what a request means for them

`Tidy` is the shape of an inode's lock list: each owner's locks stand together, in order, apart from
each other and merged where they can be.  `ByteExact` says what a request is for: the caller's
bytes in the range get the requested type, every other byte of every owner keeps its own.

`layOver` is a request over the locks of its owner in closed form: the locks before the range, the
part of a lock that sticks out on the left, the new lock with everything it swallows (`absorb`), the
locks after.  It is exact and keeps the owner's locks apart (`layOver_spec`) as long as no lock of
the request's type has to be compared with an end that cannot be incremented (`NoWrap`). -/

namespace I370Linux.PosixLocks

open List

/-! ### Owners, bytes and tidy lists -/

def FileLock.owner (fl : FileLock) : ℕ × ℕ := (fl.flOwner, fl.flPid)

theorem locksSameOwner_iff (fl1 fl2 : FileLock) : locksSameOwner fl1 fl2 = true ↔ fl1.owner = fl2.owner := by
  simp [locksSameOwner, FileLock.owner]

def locksOf (o : ℕ × ℕ) (l : List FileLock) : List FileLock := l.filter (fun fl => fl.owner = o)

def covers (b : ℤ) (fl : FileLock) : Bool := fl.flStart ≤ b && b ≤ fl.flEnd

/-- The type of the first lock of a list that covers byte `b`. -/
def coveredAs (l : List FileLock) (b : ℤ) : Option LockType := (l.find? (covers b)).map (·.flType)

/-- The lock type an owner holds at byte `b`. -/
def typeAt (l : List FileLock) (o : ℕ × ℕ) (b : ℤ) : Option LockType := coveredAs (locksOf o l) b

/-- What a request leaves on a byte of its range. -/
def LockType.held : LockType → Option LockType
  | .unlck => none
  | t => some t

/-- `a` ends before `b` starts, and not right before it if they have the same type. -/
def Apart (a b : FileLock) : Prop :=
  a.flEnd < b.flStart ∧ (a.flType = b.flType → a.flEnd + 1 < b.flStart)

instance (a b : FileLock) : Decidable (Apart a b) :=
  inferInstanceAs (Decidable (_ ∧ (_ → _)))

/-- After the owner's first run of locks there are none of its locks any more. -/
def Contiguous (o : ℕ × ℕ) (l : List FileLock) : Prop :=
  ∀ fl ∈ (l.dropWhile (fun fl => fl.owner ≠ o)).dropWhile (fun fl => fl.owner = o), fl.owner ≠ o

def Held (fl : FileLock) : Prop := fl.flPosix = true ∧ InRange fl ∧ fl.flType ≠ .unlck

/-- The shape of an inode's lock list. -/
structure Tidy (l : List FileLock) : Prop where
  held : ∀ fl ∈ l, Held fl
  contiguous : ∀ o, Contiguous o l
  apart : ∀ o, (locksOf o l).Pairwise Apart

/-- A request changes the caller's bytes in its range, and nothing else. -/
def ByteExact (caller : FileLock) (l l' : List FileLock) : Prop :=
  ∀ (o : ℕ × ℕ) (b : ℤ), 0 ≤ b → b ≤ offsetMax →
    typeAt l' o b =
      if o = caller.owner ∧ caller.flStart ≤ b ∧ b ≤ caller.flEnd then caller.flType.held
      else typeAt l o b

/-- The locks of one owner as they stand in a tidy list. -/
structure Block (o : ℕ × ℕ) (l : List FileLock) : Prop where
  owned : ∀ fl ∈ l, fl.owner = o
  held : ∀ fl ∈ l, Held fl
  apart : l.Pairwise Apart

/-- The request ends at the largest offset and the owner already has a lock of the same type that
overlaps or touches the range: the comparison with `caller->fl_end + 1` decides about it. -/
def wraps (caller : FileLock) (l : List FileLock) : Bool :=
  caller.flEnd = offsetMax &&
    l.any fun fl => fl.owner = caller.owner && fl.flType = caller.flType &&
      caller.flStart - 1 ≤ fl.flEnd

@[simp]
theorem coveredAs_cons (fl : FileLock) (l : List FileLock) (b : ℤ) :
    coveredAs (fl :: l) b =
      if fl.flStart ≤ b ∧ b ≤ fl.flEnd then some fl.flType else coveredAs l b := by
  simp only [coveredAs, List.find?_cons, covers]
  by_cases h : fl.flStart ≤ b ∧ b ≤ fl.flEnd
  · simp [h]
  rw [if_neg h]
  rw [not_and] at h
  by_cases h1 : fl.flStart ≤ b
  · simp [h1, h h1]
  · simp [h1]

theorem coveredAs_append (l l' : List FileLock) (b : ℤ) :
    coveredAs (l ++ l') b = (coveredAs l b).or (coveredAs l' b) := by
  simp only [coveredAs, List.find?_append]
  cases l.find? (covers b) <;> simp

variable {l : List FileLock} {o : ℕ × ℕ} {c fl p : FileLock} {r : FileLock × List FileLock}

theorem coveredAs_eq_none {b : ℤ}
    (h : ∀ fl ∈ l, ¬ (fl.flStart ≤ b ∧ b ≤ fl.flEnd)) : coveredAs l b = none := by
  induction l with
  | nil => rfl
  | cons fl l ih =>
    rw [coveredAs_cons, if_neg (h fl (mem_cons_self ..))]
    exact ih fun fl' hfl' => h fl' (mem_cons_of_mem _ hfl')

theorem Block.tail (h : Block o (fl :: l)) : Block o l where
  owned := fun x hx => h.owned x (mem_cons_of_mem _ hx)
  held := fun x hx => h.held x (mem_cons_of_mem _ hx)
  apart := h.apart.of_cons

theorem Block.head_apart (h : Block o (fl :: l)) : ∀ x ∈ l, Apart fl x :=
  (pairwise_cons.1 h.apart).1

theorem block_append_iff {l' : List FileLock} :
    Block o (l ++ l') ↔ Block o l ∧ Block o l' ∧ ∀ a ∈ l, ∀ b ∈ l', Apart a b := by
  constructor
  · rintro ⟨ho, hh, ha⟩
    obtain ⟨h1, h2, h3⟩ := pairwise_append.1 ha
    exact ⟨⟨fun x hx => ho x (mem_append_left _ hx), fun x hx => hh x (mem_append_left _ hx),
      h1⟩, ⟨fun x hx => ho x (mem_append_right _ hx),
      fun x hx => hh x (mem_append_right _ hx), h2⟩, h3⟩
  · rintro ⟨h1, h2, h3⟩
    refine ⟨?_, ?_, pairwise_append.2 ⟨h1.apart, h2.apart, h3⟩⟩
    · intro x hx
      exact (mem_append.1 hx).elim (h1.owned x) (h2.owned x)
    · intro x hx
      exact (mem_append.1 hx).elim (h1.held x) (h2.held x)

/-! ### Laying a request over the locks after its start -/

/-- Swallow the locks that the request `c` covers or can be merged with, cut the one that sticks out
on the right.  The result is the grown request and the locks that remain. -/
def absorb (c : FileLock) : List FileLock → FileLock × List FileLock
  | [] => (c, [])
  | fl :: rest =>
    if c.flType = fl.flType then
      if fl.flStart > offT (c.flEnd + 1) then (c, fl :: rest) else absorb (merged c fl) rest
    else if fl.flStart > c.flEnd then (c, fl :: rest)
    else if fl.flEnd > c.flEnd then (c, startAfter c fl :: rest)
    else absorb c rest

/-- The locks a request leaves: an unlock leaves no lock of its own. -/
def emit (r : FileLock × List FileLock) : List FileLock :=
  if r.1.flType = .unlck then r.2 else r.1 :: r.2

/-- What `absorb` promises for the request `c` over the locks `l`. -/
structure Absorbed (o : ℕ × ℕ) (c : FileLock) (l : List FileLock) (r : FileLock × List FileLock) :
    Prop where
  grown : r.1 = { c with flEnd := r.1.flEnd }
  inRange : InRange r.1
  block : Block o r.2
  apart : ∀ fl ∈ r.2, Apart r.1 fl
  exact : ∀ b, coveredAs (emit r) b =
    if c.flStart ≤ b ∧ b ≤ c.flEnd then c.flType.held else coveredAs l b

theorem held_of_ne {t : LockType} (h : t ≠ .unlck) : t.held = some t := by
  cases t <;> first | rfl | exact absurd rfl h

theorem absorbed_front (hc : InRange c)
    (hl : Block o l) (h : ∀ fl ∈ l, Apart c fl) : Absorbed o c l (c, l) where
  grown := rfl
  inRange := hc
  block := hl
  apart := h
  exact := by
    intro b
    unfold emit
    by_cases ht : c.flType = .unlck
    · rw [if_pos ht]
      by_cases hb : c.flStart ≤ b ∧ b ≤ c.flEnd
      · rw [if_pos hb, ht]
        refine coveredAs_eq_none fun fl hfl hb' => ?_
        have := (h fl hfl).1
        omega
      · rw [if_neg hb]
    · rw [if_neg ht, coveredAs_cons, held_of_ne ht]

theorem Held.startAfter (hc : InRange c) (h : Held fl) (hr : c.flEnd < fl.flEnd) :
    Held (startAfter c fl) ∧ (PosixLocks.startAfter c fl).flStart = c.flEnd + 1 := by
  obtain ⟨hp, ⟨-, -, h2⟩, ht⟩ := h
  obtain ⟨hc0, hc1, -⟩ := hc
  have hw : offT (c.flEnd + 1) = c.flEnd + 1 := by
    apply offT_of_range <;> unfold offsetMax at * <;> omega
  refine ⟨⟨hp, ⟨?_, ?_, h2⟩, ht⟩, hw⟩
  · change 0 ≤ offT (c.flEnd + 1)
    omega
  · change offT (c.flEnd + 1) ≤ fl.flEnd
    omega

theorem apart_of_apart_right {a b : FileLock} (hab : a.flEnd < b.flStart) (hb : b.flStart ≤ b.flEnd)
    (hbc : b.flEnd < c.flStart) : Apart a c :=
  ⟨by omega, fun _ => by omega⟩

theorem merged_start (c fl : FileLock) : (merged c fl).flStart = min c.flStart fl.flStart := by
  simp only [merged]
  split_ifs <;> omega

theorem merged_start_of_le (h : c.flStart ≤ fl.flStart) : (merged c fl).flStart = c.flStart :=
  (merged_start c fl).trans (min_eq_left h)

theorem merged_end (c fl : FileLock) : (merged c fl).flEnd = max c.flEnd fl.flEnd := by
  simp only [merged]
  split_ifs <;> omega

theorem merged_inRange (hc : InRange c) (hfl : InRange fl) : InRange (merged c fl) := by
  obtain ⟨h0, -, h2⟩ := hc
  obtain ⟨h0', h1', h2'⟩ := hfl
  unfold InRange merged
  dsimp only
  refine ⟨?_, ?_, ?_⟩ <;> split_ifs <;> omega

section

variable (hfl : Held fl) (ht : c.flType = fl.flType) (htouch : fl.flStart ≤ c.flEnd + 1)
  (h : Absorbed o (merged c fl) l r)
include hfl ht htouch h

/-- A lock that the request touches is merged into it without loss. -/
theorem Absorbed.exact_merge (hreach : c.flStart ≤ fl.flEnd + 1) (b : ℤ) : coveredAs (emit r) b =
      if c.flStart ≤ b ∧ b ≤ c.flEnd then c.flType.held else coveredAs (fl :: l) b := by
  have hmt : (merged c fl).flType = c.flType := rfl
  have hheld : c.flType.held = some fl.flType := by rw [ht]; exact held_of_ne hfl.2.2
  rw [h.exact b, coveredAs_cons, merged_start, merged_end, hmt, hheld]
  by_cases hb : c.flStart ≤ b ∧ b ≤ c.flEnd
  · rw [if_pos hb, if_pos (by omega)]
  · rw [if_neg hb]
    by_cases hb' : fl.flStart ≤ b ∧ b ≤ fl.flEnd
    · rw [if_pos hb', if_pos (by omega)]
    · rw [if_neg hb', if_neg (by omega)]

theorem Absorbed.merge (hs : c.flStart ≤ fl.flStart) : Absorbed o c (fl :: l) r where
  grown := by
    have hst := merged_start_of_le hs
    refine h.grown.trans ?_
    simp only [merged] at hst ⊢
    rw [hst]
  __ := h
  exact := h.exact_merge hfl ht htouch (by have := hfl.2.1.2.1; omega)

end

theorem Absorbed.drop (hs : c.flStart ≤ fl.flStart) (he : fl.flEnd ≤ c.flEnd)
    (h : Absorbed o c l r) : Absorbed o c (fl :: l) r where
  __ := h
  exact := by
    intro b
    rw [h.exact b, coveredAs_cons]
    by_cases hb : c.flStart ≤ b ∧ b ≤ c.flEnd
    · rw [if_pos hb, if_pos hb]
    · rw [if_neg hb, if_neg hb, if_neg (by omega)]

theorem absorbed_cut (hc : InRange c)
    (hl : Block o (fl :: l)) (ht : c.flType ≠ fl.flType) (hs : c.flStart ≤ fl.flStart)
    (hin : fl.flStart ≤ c.flEnd) (hr : c.flEnd < fl.flEnd) :
    Absorbed o c (fl :: l) (c, startAfter c fl :: l) := by
  have hfl := hl.held fl (mem_cons_self ..)
  obtain ⟨hheld, hst⟩ := hfl.startAfter hc hr
  have hblock : Block o (startAfter c fl :: l) := by
    refine ⟨?_, ?_, pairwise_cons.2 ⟨fun x hx => hl.head_apart x hx, hl.tail.apart⟩⟩
    · exact forall_mem_cons.2 ⟨hl.owned fl (mem_cons_self ..), hl.tail.owned⟩
    · exact forall_mem_cons.2 ⟨hheld, hl.tail.held⟩
  have hafter : ∀ x ∈ l, Apart c x := fun x hx =>
    apart_of_apart_right (b := startAfter c fl) (by omega) (by rw [hst]; exact hr) (hl.head_apart x hx).1
  have hapart : ∀ x ∈ startAfter c fl :: l, Apart c x :=
    forall_mem_cons.2 ⟨⟨by omega, fun h => absurd h ht⟩, hafter⟩
  have hfront := absorbed_front hc hblock hapart
  refine ⟨rfl, hc, hblock, hapart, fun b => ?_⟩
  rw [hfront.exact b]
  by_cases hb : c.flStart ≤ b ∧ b ≤ c.flEnd
  · rw [if_pos hb, if_pos hb]
  rw [if_neg hb, if_neg hb, coveredAs_cons, coveredAs_cons, hst]
  have hty : (startAfter c fl).flType = fl.flType := rfl
  have hend : (startAfter c fl).flEnd = fl.flEnd := rfl
  rw [hty, hend]
  by_cases hb' : fl.flStart ≤ b ∧ b ≤ fl.flEnd
  · rw [if_pos hb', if_pos (by omega)]
  · rw [if_neg hb', if_neg (by omega)]

/-- No lock of the request's type is left to compare with an end that cannot be incremented. -/
def NoWrap (c : FileLock) (l : List FileLock) : Prop :=
  c.flEnd = offsetMax → ∀ fl ∈ l, c.flType ≠ fl.flType

theorem NoWrap.offT_end (h : NoWrap c (fl :: l))
    (hc : InRange c) (ht : c.flType = fl.flType) : offT (c.flEnd + 1) = c.flEnd + 1 := by
  obtain ⟨h0, h1, h2⟩ := hc
  have hne : c.flEnd ≠ offsetMax := fun he => h he fl (mem_cons_self ..) ht
  apply offT_of_range <;> unfold offsetMax at * <;> omega

/-- After a merge nothing is left to compare with an end that cannot be incremented either: a
lock up to the largest offset has no lock behind it. -/
theorem NoWrap.merged (h : NoWrap c (fl :: l)) (hl : Block o (fl :: l)) : NoWrap (merged c fl) l := by
  intro he x hx ht
  rw [merged_end] at he
  obtain hm | hm := max_choice c.flEnd fl.flEnd
  · exact h (hm ▸ he) x (mem_cons_of_mem _ hx) ht
  · have := (hl.head_apart x hx).1
    obtain ⟨-, ⟨-, hx1, hx2⟩, -⟩ := hl.tail.held x hx
    omega

theorem absorb_spec : ∀ (l : List FileLock) (c : FileLock), InRange c → Block o l →
    (∀ fl ∈ l, c.flStart ≤ fl.flStart) → NoWrap c l → Absorbed o c l (absorb c l)
  | [], c, hc, hl, _, _ => absorbed_front hc hl (by simp)
  | fl :: l, c, hc, hl, hs, hw => by
    have hfl := hl.held fl (mem_cons_self ..)
    have hs0 := hs fl (mem_cons_self ..)
    have hstail : ∀ x ∈ l, c.flStart ≤ x.flStart := fun x hx => hs x (mem_cons_of_mem _ hx)
    have hbehind : ∀ x ∈ l, fl.flStart < x.flStart ∧ fl.flEnd < x.flStart := fun x hx =>
      ⟨lt_of_le_of_lt hfl.2.1.2.1 (hl.head_apart x hx).1, (hl.head_apart x hx).1⟩
    unfold absorb
    by_cases ht : c.flType = fl.flType
    · rw [if_pos ht, hw.offT_end hc ht]
      by_cases hgap : fl.flStart > c.flEnd + 1
      · rw [if_pos hgap]
        refine absorbed_front hc hl (forall_mem_cons.2 ⟨⟨by omega, fun _ => hgap⟩, ?_⟩)
        intro x hx
        have := hbehind x hx
        exact ⟨by omega, fun _ => by omega⟩
      · rw [if_neg hgap]
        refine Absorbed.merge hfl ht (by omega)
          (absorb_spec l _ (merged_inRange hc hfl.2.1) hl.tail ?_ (hw.merged hl)) hs0
        rw [merged_start_of_le hs0]
        exact hstail
    · rw [if_neg ht]
      by_cases hgap : fl.flStart > c.flEnd
      · rw [if_pos hgap]
        refine absorbed_front hc hl (forall_mem_cons.2 ⟨⟨hgap, fun h => absurd h ht⟩, ?_⟩)
        intro x hx
        exact apart_of_apart_right hgap hfl.2.1.2.1 (hbehind x hx).2
      · rw [if_neg hgap]
        by_cases hr : fl.flEnd > c.flEnd
        · rw [if_pos hr]
          exact absorbed_cut hc hl ht hs0 (by omega) hr
        · rw [if_neg hr]
          exact Absorbed.drop hs0 (by omega)
            (absorb_spec l c hc hl.tail hstail fun he x hx => hw he x (mem_cons_of_mem _ hx))

/-! ### Laying a request over all locks of its owner -/

/-- The lock lies before the request and is not merged with it. -/
def isBefore (c fl : FileLock) : Bool :=
  if c.flType = fl.flType then fl.flEnd < c.flStart - 1 else fl.flEnd < c.flStart

/-- The part of the first lock not before the request that sticks out on the left. -/
def leftPiece (c : FileLock) : List FileLock → List FileLock
  | fl :: _ =>
    if c.flType ≠ fl.flType ∧ fl.flStart < c.flStart then [endBefore c fl] else []
  | [] => []

/-- The owner's locks after a request, in closed form. -/
def layOver (c : FileLock) (l : List FileLock) : List FileLock :=
  l.takeWhile (isBefore c) ++
    (leftPiece c (l.dropWhile (isBefore c)) ++ emit (absorb c (l.dropWhile (isBefore c))))

theorem isBefore_iff (c fl : FileLock) : isBefore c fl = true ↔
    fl.flEnd < c.flStart ∧ (fl.flType = c.flType → fl.flEnd + 1 < c.flStart) := by
  unfold isBefore
  by_cases h : c.flType = fl.flType
  · simp only [h, if_true, decide_eq_true_eq, forall_const]
    omega
  · simp [h, Ne.symm h]

/-- What a request leaves of the locks `l` of its owner, given that none of them is before it. -/
structure Laid (o : ℕ × ℕ) (c : FileLock) (l l' : List FileLock) : Prop where
  block : Block o l'
  after : ∀ p, (∀ fl ∈ l, Apart p fl) → isBefore c p = true → ∀ fl ∈ l', Apart p fl
  exact : ∀ b, coveredAs l' b =
    if c.flStart ≤ b ∧ b ≤ c.flEnd then c.flType.held else coveredAs l b

theorem Absorbed.block_emit (h : Absorbed o c l r) (ho : c.owner = o)
    (hp : c.flPosix = true) : Block o (emit r) := by
  unfold emit
  by_cases ht : r.1.flType = .unlck
  · rw [if_pos ht]
    exact h.block
  rw [if_neg ht]
  refine ⟨forall_mem_cons.2 ⟨?_, h.block.owned⟩, forall_mem_cons.2 ⟨⟨?_, h.inRange, ht⟩, h.block.held⟩,
    pairwise_cons.2 ⟨h.apart, h.block.apart⟩⟩
  · rw [h.grown]
    exact ho
  · rw [h.grown]
    exact hp

theorem Absorbed.apart_emit (h : Absorbed o c l r) (hp : Apart p c) : ∀ fl ∈ emit r, Apart p fl := by
  have hst : r.1.flStart = c.flStart := by rw [h.grown]
  have hty : r.1.flType = c.flType := by rw [h.grown]
  have hrest : ∀ fl ∈ r.2, Apart p fl := fun fl hfl =>
    apart_of_apart_right (by rw [hst]; exact hp.1) h.inRange.2.1 (h.apart fl hfl).1
  unfold emit
  by_cases ht : r.1.flType = .unlck
  · rw [if_pos ht]
    exact hrest
  rw [if_neg ht]
  refine forall_mem_cons.2 ⟨?_, hrest⟩
  unfold Apart
  rw [hst, hty]
  exact hp

theorem apart_of_isBefore (h : isBefore c p = true) : Apart p c :=
  (isBefore_iff c p).1 h

theorem Absorbed.laid (h : Absorbed o c l r) (ho : c.owner = o)
    (hp : c.flPosix = true) : Laid o c l (emit r) where
  block := h.block_emit ho hp
  after := fun _ _ hb => h.apart_emit (apart_of_isBefore hb)
  exact := h.exact

section

variable (hc : InRange c) (ho : c.owner = o) (hp : c.flPosix = true)
include hc ho hp

/-- A first lock of the request's type that starts before it is merged with it. -/
theorem laid_merge (hl : Block o (fl :: l))
    (ht : c.flType = fl.flType) (hs : fl.flStart < c.flStart) (hb : ¬ isBefore c fl = true)
    (hw : NoWrap c (fl :: l)) : Laid o c (fl :: l) (emit (absorb c (fl :: l))) := by
  have hfl := hl.held fl (mem_cons_self ..)
  have hreach : c.flStart ≤ fl.flEnd + 1 := by
    by_contra hlt
    exact hb ((isBefore_iff c fl).2 ⟨by omega, fun _ => by omega⟩)
  have hms := (merged_start c fl).trans (min_eq_right hs.le)
  have habs : Absorbed o (merged c fl) l (absorb (merged c fl) l) := by
    refine absorb_spec l _ (merged_inRange hc hfl.2.1) hl.tail ?_ (hw.merged hl)
    intro x hx
    have h1 := (hl.head_apart x hx).1
    rw [hms]
    omega
  have heq : absorb c (fl :: l) = absorb (merged c fl) l := by
    have h2 := hc.2.1
    rw [absorb, if_pos ht, hw.offT_end hc ht, if_neg (by omega)]
  rw [heq]
  refine ⟨habs.block_emit ho hp, ?_, ?_⟩
  · intro p hpl _
    refine habs.apart_emit ?_
    have hpfl := hpl fl (mem_cons_self ..)
    unfold Apart at hpfl ⊢
    rw [hms]
    exact ⟨hpfl.1, fun h => hpfl.2 (h.trans ht)⟩
  · exact habs.exact_merge hfl ht (by have := hc.2.1; omega) hreach

/-- A first lock of another type that starts before the request and reaches into it is cut; if it
also ends behind the request, it is split in two. -/
theorem laid_split (hl : Block o (fl :: l))
    (ht : c.flType ≠ fl.flType) (hs : fl.flStart < c.flStart) (hin : c.flStart ≤ fl.flEnd)
    (hw : NoWrap c (fl :: l)) : Laid o c (fl :: l) (endBefore c fl :: emit (absorb c (fl :: l))) := by
  obtain ⟨hflp, ⟨hfl0, -, hfl2⟩, hflt⟩ := hl.held fl (mem_cons_self ..)
  have ⟨hc0, hc1, hc2⟩ := hc
  have hend : (endBefore c fl).flEnd = c.flStart - 1 := by
    apply offT_of_range <;> unfold offsetMax at * <;> omega
  -- What `absorb` does with the lock does not depend on where before the request it starts.
  let inner : FileLock := { fl with flStart := c.flStart }
  have heq : absorb c (fl :: l) = absorb c (inner :: l) := by
    have h1 : ¬ fl.flStart > c.flEnd := by omega
    have h2 : ¬ c.flStart > c.flEnd := by omega
    simp only [absorb, inner, if_neg ht, if_neg h1, if_neg h2, startAfter]
  have hinner : Block o (inner :: l) := by
    refine ⟨forall_mem_cons.2 ⟨hl.owned fl (mem_cons_self ..), hl.tail.owned⟩,
      forall_mem_cons.2 ⟨⟨hflp, ⟨hc0, hin, hfl2⟩, hflt⟩, hl.tail.held⟩,
      pairwise_cons.2 ⟨fun x hx => hl.head_apart x hx, hl.tail.apart⟩⟩
  have habs : Absorbed o c (inner :: l) (absorb c (inner :: l)) := by
    refine absorb_spec _ c hc hinner (forall_mem_cons.2 ⟨le_refl _, fun x hx => ?_⟩) ?_
    · have := (hl.head_apart x hx).1
      omega
    · intro he
      exact forall_mem_cons.2 ⟨hw he fl (mem_cons_self ..), fun x hx => hw he x (mem_cons_of_mem _ hx)⟩
  have hapart : Apart (endBefore c fl) c := ⟨by omega, fun h => absurd h.symm ht⟩
  have hstart : (endBefore c fl).flStart = fl.flStart := rfl
  have htype : (endBefore c fl).flType = fl.flType := rfl
  rw [heq]
  refine ⟨?_, ?_, ?_⟩
  · have hb := habs.block_emit ho hp
    refine ⟨forall_mem_cons.2 ⟨hl.owned fl (mem_cons_self ..), hb.owned⟩,
      forall_mem_cons.2 ⟨⟨hflp, ⟨hfl0, by omega, by omega⟩, hflt⟩, hb.held⟩,
      pairwise_cons.2 ⟨habs.apart_emit hapart, hb.apart⟩⟩
  · intro p hpl hb
    exact forall_mem_cons.2 ⟨hpl fl (mem_cons_self ..), habs.apart_emit (apart_of_isBefore hb)⟩
  · intro b
    rw [coveredAs_cons, habs.exact b, coveredAs_cons, coveredAs_cons, hend, hstart, htype]
    simp only [inner]
    by_cases hb : c.flStart ≤ b ∧ b ≤ c.flEnd
    · rw [if_neg (by omega), if_pos hb, if_pos hb]
    rw [if_neg hb, if_neg hb]
    by_cases hb' : fl.flStart ≤ b ∧ b ≤ fl.flEnd
    · rw [if_pos hb']
      by_cases hb'' : b < c.flStart
      · rw [if_pos (by omega)]
      · rw [if_neg (by omega), if_pos (by omega)]
    · rw [if_neg hb', if_neg (by omega), if_neg (by omega)]

theorem laid_dropWhile (hl : Block o l) (hhead : ∀ fl ∈ l.head?, ¬ isBefore c fl = true) (hw : NoWrap c l) :
    Laid o c l (leftPiece c l ++ emit (absorb c l)) := by
  cases l with
  | nil => exact (absorb_spec [] c hc hl (by simp) hw).laid ho hp
  | cons fl l =>
    have hb := hhead fl rfl
    have hfl := (hl.held fl (mem_cons_self ..)).2.1
    rw [leftPiece]
    by_cases hs : fl.flStart < c.flStart
    · by_cases ht : c.flType = fl.flType
      · rw [if_neg (fun h => h.1 ht), nil_append]
        exact laid_merge hc ho hp hl ht hs hb hw
      · rw [if_pos ⟨ht, hs⟩, singleton_append]
        refine laid_split hc ho hp hl ht hs ?_ hw
        by_contra hlt
        exact hb ((isBefore_iff c fl).2 ⟨by omega, fun h => absurd h.symm ht⟩)
    · rw [if_neg (fun h => hs h.2), nil_append]
      refine (absorb_spec _ c hc hl (forall_mem_cons.2 ⟨by omega, fun x hx => ?_⟩) hw).laid ho hp
      have := (hl.head_apart x hx).1
      have := hfl.2.1
      omega

theorem layOver_spec (hl : Block o l) (hw : NoWrap c (l.dropWhile (isBefore c))) :
    Block o (layOver c l) ∧ ∀ b, coveredAs (layOver c l) b =
      if c.flStart ≤ b ∧ b ≤ c.flEnd then c.flType.held else coveredAs l b := by
  have hsplit := takeWhile_append_dropWhile (p := isBefore c) (l := l)
  obtain ⟨hl1, hl2, hl12⟩ := block_append_iff.1 (hsplit.symm ▸ hl)
  have hbefore : ∀ p ∈ l.takeWhile (isBefore c), isBefore c p = true := fun p hp =>
    mem_takeWhile_imp hp
  have hhead : ∀ fl ∈ (l.dropWhile (isBefore c)).head?, ¬ isBefore c fl = true := by
    intro fl hfl
    have := List.head?_dropWhile_not (isBefore c) l
    rw [hfl] at this
    simpa using this
  have hlaid := laid_dropWhile hc ho hp hl2 hhead hw
  refine ⟨block_append_iff.2 ⟨hl1, hlaid.block, fun p hpm => ?_⟩, fun b => ?_⟩
  · exact hlaid.after p (hl12 p hpm) (hbefore p hpm)
  · unfold layOver
    conv_rhs => rw [← hsplit]
    rw [coveredAs_append, hlaid.exact b, coveredAs_append]
    by_cases hb : c.flStart ≤ b ∧ b ≤ c.flEnd
    · have hnone : coveredAs (l.takeWhile (isBefore c)) b = none := coveredAs_eq_none fun p hpm hpb => by
          have := ((isBefore_iff c p).1 (hbefore p hpm)).1
          omega
      rw [if_pos hb, if_pos hb, hnone, Option.none_or]
    · rw [if_neg hb, if_neg hb]

end

end I370Linux.PosixLocks
