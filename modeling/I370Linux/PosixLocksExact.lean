import I370Linux.PosixLocksWalk

/-! # Byte-exactness of POSIX locks over whole runs

From one owner's locks to the whole list: `posix_lock_file` replaces the block of locks of the
caller's owner and touches nothing else (`applyLock_eq`), so a tidy list stays tidy and the bytes
change as they should (`applyLock_spec`), unless the request meets a lock of its own type with an
end that cannot be incremented (`wraps`), when the list never stays tidy (`not_tidy_of_wraps`). -/

namespace I370Linux.PosixLocks

open I370Linux.Runs List

/-! ### The whole list -/

theorem finish_append (s : Scan) (right : Bool) (l rest : List FileLock)
    (h : right = true → l ≠ []) : finish s right (l ++ rest) = finish s right l ++ rest := by
  unfold finish
  by_cases hu : (!s.added && decide (s.caller.flType = .unlck)) = true
  · rw [if_pos hu, if_pos hu, append_assoc]
  rw [if_neg hu, if_neg hu]
  cases right with
  | false => simp
  | true =>
    cases l with
    | nil => exact absurd rfl (h rfl)
    | cons fl l => simp

theorem processLocks_append (rest : List FileLock) : ∀ (l : List FileLock) (s : Scan),
    (∀ fl ∈ rest.head?, fl.owner ≠ s.caller.owner) →
    processLocks s (l ++ rest) = processLocks s l ++ rest
  | [], s, h => by
    cases rest with
    | nil => simp
    | cons fl rest =>
      have hno : locksSameOwner s.caller fl = false := by
        rw [← Bool.not_eq_true, locksSameOwner_iff]
        exact fun he => h fl rfl he.symm
      rw [nil_append, processLocks, processLocks]
      simp only [hno, Bool.not_false, if_true]
      exact finish_append s false [] (fl :: rest) (by simp)
  | fl :: l, s, h => by
    rw [cons_append, processLocks, processLocks]
    cases howner : locksSameOwner s.caller fl with
    | false => exact finish_append s false (fl :: l) rest (by simp)
    | true =>
      have ho := (locksSameOwner_iff _ _).1 howner
      have hcaller : ∀ c, (s.setCaller c).caller = c := by
        intro c
        unfold Scan.setCaller
        cases s.callerAt <;> rfl
      simp only [Bool.not_true, Bool.false_eq_true, if_false]
      generalize (if fl.flStart < s.caller.flStart then some s.before.length else s.left) = left
      split_ifs
      · exact processLocks_append rest l (s.next fl) h
      · exact finish_append s false (fl :: l) rest (by simp)
      · refine processLocks_append rest l _ ?_
        rw [hcaller]
        exact h
      · exact processLocks_append rest l _ fun x hx => ho ▸ h x hx
      · exact processLocks_append rest l (s.next fl) h
      · exact finish_append s false (fl :: l) rest (by simp)
      · exact finish_append _ true (fl :: l) rest (by simp)
      · exact processLocks_append rest l _ h
      · exact processLocks_append rest l _ fun x hx => ho ▸ h x hx
      · exact processLocks_append rest l _ h

variable {α : Type*} {o o' : ℕ × ℕ} {l l' post pre : List FileLock} {c : FileLock} {p : α → Bool}

theorem mem_of_mem_dropWhile {l : List α} {a : α} (h : a ∈ l.dropWhile p) : a ∈ l :=
  (dropWhile_sublist p).subset h

/-- A list around the block of the owner `o`. -/
structure Around (o : ℕ × ℕ) (l pre block post : List FileLock) : Prop where
  split : l = pre ++ (block ++ post)
  others_pre : ∀ fl ∈ pre, fl.owner ≠ o
  owned : ∀ fl ∈ block, fl.owner = o
  others_post : ∀ fl ∈ post, fl.owner ≠ o
  last : block = [] → post = []

theorem locksOf_own {block : List FileLock}
    (hpre : ∀ fl ∈ pre, fl.owner ≠ o) (hb : ∀ fl ∈ block, fl.owner = o)
    (hpost : ∀ fl ∈ post, fl.owner ≠ o) : locksOf o (pre ++ (block ++ post)) = block := by
  have h1 : pre.filter (fun fl => fl.owner = o) = [] := filter_eq_nil_iff.2 (by simpa using hpre)
  have h2 : block.filter (fun fl => fl.owner = o) = block := filter_eq_self.2 (by simpa using hb)
  have h3 : post.filter (fun fl => fl.owner = o) = [] := filter_eq_nil_iff.2 (by simpa using hpost)
  simp only [locksOf, filter_append, h1, h2, h3, nil_append, append_nil]

theorem Around.locksOf_self {block : List FileLock}
    (h : Around o l pre block post) : locksOf o l = block := by
  rw [h.split]
  exact locksOf_own h.others_pre h.owned h.others_post

theorem locksOf_splice {block : List FileLock} (hne : o' ≠ o) (hb : ∀ fl ∈ block, fl.owner = o) :
    locksOf o' (pre ++ (block ++ post)) = locksOf o' pre ++ locksOf o' post := by
  have hnil : block.filter (fun fl => fl.owner = o') = [] := by
    refine filter_eq_nil_iff.2 fun fl hfl => ?_
    simp only [decide_eq_true_eq, hb fl hfl]
    exact hne.symm
  simp only [locksOf, filter_append, hnil, nil_append]

theorem contiguous_self {block : List FileLock}
    (hpre : ∀ fl ∈ pre, fl.owner ≠ o) (hb : ∀ fl ∈ block, fl.owner = o)
    (hpost : ∀ fl ∈ post, fl.owner ≠ o) : Contiguous o (pre ++ (block ++ post)) := by
  intro fl hfl
  rw [dropWhile_append_of_pos (by simpa using hpre)] at hfl
  cases block with
  | nil =>
    exact hpost fl (mem_of_mem_dropWhile (mem_of_mem_dropWhile hfl))
  | cons b block =>
    have hb0 := hb b (mem_cons_self ..)
    rw [cons_append, dropWhile_cons_of_neg (by simp [hb0]), ← cons_append,
      dropWhile_append_of_pos (by simpa using hb)] at hfl
    exact hpost fl (mem_of_mem_dropWhile hfl)

theorem contiguous_splice {block block' : List FileLock} (hne : o' ≠ o)
    (hb : ∀ fl ∈ block, fl.owner = o) (hb' : ∀ fl ∈ block', fl.owner = o)
    (hlast : block = [] → post = []) (h : Contiguous o' (pre ++ (block ++ post))) :
    Contiguous o' (pre ++ (block' ++ post)) := by
  have hother : ∀ {x : List FileLock}, (∀ fl ∈ x, fl.owner = o) → ∀ fl ∈ x, fl.owner ≠ o' :=
    fun hx fl hfl he => hne (he.symm.trans (hx fl hfl))
  unfold Contiguous at h ⊢
  rw [dropWhile_append] at h ⊢
  by_cases hpre : (pre.dropWhile fun fl => fl.owner ≠ o').isEmpty = true
  · rw [if_pos hpre] at h ⊢
    rw [dropWhile_append_of_pos (by simpa using hother hb)] at h
    rw [dropWhile_append_of_pos (by simpa using hother hb')]
    exact h
  · rw [if_neg hpre] at h ⊢
    rw [dropWhile_append] at h ⊢
    -- In both cases the block and what follows it have no lock of `o'`.
    have hrest : (∀ fl ∈ post, fl.owner ≠ o') → ∀ fl ∈ block' ++ post, fl.owner ≠ o' := by
      intro hpost fl hfl
      exact (mem_append.1 hfl).elim (hother hb' fl) (hpost fl)
    split_ifs at h ⊢ with hrun
    · have hpost : ∀ fl ∈ post, fl.owner ≠ o' := by
        cases block with
        | nil => simp [hlast rfl]
        | cons b block =>
          have hb0 := hother hb b (mem_cons_self ..)
          rw [cons_append, dropWhile_cons_of_neg (by simp [hb0])] at h
          exact fun fl hfl => h fl (mem_cons_of_mem _ (mem_append_right _ hfl))
      exact fun fl hfl => hrest hpost fl (mem_of_mem_dropWhile hfl)
    · intro fl hfl
      obtain hfl | hfl := mem_append.1 hfl
      · exact h fl (mem_append_left _ hfl)
      · exact hrest (fun x hx => h x (mem_append_right _ (mem_append_right _ hx))) fl hfl

theorem dropWhile_congr_mem {q : α → Bool} : ∀ {l : List α},
    (∀ a ∈ l, p a = q a) → l.dropWhile p = l.dropWhile q
  | [], _ => rfl
  | a :: l, h => by
    simp only [dropWhile_cons, h a (mem_cons_self ..)]
    rw [dropWhile_congr_mem fun x hx => h x (mem_cons_of_mem _ hx)]

theorem Held.skips {fl : FileLock} (h : Held fl) (c : FileLock) :
    skips c fl = decide (fl.owner ≠ c.owner) := by
  have hown : locksSameOwner c fl = decide (c.owner = fl.owner) := by
    rw [Bool.eq_iff_iff, locksSameOwner_iff, decide_eq_true_eq]
  simp [PosixLocks.skips, h.1, hown, eq_comm]

/-- A tidy list splits around the locks of each owner, as the two loops of the source do. -/
theorem Tidy.around (h : Tidy l) (c : FileLock) : Around c.owner l (l.takeWhile (skips c))
      ((l.dropWhile (skips c)).takeWhile fun fl => fl.owner = c.owner)
      ((l.dropWhile (skips c)).dropWhile fun fl => fl.owner = c.owner) where
  split := by rw [takeWhile_append_dropWhile, takeWhile_append_dropWhile]
  others_pre := by
    intro fl hfl
    have hskip := mem_takeWhile_imp hfl
    rw [(h.held fl ((takeWhile_sublist _).subset hfl)).skips] at hskip
    exact of_decide_eq_true hskip
  owned := by
    intro fl hfl
    simpa using mem_takeWhile_imp hfl
  others_post := by
    have hcongr := dropWhile_congr_mem (l := l) fun fl hfl => (h.held fl hfl).skips c
    rw [hcongr]
    exact h.contiguous c.owner
  last := by
    intro hnil
    cases hd : l.dropWhile (skips c) with
    | nil => rfl
    | cons fl rest =>
      have hmem : fl ∈ l := mem_of_mem_dropWhile (p := skips c) (hd ▸ mem_cons_self ..)
      have hhead := List.head?_dropWhile_not (skips c) l
      rw [hd] at hhead hnil
      have hown : fl.owner = c.owner := by
        simpa [(h.held fl hmem).skips c] using hhead
      simp [hown] at hnil

theorem Tidy.block (h : Tidy l) (o : ℕ × ℕ) : Block o (locksOf o l) where
  owned := by
    intro fl hfl
    simpa using (mem_filter.1 hfl).2
  held := fun fl hfl => h.held fl (mem_filter.1 hfl).1
  apart := h.apart o

/-- `posix_lock_file` replaces the locks of the caller by what the walk over them leaves. -/
theorem applyLock_eq (h : Tidy l) (c : FileLock) : ∃ pre post,
    Around c.owner l pre (locksOf c.owner l) post ∧
      applyLock c l = pre ++ (processLocks (Scan.start c) (locksOf c.owner l) ++ post) := by
  have har := h.around c
  rw [← har.locksOf_self] at har
  refine ⟨_, _, har, ?_⟩
  have hd : l.dropWhile (skips c) = locksOf c.owner l ++
      (l.dropWhile (skips c)).dropWhile (fun fl => fl.owner = c.owner) := by
    rw [(h.around c).locksOf_self, takeWhile_append_dropWhile]
  rw [applyLock, hd, processLocks_append]
  · rw [← hd]
  · intro fl hfl
    exact har.others_post fl (mem_of_mem_head? hfl)

/-- The walk over the caller's locks compares no end that cannot be incremented. -/
theorem noWrap_of_not_wraps (hl : Tidy l)
    (h : wraps c l = false) : NoWrap c ((locksOf c.owner l).dropWhile (isBefore c)) := by
  intro he fl hfl ht
  have hblock := hl.block c.owner
  have hreach : c.flStart - 1 ≤ fl.flEnd := by
    have hsplit := takeWhile_append_dropWhile (p := isBefore c) (l := locksOf c.owner l)
    obtain ⟨-, hb, -⟩ := block_append_iff.1 (hsplit.symm ▸ hblock)
    have hhead := List.head?_dropWhile_not (isBefore c) (locksOf c.owner l)
    cases hd : (locksOf c.owner l).dropWhile (isBefore c) with
    | nil => simp [hd] at hfl
    | cons x rest =>
      rw [hd] at hhead hfl hb
      have hx : c.flStart - 1 ≤ x.flEnd := by
        by_contra hlt
        have hbx : isBefore c x = true := (isBefore_iff c x).2 ⟨by omega, fun _ => by omega⟩
        simp [hbx] at hhead
      obtain rfl | hfl := mem_cons.1 hfl
      · exact hx
      · have h1 := (hb.head_apart fl hfl).1
        have h2 := (hb.tail.held fl hfl).2.1.2.1
        omega
  have hmem := mem_of_mem_dropWhile hfl
  have hw : wraps c l = true := by
    simp only [wraps, he, decide_true, Bool.true_and, any_eq_true, Bool.and_eq_true, decide_eq_true_eq]
    exact ⟨fl, (mem_filter.1 hmem).1, ⟨hblock.owned fl hmem, ht.symm⟩, hreach⟩
  rw [h] at hw
  cases hw

theorem applyLock_spec (hl : Tidy l) (hc : InRange c) (hp : c.flPosix = true) (hw : wraps c l = false) :
    ByteExact c l (applyLock c l) ∧ Tidy (applyLock c l) := by
  obtain ⟨pre, post, har, happ⟩ := applyLock_eq hl c
  have hblock := hl.block c.owner
  have hlay := processLocks_eq_layOver hc rfl hp hblock
  obtain ⟨hnew, hexact⟩ := layOver_spec hc rfl hp hblock (noWrap_of_not_wraps hl hw)
  rw [hlay] at happ
  have hother : ∀ o, o ≠ c.owner → locksOf o (applyLock c l) = locksOf o l := by
    intro o ho
    conv_rhs => rw [har.split]
    rw [happ, locksOf_splice ho hnew.owned, locksOf_splice ho har.owned]
  have hself : locksOf c.owner (applyLock c l) = layOver c (locksOf c.owner l) := by
    rw [happ]
    exact locksOf_own har.others_pre hnew.owned har.others_post
  refine ⟨?_, ?_, ?_, ?_⟩
  · intro o b _ _
    obtain rfl | ho := eq_or_ne o c.owner
    · simp only [typeAt, hself, hexact b, true_and]
    · rw [if_neg (fun h => ho h.1), typeAt, hother o ho, typeAt]
  · intro fl hfl
    rw [happ] at hfl
    obtain hfl | hfl := mem_append.1 hfl
    · exact hl.held fl (har.split ▸ mem_append_left _ hfl)
    · obtain hfl | hfl := mem_append.1 hfl
      · exact hnew.held fl hfl
      · exact hl.held fl (har.split ▸ mem_append_right _ (mem_append_right _ hfl))
  · intro o
    rw [happ]
    obtain rfl | ho := eq_or_ne o c.owner
    · exact contiguous_self har.others_pre hnew.owned har.others_post
    · exact contiguous_splice ho har.owned hnew.owned har.last (har.split ▸ hl.contiguous o)
  · intro o
    obtain rfl | ho := eq_or_ne o c.owner
    · rw [hself]
      exact hnew.apart
    · rw [hother o ho]
      exact hl.apart o

/-- **A request whose end cannot be incremented leaves an untidy list.** -/
theorem not_tidy_of_wraps (hl : Tidy l) (hc : InRange c)
    (hw : wraps c l = true) : ¬ Tidy (applyLock c l) := by
  obtain ⟨pre, post, -, happ⟩ := applyLock_eq hl c
  have hblock := hl.block c.owner
  simp only [wraps, any_eq_true, Bool.and_eq_true, decide_eq_true_eq] at hw
  obtain ⟨he, fl, hfl, ⟨hown, hty⟩, hreach⟩ := hw
  have hmem : fl ∈ locksOf c.owner l := mem_filter.2 ⟨hfl, by simpa using hown⟩
  have hct : c.flType ≠ .unlck := hty ▸ (hl.held fl hfl).2.2
  obtain ⟨a, b, hao, hae, hbo, hb, hsub⟩ := processLocks_wraps (locksOf c.owner l) (Scan.start c)
    ⟨by simp [Scan.start], by simp [Scan.start]⟩ hc he hct
    (fun x hx => ⟨hblock.owned x hx, (hblock.held x hx).2.1⟩) ⟨fl, hmem, hty, hreach⟩
  intro htidy
  have hsub' : [a, b].Sublist (locksOf c.owner (applyLock c l)) := by
    have hpair : locksOf c.owner [a, b] = [a, b] := by
      refine filter_eq_self.2 ?_
      simp [hao, hbo, Scan.start]
    rw [happ, ← hpair]
    exact List.Sublist.filter _ (hsub.trans ((sublist_append_left _ _).trans (sublist_append_right _ _)))
  have hpw := (htidy.apart c.owner).sublist hsub'
  have hlt := ((pairwise_cons.1 hpw).1 b (by simp)).1
  have h1 := hb.2.1
  have h2 := hb.2.2
  omega

/-! ### Runs -/

theorem stop_ge_start {s n : ℤ} (hs0 : 0 ≤ s) (hs : s < 2 ^ 31) (hn0 : 0 < n) (hn : n < 2 ^ 31)
    (h : ¬ offT (offT (s + n) - 1) < 0) : s ≤ offT (offT (s + n) - 1) := by
  unfold offT at h ⊢
  simp only [Int.bmod_def] at h ⊢
  omega

theorem posixMakeLock_inRange {f : Opener} {l : Flock}
    (h : posixMakeLock f l = some c) : InRange c ∧ c.flPosix = true := by
  simp only [posixMakeLock, Option.bind_eq_bind, Option.bind_eq_some_iff] at h
  obtain ⟨ty, -, base, -, h⟩ := h
  have hs := offT_range (base + l.lStart)
  have hn := offT_range l.lLen
  split_ifs at h with hneg hmax
  · cases h
    refine ⟨⟨?_, ?_, le_refl _⟩, rfl⟩ <;> dsimp only [offsetMax] <;> omega
  cases h
  rw [not_or] at hneg hmax
  have he := offT_range (offT (offT (base + l.lStart) + offT l.lLen) - 1)
  have hstop := stop_ge_start (s := offT (base + l.lStart)) (n := offT l.lLen) (by omega) hs.2
    (by omega) hn.2 hmax.2
  refine ⟨⟨?_, hstop, ?_⟩, rfl⟩ <;> dsimp only [offsetMax] <;> omega

/-- `posix_lock_file` comes to its second loop: there is memory, and no lock of another owner is in the way. -/
def grants (env : Env) (caller : FileLock) (l : List FileLock) : Bool :=
  env.allocated && !(caller.flType ≠ .unlck && l.any (posixLocksConflict caller))

/-- The call does not reach the comparison with an end that cannot be incremented. -/
def exactCall (l : List FileLock) (c : Call) : Bool :=
  match posixMakeLock c.opener c.flock with
  | some caller => !(grants c.env caller l && wraps caller l)
  | none => true

theorem fcntlSetlk_done {c : Call} (h : fcntlSetlk l c = .done l') :
    ∃ caller, posixMakeLock c.opener c.flock = some caller ∧ grants c.env caller l = true ∧
      l' = applyLock caller l := by
  unfold fcntlSetlk at h
  cases hm : posixMakeLock c.opener c.flock with
  | none => simp [hm] at h
  | some caller =>
    simp only [hm, posixLockFile] at h
    split_ifs at h with hmem hfree
    refine ⟨caller, rfl, ?_, (Outcome.done.inj h).symm⟩
    rw [grants, Bool.and_eq_true, Bool.not_eq_true']
    exact ⟨by simpa using hmem, Bool.eq_false_of_not_eq_true hfree⟩

theorem exactCall_done {c : Call} {caller : FileLock}
    (h : fcntlSetlk l c = .done l') (hm : posixMakeLock c.opener c.flock = some caller) :
    exactCall l c = true ↔ wraps caller l = false := by
  obtain ⟨caller', hm', hgrants, -⟩ := fcntlSetlk_done h
  obtain rfl : caller = caller' := Option.some.inj (hm.symm.trans hm')
  simp [exactCall, hm, hgrants]

theorem tidy_nil : Tidy [] := by
  refine ⟨by simp, fun o => by simp [Contiguous], fun o => ?_⟩
  simp [locksOf]

theorem step_tidy {c : Call} (hl : Tidy l) (hc : exactCall l c = true)
    (h : step l c = some l') : Tidy l' := by
  unfold step at h
  cases hout : fcntlSetlk l c with
  | done m =>
    obtain ⟨caller, hm, -, rfl⟩ := fcntlSetlk_done hout
    obtain ⟨hr, hp⟩ := posixMakeLock_inRange hm
    simp only [hout, Option.some.injEq] at h
    rw [← h]
    exact (applyLock_spec hl hr hp ((exactCall_done hout hm).1 hc)).2
  | fail e | sleeps =>
    simp only [hout, Option.some.injEq] at h
    exact h ▸ hl

/-- **POSIX locks are byte-exact until a request ends at the largest offset.** In every run of calls none of which `wraps`,
the list stays tidy; and of the further calls that return 0, exactly those that do not are byte-exact and leave a tidy list.
-/
theorem posixLocks_exact_iff {l : List FileLock}
    (hr : ReachesBy step (fun l c => exactCall l c = true) [] l) :
    Tidy l ∧ ∀ (c : Call) (caller : FileLock) (l' : List FileLock),
      posixMakeLock c.opener c.flock = some caller → fcntlSetlk l c = .done l' →
        ((ByteExact caller l l' ∧ Tidy l') ↔ exactCall l c = true) := by
  have hl : Tidy l := hr.invariant tidy_nil fun _ _ _ hs hc h => step_tidy hs hc h
  refine ⟨hl, fun c caller l' hm hdone => ?_⟩
  obtain ⟨hrange, hp⟩ := posixMakeLock_inRange hm
  obtain ⟨caller', hm', -, rfl⟩ := fcntlSetlk_done hdone
  obtain rfl : caller = caller' := Option.some.inj (hm.symm.trans hm')
  rw [exactCall_done hdone hm]
  constructor
  · rintro ⟨-, htidy⟩
    rw [← Bool.not_eq_true]
    exact fun hw => not_tidy_of_wraps hl hrange hw htidy
  · exact applyLock_spec hl hrange hp

/-- A process write-locks the first ten bytes. -/
def lockHead : Call where
  opener := { fPos := 0, iSize := 0, files := 1, pid := 1 }
  flock := { lType := 1, lWhence := 0, lStart := 0, lLen := 10 }
  wait := false
  env := { allocated := true, deadlock := false, signalPending := false }

/-- The same process read-locks everything from byte 5 on. -/
def lockTail : Call :=
  { lockHead with flock := { lType := 0, lWhence := 0, lStart := 5, lLen := 0 } }

/-- The same process write-locks the whole file. -/
def lockAll : Call :=
  { lockHead with flock := { lType := 1, lWhence := 0, lStart := 0, lLen := 0 } }

def unlockHead : Call :=
  { lockHead with flock := { lType := 2, lWhence := 0, lStart := 0, lLen := 10 } }

def lockOf (t : LockType) (s e : ℤ) : FileLock :=
  { flOwner := 1, flPid := 1, flPosix := true, flType := t, flStart := s, flEnd := e }

/-- A request up to the largest offset that meets a lock of the other type only. -/
theorem posixLocks_exact_tail : ByteExact (lockOf .rdlck 5 offsetMax) [lockOf .wrlck 0 9]
      [lockOf .wrlck 0 4, lockOf .rdlck 5 offsetMax] :=
  have hx : exec step exactCall [] [lockHead] = some [lockOf .wrlck 0 9] := by decide
  (((posixLocks_exact_iff (ReachesBy.of_exec _ _ _ hx)).2 lockTail _ _ (by decide) (by decide)).2
    (by decide)).1

/-- **The whole file locked twice.** The second request is not merged with the first lock, and unlocking the first bytes,
which returns 0, leaves them locked. -/
theorem lockAll_twice : ∃ l l' l'', Reaches step [] l ∧ fcntlSetlk l lockAll = .done l' ∧ ¬ Tidy l' ∧
    Reaches step [] l' ∧ fcntlSetlk l' unlockHead = .done l'' ∧
    typeAt l'' (1, 1) 0 = some .wrlck ∧ ¬ ByteExact (lockOf .unlck 0 9) l' l'' := by
  refine ⟨[lockOf .wrlck 0 offsetMax], [lockOf .wrlck 0 offsetMax, lockOf .wrlck 0 offsetMax],
    [lockOf .wrlck 10 offsetMax, lockOf .wrlck 0 offsetMax],
    Reaches.of_exec [lockAll] _ _ (by decide), by decide, ?_,
    Reaches.of_exec [lockAll, lockAll] _ _ (by decide), by decide, by decide, ?_⟩
  · intro h
    have := h.apart (1, 1)
    revert this
    decide
  · intro h
    have := h (1, 1) 0 (by decide) (by decide)
    revert this
    decide

/-! ### Exclusion -/

/-- A byte that one owner has locked for writing is locked by no other owner. -/
def Exclusive (l : List FileLock) : Prop :=
  ∀ o o' b, 0 ≤ b → b ≤ offsetMax → o ≠ o' → typeAt l o b = some .wrlck → typeAt l o' b = none

theorem exists_of_typeAt {o : ℕ × ℕ} {b : ℤ} {t : LockType} (h : typeAt l o b = some t) :
    ∃ fl ∈ l, fl.owner = o ∧ fl.flType = t ∧ fl.flStart ≤ b ∧ b ≤ fl.flEnd := by
  obtain ⟨fl, hfind, rfl⟩ := Option.map_eq_some_iff.mp h
  have hmem := mem_filter.mp (mem_of_find?_eq_some hfind)
  have hcov := find?_some hfind
  simp only [covers, Bool.and_eq_true, decide_eq_true_eq] at hcov
  exact ⟨fl, hmem.1, of_decide_eq_true hmem.2, rfl, hcov⟩

/-- What a request that is granted may find of another owner on its bytes. -/
theorem granted_cases {c : Call} {caller fl : FileLock} {b : ℤ} (hl : Tidy l) (hdone : fcntlSetlk l c = .done l')
    (hm : posixMakeLock c.opener c.flock = some caller) (hfl : fl ∈ l) (hne : fl.owner ≠ caller.owner)
    (hb : caller.flStart ≤ b ∧ b ≤ caller.flEnd) (hb' : fl.flStart ≤ b ∧ b ≤ fl.flEnd) :
    caller.flType = .unlck ∨ caller.flType = .rdlck ∧ fl.flType ≠ .wrlck := by
  obtain hu | hu := eq_or_ne caller.flType .unlck
  · exact .inl hu
  have hno : posixLocksConflict caller fl = false := by
    by_contra hyes
    have hany : l.any (posixLocksConflict caller) = true := any_eq_true.mpr ⟨fl, hfl, by simpa using hyes⟩
    simp only [fcntlSetlk, hm, posixLockFile, hany] at hdone
    split_ifs at hdone
    simp_all
  have hown : locksSameOwner caller fl = false := by
    rw [← Bool.not_eq_true, locksSameOwner_iff]
    exact hne.symm
  have hover : locksOverlap caller fl = true := by
    simp only [locksOverlap, Bool.and_eq_true, decide_eq_true_eq]
    omega
  rw [posixLocksConflict, (hl.held fl hfl).1, hown, locksConflict, hover] at hno
  cases ht : caller.flType with
  | unlck => exact absurd ht hu
  | rdlck => simpa [ht] using hno
  | wrlck => simp [ht] at hno

theorem step_exclusive {c : Call} (hl : Tidy l) (hx : Exclusive l) (hc : exactCall l c = true)
    (h : step l c = some l') : Exclusive l' := by
  unfold step at h
  cases hout : fcntlSetlk l c with
  | done m =>
    obtain ⟨caller, hm, -, rfl⟩ := fcntlSetlk_done hout
    obtain ⟨hr, hp⟩ := posixMakeLock_inRange hm
    have hexact := (applyLock_spec hl hr hp ((exactCall_done hout hm).1 hc)).1
    simp only [hout, Option.some.injEq] at h
    subst h
    intro o o' b h0 hmax hne hw
    rw [hexact o b h0 hmax] at hw
    rw [hexact o' b h0 hmax]
    split_ifs at hw ⊢ with h1 h2 h2
    · exact absurd (h2.1.trans h1.1.symm) hne
    · obtain ⟨fl, hfl, rfl, hwr, hb⟩ := exists_of_typeAt hw
      obtain hu | ⟨-, hu⟩ := granted_cases hl hout hm hfl (fun he => hne (he.trans h1.1.symm)) h1.2 hb
      · rw [hu]
        rfl
      · exact absurd hwr hu
    · -- the caller has got the byte for writing
      by_contra hsome
      obtain ⟨t, ht⟩ := Option.ne_none_iff_exists'.mp hsome
      obtain ⟨fl, hfl, rfl, -, hb⟩ := exists_of_typeAt ht
      have hcases := granted_cases hl hout hm hfl (fun he => hne (h2.1.trans he.symm)) h2.2 hb
      obtain hu | ⟨hu, -⟩ := hcases <;> simp [hu, LockType.held] at hw
    · exact hx o o' b h0 hmax hne hw
  | fail e | sleeps =>
    simp only [hout, Option.some.injEq] at h
    exact h ▸ hx

/-- **Exclusion.**  In every run of calls none of which `wraps`, no two owners have a byte locked if one of them has it
locked for writing. -/
theorem exclusive_of_exactCall (hr : ReachesBy step (fun l c => exactCall l c = true) [] l) : Exclusive l := by
  have h : Tidy l ∧ Exclusive l := by
    refine hr.invariant (I := fun l => Tidy l ∧ Exclusive l) ⟨tidy_nil, fun o o' b _ _ _ hw => ?_⟩ fun _ _ _ hs hc h =>
      ⟨step_tidy hs.1 hc h, step_exclusive hs.1 hs.2 hc h⟩
    cases hw
  exact h.2

/-- Another process read-locks ten bytes from `start` on. -/
def readFrom (start : ℤ) : Call :=
  { lockHead with
    opener := { fPos := 0, iSize := 0, files := 2, pid := 2 }
    flock := { lType := 0, lWhence := 0, lStart := start, lLen := 10 } }

/-- The other process is refused bytes 5 to 14 and gets bytes 10 to 19. -/
theorem exclusive_of_exactCall_two : fcntlSetlk [lockOf .wrlck 0 9] (readFrom 5) = .fail .eagain ∧
    Exclusive [lockOf .wrlck 0 9, { lockOf .rdlck 10 19 with flOwner := 2, flPid := 2 }] :=
  ⟨by decide, exclusive_of_exactCall (ReachesBy.of_exec [lockHead, readFrom 5, readFrom 10] _ _ (by decide))⟩

end I370Linux.PosixLocks
