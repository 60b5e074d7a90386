import I370Linux.Runs

/-! # The user ids of a task and its capabilities

The model of `sys_setuid`, `sys_setreuid`, `sys_setresuid`, `sys_setfsuid` and `cap_emulate_setxuid` of
`kernel/sys.c`.  The accounting of the processes of a user, which three of the calls also do, is in
`UserCount`.

What a call does to a task without `CAP_SETUID` is `Drawn`: every id it leaves is one that the task had,
and it gains no capability.  So an id and a capability that a task has given up do not come back
(`privileges_stay_dropped`). -/

namespace I370Linux.Credentials

open Runs

abbrev Uid := BitVec 32

/-- A `kernel_cap_t`. -/
abbrev Cap := BitVec 32

abbrev CAP_SETUID : ℕ := 7
abbrev CAP_FS_MASK : Cap := 0x1f
abbrev EPERM : ℤ := 1

/-- `(uid_t) -1`, which leaves an id as it is. -/
abbrev unchanged : Uid := 0xffffffff

structure Task where
  uid : Uid
  euid : Uid
  suid : Uid
  fsuid : Uid
  capPermitted : Cap
  capEffective : Cap
  dumpable : Bool
deriving DecidableEq, Repr

namespace Task

def capRaised (c : Cap) (flag : ℕ) : Bool := c &&& 1 <<< flag ≠ 0

/-- `capable` of the current task. -/
def capable (t : Task) (cap : ℕ) : Bool := capRaised t.capEffective cap

def capEmulateSetxuid (t : Task) (oldRuid oldEuid oldSuid : Uid) : Task :=
  let dropped := (oldRuid = 0 ∨ oldEuid = 0 ∨ oldSuid = 0) ∧ t.uid ≠ 0 ∧ t.euid ≠ 0 ∧ t.suid ≠ 0
  let permitted := if dropped then 0 else t.capPermitted
  let effective := if dropped then 0 else t.capEffective
  let effective := if oldEuid = 0 ∧ t.euid ≠ 0 then 0 else effective
  let effective := if oldEuid ≠ 0 ∧ t.euid = 0 then permitted else effective
  { t with capPermitted := permitted, capEffective := effective }

/-- The end of the calls that change the three ids: `dumpable`, and the capabilities unless
`SECURE_NO_SETUID_FIXUP` is set. -/
def finish (fix : Bool) (old t : Task) : Task :=
  let t := { t with dumpable := if t.euid ≠ old.euid then false else t.dumpable }
  if fix then t.capEmulateSetxuid old.uid old.euid old.suid else t

def sysSetreuid (fix : Bool) (t : Task) (ruid euid : Uid) : ℤ × Task :=
  if ruid ≠ unchanged ∧ ¬ (t.uid = ruid ∨ t.euid = ruid ∨ t.capable CAP_SETUID) then (-EPERM, t)
  else if euid ≠ unchanged ∧ ¬ (t.uid = euid ∨ t.euid = euid ∨ t.suid = euid ∨ t.capable CAP_SETUID)
    then (-EPERM, t)
  else
    let newRuid := if ruid ≠ unchanged then ruid else t.uid
    let newEuid := if euid ≠ unchanged then euid else t.euid
    (0, finish fix t { t with
      uid := newRuid
      euid := newEuid
      suid := if ruid ≠ unchanged ∨ euid ≠ unchanged ∧ euid ≠ t.uid then newEuid else t.suid
      fsuid := newEuid })

def sysSetuid (fix : Bool) (t : Task) (uid : Uid) : ℤ × Task :=
  if t.capable CAP_SETUID then
    (0, finish fix t { t with uid := uid, euid := uid, suid := uid, fsuid := uid })
  else if uid = t.uid ∨ uid = t.suid then (0, finish fix t { t with euid := uid, fsuid := uid })
  else (-EPERM, t)

/-- The test of one argument of `sys_setresuid`. -/
def mayTake (t : Task) (id : Uid) : Bool :=
  id = unchanged ∨ id = t.uid ∨ id = t.euid ∨ id = t.suid

def sysSetresuid (fix : Bool) (t : Task) (ruid euid suid : Uid) : ℤ × Task :=
  if !t.capable CAP_SETUID && !(t.mayTake ruid && t.mayTake euid && t.mayTake suid) then (-EPERM, t)
  else
    (0, finish fix t { t with
      uid := if ruid ≠ unchanged then ruid else t.uid
      euid := if euid ≠ unchanged then euid else t.euid
      fsuid := if euid ≠ unchanged then euid else t.fsuid
      suid := if suid ≠ unchanged then suid else t.suid })

/-- `sys_setfsuid`; the result is the old id, whether the call has an effect or not. -/
def sysSetfsuid (fix : Bool) (t : Task) (uid : Uid) : Uid × Task :=
  let fsuid := if uid = t.uid ∨ uid = t.euid ∨ uid = t.suid ∨ uid = t.fsuid ∨ t.capable CAP_SETUID then
    uid else t.fsuid
  let effective := if fix ∧ t.fsuid = 0 ∧ fsuid ≠ 0 then t.capEffective &&& ~~~CAP_FS_MASK
    else t.capEffective
  let effective := if fix ∧ t.fsuid ≠ 0 ∧ fsuid = 0 then
    effective ||| (t.capPermitted &&& CAP_FS_MASK) else effective
  (t.fsuid, { t with
    fsuid := fsuid
    dumpable := if fsuid ≠ t.fsuid then false else t.dumpable
    capEffective := effective })

end Task

/-- The calls.  `fix` says that `SECURE_NO_SETUID_FIXUP` is clear. -/
inductive Call where
  | setuid (uid : Uid)
  | setreuid (ruid euid : Uid)
  | setresuid (ruid euid suid : Uid)
  | setfsuid (uid : Uid)
deriving DecidableEq, Repr

def call (fix : Bool) (t : Task) : Call → Task
  | .setuid uid => (t.sysSetuid fix uid).2
  | .setreuid ruid euid => (t.sysSetreuid fix ruid euid).2
  | .setresuid ruid euid suid => (t.sysSetresuid fix ruid euid suid).2
  | .setfsuid uid => (t.sysSetfsuid fix uid).2

def step (fix : Bool) (t : Task) (a : Call) : Option Task := some (call fix t a)

/-! ### Sets of capabilities -/

/-- `cap_issubset`. -/
def CapSubset (a b : Cap) : Prop := a &&& b = a

section Subset

variable {a b c : Cap}

theorem CapSubset.refl (a : Cap) : CapSubset a a := BitVec.and_self

theorem CapSubset.zero (a : Cap) : CapSubset 0 a := BitVec.zero_and

theorem CapSubset.trans (h : CapSubset a b) (h' : CapSubset b c) : CapSubset a c := by
  unfold CapSubset at *
  rw [← h, BitVec.and_assoc, h']

theorem CapSubset.and_left (h : CapSubset a b) (m : Cap) : CapSubset (a &&& m) b := by
  unfold CapSubset at *
  rw [BitVec.and_assoc, BitVec.and_comm m b, ← BitVec.and_assoc, h]

theorem CapSubset.or (h : CapSubset a c) (h' : CapSubset b c) : CapSubset (a ||| b) c := by
  unfold CapSubset at *
  rw [BitVec.and_or_distrib_right, h, h']

theorem CapSubset.not_raised {flag : ℕ} (h : CapSubset a b) (hb : Task.capRaised b flag = false) :
    Task.capRaised a flag = false := by
  unfold Task.capRaised at *
  rw [decide_eq_false_iff_not, not_not] at *
  rw [← h, BitVec.and_assoc, hb]
  exact BitVec.and_zero

end Subset

/-! ### One call -/

def Task.HasId (t : Task) (id : Uid) : Prop := id = t.uid ∨ id = t.euid ∨ id = t.suid ∨ id = t.fsuid

/-- The capabilities of `t'` are among those of `t`. -/
structure Reduced (t t' : Task) : Prop where
  permitted : CapSubset t'.capPermitted t.capPermitted
  effective : CapSubset t.capEffective t.capPermitted → CapSubset t'.capEffective t'.capPermitted

/-- The ids of `t'` are drawn from those of `t`. -/
structure Drawn (t t' : Task) : Prop where
  uid : t.HasId t'.uid
  euid : t.HasId t'.euid
  suid : t.HasId t'.suid
  fsuid : t.HasId t'.fsuid

variable {fix : Bool} {t t' t'' : Task} {id : Uid}

theorem Drawn.refl (t : Task) : Drawn t t :=
  ⟨.inl rfl, .inr (.inl rfl), .inr (.inr (.inl rfl)), .inr (.inr (.inr rfl))⟩

theorem Drawn.hasId (h : Drawn t t') (hid : t'.HasId id) : t.HasId id := by
  obtain rfl | rfl | rfl | rfl := hid
  · exact h.uid
  · exact h.euid
  · exact h.suid
  · exact h.fsuid

theorem Drawn.trans (h : Drawn t t') (h' : Drawn t' t'') : Drawn t t'' :=
  ⟨h.hasId h'.uid, h.hasId h'.euid, h.hasId h'.suid, h.hasId h'.fsuid⟩

theorem Reduced.refl (t : Task) : Reduced t t := ⟨.refl _, fun h => h⟩

theorem Reduced.trans (h : Reduced t t') (h' : Reduced t' t'') : Reduced t t'' :=
  ⟨h'.permitted.trans h.permitted, fun he => h'.effective (h.effective he)⟩

theorem reduced_capEmulateSetxuid (t : Task) (oldRuid oldEuid oldSuid : Uid) :
    Reduced t (t.capEmulateSetxuid oldRuid oldEuid oldSuid) := by
  unfold Task.capEmulateSetxuid
  constructor
  · dsimp only
    split_ifs
    · exact .zero _
    · exact .refl _
  · intro h
    dsimp only
    split_ifs
    all_goals first | exact h | exact .zero _ | exact .refl _

theorem finish_ids (fix : Bool) (old t : Task) :
    (Task.finish fix old t).uid = t.uid ∧ (Task.finish fix old t).euid = t.euid ∧
      (Task.finish fix old t).suid = t.suid ∧ (Task.finish fix old t).fsuid = t.fsuid := by
  unfold Task.finish
  split_ifs <;> exact ⟨rfl, rfl, rfl, rfl⟩

variable {old t₀ : Task}

theorem Drawn.finish (h : Drawn old t) (fix : Bool) : Drawn old (Task.finish fix old t) := by
  obtain ⟨hu, he, hs, hf⟩ := finish_ids fix old t
  constructor
  · rw [hu]
    exact h.uid
  · rw [he]
    exact h.euid
  · rw [hs]
    exact h.suid
  · rw [hf]
    exact h.fsuid

theorem reduced_finish (hp : t.capPermitted = old.capPermitted)
    (he : t.capEffective = old.capEffective) (fix : Bool) : Reduced old (Task.finish fix old t) := by
  have hdump : Reduced old { t with dumpable := if t.euid ≠ old.euid then false else t.dumpable } := by
    constructor
    · rw [hp]
      exact .refl _
    · rw [hp, he]
      exact fun h => h
  unfold Task.finish
  by_cases hfix : fix = true
  · rw [if_pos hfix]
    exact hdump.trans (reduced_capEmulateSetxuid _ _ _ _)
  · rw [if_neg hfix]
    exact hdump

theorem finish_drops (h0 : old.uid = 0 ∨ old.euid = 0 ∨ old.suid = 0)
    (hu : t.uid ≠ 0) (he : t.euid ≠ 0) (hs : t.suid ≠ 0) :
    (Task.finish true old t).capPermitted = 0 ∧ (Task.finish true old t).capEffective = 0 := by
  have hdropped : (old.uid = 0 ∨ old.euid = 0 ∨ old.suid = 0) ∧ t.uid ≠ 0 ∧ t.euid ≠ 0 ∧ t.suid ≠ 0 :=
    ⟨h0, hu, he, hs⟩
  have hgain : ¬ (old.euid ≠ 0 ∧ t.euid = 0) := fun h => he h.2
  unfold Task.finish Task.capEmulateSetxuid
  dsimp only
  rw [if_pos rfl, if_neg hgain]
  constructor
  · exact if_pos hdropped
  · dsimp only
    rw [if_pos hdropped]
    exact ite_self _

/-- What the calls other than `sys_setfsuid` do: nothing, or they set the ids and end in `finish`.
Without `CAP_SETUID` the ids they set are drawn from those of the task. -/
theorem call_cases (fix : Bool) (t : Task) (a : Call) : call fix t a = t ∨ (∃ uid, a = .setfsuid uid) ∨
    ∃ n : Task, call fix t a = Task.finish fix t n ∧ n.capPermitted = t.capPermitted ∧
      n.capEffective = t.capEffective ∧ (t.capable CAP_SETUID = false → Drawn t n) := by
  have hdrawn := Drawn.refl t
  cases a with
  | setuid uid =>
    unfold call Task.sysSetuid
    dsimp only
    split
    case isTrue hcap =>
      refine .inr (.inr ⟨_, rfl, rfl, rfl, fun h => ?_⟩)
      rw [hcap] at h
      cases h
    · split
      case isTrue huid =>
        have hid : t.HasId uid := huid.elim .inl fun h => .inr (.inr (.inl h))
        exact .inr (.inr ⟨_, rfl, rfl, rfl, fun _ => ⟨hdrawn.uid, hid, hdrawn.suid, hid⟩⟩)
      · exact .inl rfl
  | setreuid ruid euid =>
    unfold call Task.sysSetreuid
    dsimp only
    split
    · exact .inl rfl
    case isFalse hr =>
      split
      · exact .inl rfl
      case isFalse he =>
        refine .inr (.inr ⟨_, rfl, rfl, rfl, fun hcap => ?_⟩)
        rw [hcap] at hr he
        have hruid : t.HasId (if ruid ≠ unchanged then ruid else t.uid) := by
          split_ifs with hne
          · obtain h | h | h := not_not.mp (not_and.mp hr hne)
            · exact .inl h.symm
            · exact .inr (.inl h.symm)
            · cases h
          · exact hdrawn.uid
        have heuid : t.HasId (if euid ≠ unchanged then euid else t.euid) := by
          split_ifs with hne
          · obtain h | h | h | h := not_not.mp (not_and.mp he hne)
            · exact .inl h.symm
            · exact .inr (.inl h.symm)
            · exact .inr (.inr (.inl h.symm))
            · cases h
          · exact hdrawn.euid
        refine ⟨hruid, heuid, ?_, heuid⟩
        dsimp only
        split
        · exact heuid
        · exact hdrawn.suid
  | setresuid ruid euid suid =>
    unfold call Task.sysSetresuid
    dsimp only
    split
    · exact .inl rfl
    case isFalse hok =>
      refine .inr (.inr ⟨_, rfl, rfl, rfl, fun hcap => ?_⟩)
      rw [hcap, Bool.not_false, Bool.true_and, Bool.not_eq_true', Bool.not_eq_false, Bool.and_eq_true,
        Bool.and_eq_true] at hok
      have hid : ∀ id old : Uid, t.mayTake id = true → t.HasId old →
          t.HasId (if id ≠ unchanged then id else old) := by
        intro id old hmay hold
        split_ifs with hne
        · obtain h | h | h | h := of_decide_eq_true hmay
          · exact absurd h hne
          · exact .inl h
          · exact .inr (.inl h)
          · exact .inr (.inr (.inl h))
        · exact hold
      exact ⟨hid ruid _ hok.1.1 hdrawn.uid, hid euid _ hok.1.2 hdrawn.euid,
        hid suid _ hok.2 hdrawn.suid, hid euid _ hok.1.2 hdrawn.fsuid⟩
  | setfsuid uid => exact .inr (.inl ⟨uid, rfl⟩)

theorem reduced_sysSetfsuid (fix : Bool) (t : Task) (uid : Uid) : Reduced t (t.sysSetfsuid fix uid).2 := by
  refine ⟨.refl _, fun h => ?_⟩
  have hfs : CapSubset (t.capPermitted &&& CAP_FS_MASK) t.capPermitted := CapSubset.and_left (.refl _) _
  have hclear : CapSubset (t.capEffective &&& ~~~CAP_FS_MASK) t.capPermitted := h.and_left _
  unfold Task.sysSetfsuid
  dsimp only
  split_ifs
  all_goals first | exact h | exact hclear | exact h.or hfs | exact hclear.or hfs

theorem drawn_sysSetfsuid (hcap : t.capable CAP_SETUID = false) (uid : Uid) :
    Drawn t (t.sysSetfsuid fix uid).2 := by
  have hdrawn := Drawn.refl t
  refine { hdrawn with fsuid := ?_ }
  unfold Task.sysSetfsuid
  split
  case isTrue huid =>
    rw [hcap] at huid
    obtain h | h | h | h | h := huid
    · exact .inl h
    · exact .inr (.inl h)
    · exact .inr (.inr (.inl h))
    · exact .inr (.inr (.inr h))
    · cases h
  · exact hdrawn.fsuid

theorem call_reduced (fix : Bool) (t : Task) (a : Call) : Reduced t (call fix t a) := by
  obtain h | ⟨uid, rfl⟩ | ⟨n, h, hp, he, -⟩ := call_cases fix t a
  · rw [h]
    exact .refl t
  · exact reduced_sysSetfsuid fix t uid
  · rw [h]
    exact reduced_finish hp he fix

theorem call_drawn (hcap : t.capable CAP_SETUID = false) (a : Call) : Drawn t (call fix t a) := by
  obtain h | ⟨uid, rfl⟩ | ⟨n, h, -, -, hn⟩ := call_cases fix t a
  · rw [h]
    exact .refl t
  · exact drawn_sysSetfsuid hcap uid
  · rw [h]
    exact (hn hcap).finish fix

/-- A call that gives up the last of the three root ids takes every capability. -/
theorem call_drops {a : Call} (h0 : t.uid = 0 ∨ t.euid = 0 ∨ t.suid = 0)
    (hu : (call true t a).uid ≠ 0) (he : (call true t a).euid ≠ 0) (hs : (call true t a).suid ≠ 0) :
    (call true t a).capPermitted = 0 ∧ (call true t a).capEffective = 0 := by
  obtain h | ⟨uid, rfl⟩ | ⟨n, h, -⟩ := call_cases true t a
  · rw [h] at hu he hs
    exact (h0.elim hu fun h0 => h0.elim he hs).elim
  · exact (h0.elim hu fun h0 => h0.elim he hs).elim
  · obtain ⟨hnu, hne, hns, -⟩ := finish_ids true t n
    rw [h] at hu he hs ⊢
    rw [hnu] at hu
    rw [hne] at he
    rw [hns] at hs
    exact finish_drops h0 hu he hs

/-! ### Runs of calls -/

theorem run_drawn (hcap : Task.capRaised t₀.capPermitted CAP_SETUID = false)
    (heff : CapSubset t₀.capEffective t₀.capPermitted) (hr : Reaches (step fix) t₀ t) :
    Drawn t₀ t ∧ CapSubset t.capPermitted t₀.capPermitted ∧ CapSubset t.capEffective t.capPermitted := by
  refine ReachesBy.invariant (I := fun t => Drawn t₀ t ∧ CapSubset t.capPermitted t₀.capPermitted ∧
    CapSubset t.capEffective t.capPermitted) hr ⟨.refl t₀, .refl _, heff⟩ fun s a s' h _ hs => ?_
  obtain ⟨hdrawn, hperm, hsub⟩ := h
  cases hs
  have hred := call_reduced fix s a
  have hcap' : s.capable CAP_SETUID = false := (hsub.trans hperm).not_raised hcap
  exact ⟨hdrawn.trans (call_drawn hcap' a), hred.permitted.trans hperm, hred.effective hsub⟩

theorem run_no_root (hcap : t₀.capPermitted = 0) (heff : t₀.capEffective = 0) (h0 : ¬ t₀.HasId 0)
    (hr : Reaches (step fix) t₀ t) : ¬ t.HasId 0 ∧ t.capPermitted = 0 := by
  have hsub : CapSubset t₀.capEffective t₀.capPermitted := by
    rw [heff]
    exact .zero _
  obtain ⟨hdrawn, hperm, -⟩ := run_drawn (by rw [hcap]; decide) hsub hr
  refine ⟨fun h => h0 (hdrawn.hasId h), ?_⟩
  rw [hcap] at hperm
  exact hperm.symm.trans BitVec.and_zero

/-- **Dropped privileges stay dropped.** Without `CAP_SETUID` in the permitted set the ids of a task are drawn from the four
it had, and its capabilities do not grow; and once all ids are nonzero none becomes root's again and no capability permitted.
-/
theorem privileges_stay_dropped :
    (∀ (fix : Bool) (t₀ t : Task), Task.capRaised t₀.capPermitted CAP_SETUID = false →
      CapSubset t₀.capEffective t₀.capPermitted → Reaches (step fix) t₀ t →
      t₀.HasId t.uid ∧ t₀.HasId t.euid ∧ t₀.HasId t.suid ∧ t₀.HasId t.fsuid ∧
        CapSubset t.capEffective t.capPermitted ∧
        ∀ a, CapSubset (call fix t a).capPermitted t.capPermitted) ∧
    (∀ (t₀ t : Task) (a : Call), (t₀.uid = 0 ∨ t₀.euid = 0 ∨ t₀.suid = 0) →
      (call true t₀ a).uid ≠ 0 → (call true t₀ a).euid ≠ 0 → (call true t₀ a).suid ≠ 0 →
      (call true t₀ a).fsuid ≠ 0 → Reaches (step true) (call true t₀ a) t →
      t.uid ≠ 0 ∧ t.euid ≠ 0 ∧ t.suid ≠ 0 ∧ t.fsuid ≠ 0 ∧ t.capPermitted = 0) := by
  constructor
  · intro fix t₀ t hcap heff hr
    obtain ⟨hdrawn, -, hsub⟩ := run_drawn hcap heff hr
    exact ⟨hdrawn.uid, hdrawn.euid, hdrawn.suid, hdrawn.fsuid, hsub,
      fun a => (call_reduced fix t a).permitted⟩
  · intro t₀ t a h0 hu he hs hf hr
    obtain ⟨hperm, heff⟩ := call_drops h0 hu he hs
    have hroot : ¬ (call true t₀ a).HasId 0 := by
      rintro (h | h | h | h)
      · exact hu h.symm
      · exact he h.symm
      · exact hs h.symm
      · exact hf h.symm
    obtain ⟨hid, hcap⟩ := run_no_root hperm heff hroot hr
    exact ⟨fun h => hid (.inl h.symm), fun h => hid (.inr (.inl h.symm)),
      fun h => hid (.inr (.inr (.inl h.symm))), fun h => hid (.inr (.inr (.inr h.symm))), hcap⟩

/-- A task that runs a program of user 7 for user 5, and a daemon of root that becomes user 5. -/
theorem privileges_stay_dropped_user :
    let t : Task := ⟨5, 7, 7, 7, 0, 0, true⟩
    let root : Task := ⟨0, 0, 0, 0, 0xffffffff, 0xffffffff, true⟩
    t.HasId (call true (call true t (.setreuid 7 5)) (.setuid 0)).uid ∧
      (call true (call true root (.setuid 5)) (.setresuid 0 0 0)).capPermitted = 0 := by
  intro t root
  refine ⟨?_, ?_⟩
  · have hr : Reaches (step true) t (call true (call true t (.setreuid 7 5)) (.setuid 0)) :=
      Reaches.of_exec [.setreuid 7 5, .setuid 0] _ _ rfl
    exact (privileges_stay_dropped.1 true t _ (by decide) (.refl _) hr).1
  · have hr : Reaches (step true) (call true root (.setuid 5))
        (call true (call true root (.setuid 5)) (.setresuid 0 0 0)) :=
      Reaches.of_exec [.setresuid 0 0 0] _ _ rfl
    exact (privileges_stay_dropped.2 root _ (.setuid 5) (by decide) (by decide) (by decide) (by decide)
      (by decide) hr).2.2.2.2

/-- **No call adds capabilities.** In every run the permitted set only shrinks, and the effective one stays in it. -/
theorem reduced_of_reaches (hr : Reaches (step fix) t t') : Reduced t t' := by
  refine ReachesBy.invariant (I := Reduced t) hr (.refl t) fun s a s' h _ hs => ?_
  cases hs
  exact h.trans (call_reduced fix s a)

theorem reduced_of_reaches_root : ∃ t : Task, t.euid = 5 ∧ Reduced ⟨0, 0, 0, 0, 0xff, 0xff, true⟩ t :=
  ⟨_, rfl, reduced_of_reaches (Reaches.of_exec [.setuid 5] _ (call true _ (.setuid 5)) rfl)⟩

end I370Linux.Credentials
