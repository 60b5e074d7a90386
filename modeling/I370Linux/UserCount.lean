import I370Linux.Census
import I370Linux.Credentials

/-! # The processes of a user

The model of the hash of `user_struct` structures in `kernel/fork.c` (`uid_find`, `free_uid`, `alloc_uid`)
and of the calls that use it: `do_fork`, `release`, and `sys_setuid`, `sys_setreuid` and `sys_setresuid` of
`Credentials`.  A call that may sleep is two steps, and the steps of all tasks interleave: an allocation in
`alloc_uid`, and everything between the test of the limit and the count in `do_fork`.

`Accounted` is the state of the books: one structure for each uid, every task with the structure of its
uid unless it sleeps in `alloc_uid`, and the count the number of its tasks.  `init_task` has no structure, and neither
have its children until they change their uid: a task without one is a task of root.
`accounted_iff_keepsAccount` says which steps keep it. -/

namespace I370Linux.UserCount

open Runs Credentials Function

/-- The address of a `user_struct`. -/
abbrev Addr := ℕ

structure User where
  count : ℤ
  uid : Uid
deriving DecidableEq, Repr

/-- Where a task sleeps: in `alloc_uid`, or in `do_fork` with a child that is not yet linked. -/
inductive Phase (ι : Type*) where
  | idle
  | allocating
  | forking (child : ι)
  | unborn (parent : ι)
deriving DecidableEq

/-- A slot for a task, which is `alive` from the end of its fork to its release.  `nproc` is the limit
`RLIMIT_NPROC`. -/
structure Task (ι : Type*) where
  alive : Bool
  phase : Phase ι
  cred : Credentials.Task
  user : Option Addr
  nproc : ℤ
deriving DecidableEq

structure World (ι : Type*) where
  task : ι → Task ι
  user : Addr → User
  hash : Fin 32 → List Addr

/-! ### The hash -/

/-- `uidhashfn`, with `UIDHASH_SZ` 32. -/
def uidhashfn (uid : Uid) : Fin 32 := ((uid >>> 8 ^^^ uid).setWidth 5).toFin

variable {ι : Type*}

namespace World

def setUser (w : World ι) (a : Addr) (u : User) : World ι := { w with user := update w.user a u }

/-- `atomic_inc` or `atomic_dec` of a count. -/
def addCount (w : World ι) (a : Addr) (n : ℤ) : World ι :=
  w.setUser a { w.user a with count := (w.user a).count + n }

theorem uid_addCount (w : World ι) (a : Addr) (n : ℤ) (b : Addr) :
    ((w.addCount a n).user b).uid = (w.user b).uid := by
  unfold addCount setUser
  dsimp only
  obtain rfl | hb := eq_or_ne b a
  · rw [update_self]
  · rw [update_of_ne hb]

theorem count_addCount (w : World ι) (a : Addr) (n : ℤ) (b : Addr) :
    ((w.addCount a n).user b).count = (w.user b).count + if b = a then n else 0 := by
  unfold addCount setUser
  dsimp only
  obtain rfl | hb := eq_or_ne b a
  · rw [update_self, if_pos rfl]
  · rw [update_of_ne hb, if_neg hb, add_zero]

/-- `uid_find`, which takes the uid as an `unsigned short`. -/
def uidFind (w : World ι) (uid : BitVec 16) (hashent : Fin 32) : Option Addr :=
  (w.hash hashent).find? fun a => (w.user a).uid = uid.setWidth 32

def uidHashInsert (w : World ι) (a : Addr) (hashent : Fin 32) : World ι :=
  { w with hash := update w.hash hashent (a :: w.hash hashent) }

theorem mem_uidHashInsert {w : World ι} {a b : Addr} {h i : Fin 32} :
    b ∈ (w.uidHashInsert a h).hash i ↔ b = a ∧ i = h ∨ b ∈ w.hash i := by
  unfold uidHashInsert
  dsimp only
  obtain rfl | hi := eq_or_ne i h
  · rw [update_self, List.mem_cons]
    simp only [and_true]
  · rw [update_of_ne hi]
    simp only [hi, and_false, false_or]

def uidHashRemove (w : World ι) (a : Addr) : World ι := { w with hash := fun h => (w.hash h).erase a }

section

variable [DecidableEq ι]

def setTask (w : World ι) (t : ι) (p : Task ι) : World ι := { w with task := update w.task t p }

def freeUid (w : World ι) (t : ι) : World ι :=
  match (w.task t).user with
  | none => w
  | some a =>
    let w := w.setTask t { w.task t with user := none }
    let w := w.addCount a (-1)
    if (w.user a).count = 0 then w.uidHashRemove a else w

/-- The end of `alloc_uid`, with a structure that was found or is new. -/
def attach (w : World ι) (t : ι) (a : Addr) : World ι :=
  (w.setTask t { w.task t with user := some a, phase := .idle }).addCount a 1

/-- `alloc_uid` up to the allocation, where it may sleep. -/
def allocUid (w : World ι) (t : ι) : World ι :=
  let uid := (w.task t).cred.uid
  match w.uidFind (uid.setWidth 16) (uidhashfn uid) with
  | some a => w.attach t a
  | none => w

/-- `alloc_uid` behind the allocation. -/
def allocUidEnd (w : World ι) (t : ι) : Option Addr → World ι
  | none => w.setTask t { w.task t with phase := .idle }
  | some a =>
    let uid := (w.task t).cred.uid
    ((w.setUser a ⟨0, uid⟩).uidHashInsert a (uidhashfn uid)).attach t a

end

/-! ### The calls -/

end World

/-- The uid for which a call gives the structure of the task back and gets another. -/
def accounts (t : Credentials.Task) : Call → Option Uid
  | .setuid uid => if t.capable CAP_SETUID ∧ uid ≠ t.uid then some uid else none
  | .setreuid ruid euid =>
    let new := (t.sysSetreuid false ruid euid).2.uid
    if new ≠ t.uid then some new else none
  | .setresuid ruid euid suid =>
    if (t.sysSetresuid false ruid euid suid).1 = 0 ∧ ruid ≠ unchanged then some ruid else none
  | .setfsuid _ => none

namespace World

variable [DecidableEq ι]

/-- The task gives its structure back and changes its uid. -/
def park (w : World ι) (t : ι) (cred : Credentials.Task) : World ι :=
  let w := w.freeUid t
  w.setTask t { w.task t with cred := cred, phase := .allocating }

/-- A call that changes uids, up to the place where it may sleep.  What the call does behind that place is
not seen by another task. -/
def setId (w : World ι) (t : ι) (fix : Bool) (a : Call) : World ι :=
  let cred := call fix (w.task t).cred a
  match accounts (w.task t).cred a with
  | none => w.setTask t { w.task t with cred := cred }
  | some _ => (w.park t cred).allocUid t

/-- `do_fork` up to where it may sleep; the child is a copy of the parent. -/
def doFork (w : World ι) (t child : ι) : World ι :=
  let p := w.task t
  if p.user.any fun a => (w.user a).count ≥ p.nproc then w
  else
    (w.setTask child { p with alive := false, phase := .unborn t }).setTask t { p with phase := .forking child }

/-- The end of `do_fork`. -/
def forkEnd (w : World ι) (t child : ι) : World ι :=
  let p := w.task child
  let w := (w.setTask t { w.task t with phase := .idle }).setTask child { p with alive := true, phase := .idle }
  match p.user with
  | none => w
  | some a => w.addCount a 1

/-- A `do_fork` that fails behind the test of the limit. -/
def forkFail (w : World ι) (t child : ι) : World ι :=
  (w.setTask t { w.task t with phase := .idle }).setTask child { w.task child with phase := .idle }

def release (w : World ι) (t : ι) : World ι :=
  let w := w.freeUid t
  w.setTask t { w.task t with alive := false }

end World

/-- The calls, cut where they sleep. -/
inductive Op (ι : Type*) where
  | setId (t : ι) (fix : Bool) (a : Call)
  | setIdEnd (t : ι) (q : Option Addr)
  | fork (t child : ι)
  | forkEnd (t : ι)
  | forkFail (t : ι)
  | release (t : ι)

/-- One step of one task.  A task that sleeps does nothing else, and an allocation gives memory that is not
in use. -/
def step [DecidableEq ι] (w : World ι) : Op ι → Option (World ι)
  | .setId t fix a =>
    if (w.task t).alive ∧ (w.task t).phase = .idle then some (w.setId t fix a) else none
  | .setIdEnd t q =>
    if (w.task t).phase = .allocating ∧ (∀ h, ∀ a ∈ w.hash h, q ≠ some a) then some (w.allocUidEnd t q)
    else none
  | .fork t child =>
    if (w.task t).alive ∧ (w.task t).phase = .idle ∧ (w.task child).alive = false ∧
        (w.task child).phase = .idle then some (w.doFork t child) else none
  | .forkEnd t =>
    match (w.task t).phase with
    | .forking child => some (w.forkEnd t child)
    | _ => none
  | .forkFail t =>
    match (w.task t).phase with
    | .forking child => some (w.forkFail t child)
    | _ => none
  | .release t =>
    if (w.task t).alive ∧ (w.task t).phase = .idle then some (w.release t) else none

/-! ### The books -/

/-- A live task with the structure `a`. -/
def Task.pointsTo (p : Task ι) (a : Addr) : Bool := p.alive && p.user = some a

namespace World

variable {p : Task ι} {a : Addr} {w w' : World ι} {t c : ι}

theorem pointsTo_eq (hp : p.alive = true) (hu : p.user = some a) (b : Addr) :
    p.pointsTo b = decide (b = a) := by
  unfold Task.pointsTo
  rw [hp, hu, Bool.true_and]
  simp only [Option.some.injEq, eq_comm]

theorem pointsTo_self (hp : p.alive = true) (hu : p.user = some a) :
    p.pointsTo a = true := (pointsTo_eq hp hu a).trans (decide_eq_true rfl)

theorem pointsTo_eq_false (hu : p.user = none) (b : Addr) : p.pointsTo b = false := by
  unfold Task.pointsTo
  rw [hu]
  exact Bool.and_false _

theorem pointsTo_dead (hp : p.alive = false) (b : Addr) : p.pointsTo b = false := by
  unfold Task.pointsTo
  rw [hp, Bool.false_and]

def Hashed (w : World ι) (a : Addr) : Prop := ∃ h, a ∈ w.hash h

theorem hashed_congr (h : w'.hash = w.hash) : w'.Hashed a ↔ w.Hashed a := by
  unfold Hashed
  rw [h]

/-- The task has the structure of its uid, or is a task of root without one. -/
def Owns (w : World ι) (t : ι) : Prop := (w.task t).user = none ∧ (w.task t).cred.uid = 0 ∨
  ∃ a, (w.task t).user = some a ∧ (w.user a).uid = (w.task t).cred.uid

def Quiescent (w : World ι) : Prop := ∀ t, (w.task t).alive = true → (w.task t).phase = .idle

def Settled (w : World ι) (t : ι) : Prop :=
  match (w.task t).phase with
  | .idle => (w.task t).alive = true → w.Owns t
  | .allocating => (w.task t).alive = true ∧ (w.task t).user = none
  | .forking c => (w.task t).alive = true ∧ w.Owns t ∧ (w.task c).alive = false ∧
      (w.task c).phase = .unborn t ∧ (w.task c).user = (w.task t).user ∧
      (w.task c).cred.uid = (w.task t).cred.uid
  | .unborn _ => (w.task t).alive = false

section

theorem Settled.frame (h : w.Settled t) (ht : w'.task t = w.task t)
    (hc : ∀ c, (w.task t).phase = .forking c → w'.task c = w.task c)
    (hu : ∀ a, (w.task t).pointsTo a = true → (w'.user a).uid = (w.user a).uid) : w'.Settled t := by
  have howns : (w.task t).alive = true → w.Owns t → w'.Owns t := by
    unfold Owns
    rw [ht]
    intro halive
    refine Or.imp_right fun ⟨a, ha, huid⟩ => ⟨a, ha, ?_⟩
    rw [hu a (pointsTo_self halive ha), huid]
  unfold Settled at h ⊢
  rw [ht]
  cases hp : (w.task t).phase with
  | idle =>
    rw [hp] at h
    exact fun halive => howns halive (h halive)
  | allocating | unborn _ =>
    rw [hp] at h
    exact h
  | forking c =>
    rw [hp] at h
    dsimp only at h ⊢
    rw [hc c hp]
    exact ⟨h.1, howns h.1 h.2.1, h.2.2⟩

theorem ne_of_alive (ht : (w.task t).alive = true) (hc : (w.task c).alive = false) : t ≠ c := by
  rintro rfl
  exact Bool.noConfusion (ht.symm.trans hc)

variable [DecidableEq ι]

theorem task_setTask_self (w : World ι) (t : ι) (p : Task ι) : (w.setTask t p).task t = p :=
  update_self ..

theorem task_setTask_of_ne {i : ι} (hi : i ≠ t) (w : World ι) (p : Task ι) :
    (w.setTask t p).task i = w.task i := update_of_ne hi ..

theorem task_freeUid (w : World ι) (t : ι) :
    (w.freeUid t).task = update w.task t { w.task t with user := none } := by
  unfold freeUid
  split
  case h_1 hnone =>
    rw [← hnone]
    exact (update_eq_self t w.task).symm
  case h_2 =>
    dsimp only
    split <;> rfl

theorem uid_freeUid (w : World ι) (t : ι) (b : Addr) : ((w.freeUid t).user b).uid = (w.user b).uid := by
  unfold freeUid
  split
  case h_1 => rfl
  case h_2 a _ =>
    dsimp only
    split <;> exact uid_addCount _ a (-1) b

theorem task_attach_self (w : World ι) (t : ι) (a : Addr) :
    (w.attach t a).task t = { w.task t with user := some a, phase := .idle } := update_self ..

theorem uid_attach (w : World ι) (t : ι) (a b : Addr) : ((w.attach t a).user b).uid = (w.user b).uid :=
  uid_addCount _ a 1 b

theorem settled_attach_iff (ht : (w.task t).alive = true) :
    (w.attach t a).Settled t ↔ (w.user a).uid = (w.task t).cred.uid := by
  unfold Settled Owns
  rw [task_attach_self]
  constructor
  · intro h
    obtain ⟨hnone, -⟩ | ⟨b, hb, huid⟩ := h ht
    · cases hnone
    rw [← Option.some.inj hb, uid_attach] at huid
    exact huid
  · intro h _
    exact .inr ⟨a, rfl, (uid_attach w t a a).trans h⟩

theorem forkEnd_eq (ha : (w.task c).user = some a) : w.forkEnd t c =
    ((w.setTask t { w.task t with phase := .idle }).setTask c
      { w.task c with alive := true, phase := .idle }).addCount a 1 := by
  unfold World.forkEnd
  dsimp only
  rw [ha]

end

variable [Fintype ι]

def charged (w : World ι) (a : Addr) : ℤ := census (Task.pointsTo · a) w.task

/-- The counts are the numbers of users. -/
structure Books (w : World ι) : Prop where
  nodup : ∀ h, (w.hash h).Nodup
  bucket : ∀ h, ∀ a ∈ w.hash h, uidhashfn (w.user a).uid = h
  unique : ∀ a b, w.Hashed a → w.Hashed b → (w.user a).uid = (w.user b).uid → a = b
  pointed : ∀ t a, (w.task t).pointsTo a = true → w.Hashed a
  count : ∀ a, w.Hashed a → (w.user a).count = w.charged a

structure Accounted (w : World ι) : Prop where
  books : w.Books
  settled : ∀ t, w.Settled t

/-- The accounting of a state in which no task is in the middle of a call. -/
structure Balanced (w : World ι) : Prop where
  unique : ∀ a b, w.Hashed a → w.Hashed b → (w.user a).uid = (w.user b).uid → a = b
  user : ∀ t, (w.task t).alive = true → (w.task t).user = none ∧ (w.task t).cred.uid = 0 ∨
    ∃ a, (w.task t).user = some a ∧ w.Hashed a ∧ (w.user a).uid = (w.task t).cred.uid ∧
      (w.user a).count = w.charged a

theorem Accounted.balanced (h : w.Accounted) (hq : w.Quiescent) : w.Balanced := by
  refine ⟨h.books.unique, fun t ht => ?_⟩
  have hset := h.settled t
  unfold Settled at hset
  rw [hq t ht] at hset
  refine (hset ht).imp_right fun ⟨a, ha, huid⟩ => ?_
  have hhash : w.Hashed a := h.books.pointed t a (pointsTo_self ht ha)
  exact ⟨a, ha, hhash, huid, h.books.count a hhash⟩

/-! ### Changes of the books -/

section Changes

theorem Books.retask [DecidableEq ι] (h : w.Books) (htask : w'.task = update w.task t p) (hhash : w'.hash = w.hash)
    (huid : ∀ a, (w'.user a).uid = (w.user a).uid) (hpoint : ∀ a, p.pointsTo a = true → w.Hashed a)
    (hcount : ∀ a, (w'.user a).count = (w.user a).count - (if (w.task t).pointsTo a then 1 else 0) +
      (if p.pointsTo a then 1 else 0)) : w'.Books where
  nodup := by
    rw [hhash]
    exact h.nodup
  bucket := by
    intro i a ha
    rw [hhash] at ha
    rw [huid]
    exact h.bucket i a ha
  unique := by
    intro a b ha hb
    rw [huid, huid]
    exact h.unique a b ((hashed_congr hhash).mp ha) ((hashed_congr hhash).mp hb)
  pointed := by
    intro i a hi
    apply (hashed_congr hhash).mpr
    rw [htask] at hi
    obtain rfl | hit := eq_or_ne i t
    · rw [update_self] at hi
      exact hpoint a hi
    · rw [update_of_ne hit] at hi
      exact h.pointed i a hi
  count := by
    intro a ha
    unfold charged
    rw [hcount, htask, census_update, h.count a ((hashed_congr hhash).mp ha)]
    rfl

theorem Books.setTask [DecidableEq ι] (h : w.Books) (hp : ∀ a, p.pointsTo a = (w.task t).pointsTo a) :
    (w.setTask t p).Books := by
  refine h.retask (t := t) (p := p) rfl rfl (fun _ => rfl) (fun a ha => ?_) fun a => ?_
  · exact h.pointed t a ((hp a).symm.trans ha)
  · rw [hp a]
    exact (sub_add_cancel _ _).symm

theorem Books.charge [DecidableEq ι] (h : w.Books) (ha : w.Hashed a) (hp : ∀ b, p.pointsTo b = decide (b = a))
    (hnone : ∀ b, (w.task t).pointsTo b = false) : ((w.setTask t p).addCount a 1).Books := by
  refine h.retask (t := t) (p := p) rfl rfl (uid_addCount _ a 1) (fun b hb => ?_) fun b => ?_
  · rw [hp] at hb
    rw [of_decide_eq_true hb]
    exact ha
  · rw [hp, hnone]
    refine (count_addCount _ a 1 b).trans ?_
    change (w.user b).count + _ = _
    by_cases hb : b = a <;> simp [hb]

theorem Books.uidHashRemove (h : w.Books) (ha : w.charged a = 0) : (w.uidHashRemove a).Books where
  nodup i := (h.nodup i).erase a
  bucket i b hb := h.bucket i b (List.mem_of_mem_erase hb)
  unique b c hb hc := by
    obtain ⟨i, hi⟩ := hb
    obtain ⟨j, hj⟩ := hc
    exact h.unique b c ⟨i, List.mem_of_mem_erase hi⟩ ⟨j, List.mem_of_mem_erase hj⟩
  pointed i b hb := by
    obtain ⟨j, hj⟩ := h.pointed i b hb
    have hne : b ≠ a := by
      rintro rfl
      have hpos : 0 < w.charged b := census_pos (p := (Task.pointsTo · b)) hb
      exact absurd ha hpos.ne'
    exact ⟨j, (List.mem_erase_of_ne hne).mpr hj⟩
  count b hb := by
    obtain ⟨i, hi⟩ := hb
    exact h.count b ⟨i, List.mem_of_mem_erase hi⟩

theorem Books.insert (h : w.Books) {uid : Uid} (ha : ¬ w.Hashed a)
    (huid : ∀ b, w.Hashed b → (w.user b).uid ≠ uid) :
    ((w.setUser a ⟨0, uid⟩).uidHashInsert a (uidhashfn uid)).Books := by
  set w' := (w.setUser a ⟨0, uid⟩).uidHashInsert a (uidhashfn uid)
  have hself : w'.user a = ⟨0, uid⟩ := update_self ..
  have hother : ∀ b, b ≠ a → w'.user b = w.user b := fun b hb => update_of_ne hb ..
  have hmem : ∀ i b, b ∈ w'.hash i ↔ b = a ∧ i = uidhashfn uid ∨ b ∈ w.hash i := fun i b => mem_uidHashInsert
  have hne : ∀ i b, b ∈ w.hash i → b ≠ a := by
    rintro i b hb rfl
    exact ha ⟨i, hb⟩
  have hhashed : ∀ b, w'.Hashed b → b = a ∨ w.Hashed b := by
    rintro b ⟨i, hi⟩
    exact ((hmem i b).mp hi).imp (·.1) (⟨i, ·⟩)
  refine ⟨fun i => ?_, fun i b hb => ?_, fun b c hb hc hbc => ?_, fun i b hb => ?_, fun b hb => ?_⟩
  · change (update w.hash _ _ i).Nodup
    by_cases hi : i = uidhashfn uid
    · subst hi
      rw [update_self]
      exact List.nodup_cons.mpr ⟨fun hm => ha ⟨_, hm⟩, h.nodup _⟩
    · rw [update_of_ne hi]
      exact h.nodup i
  · obtain ⟨rfl, rfl⟩ | hb := (hmem i b).mp hb
    · rw [hself]
    · rw [hother b (hne i b hb)]
      exact h.bucket i b hb
  · by_cases hba : b = a <;> by_cases hca : c = a
    · exact hba.trans hca.symm
    · subst hba
      rw [hself, hother c hca] at hbc
      exact absurd hbc.symm (huid c ((hhashed c hc).resolve_left hca))
    · subst hca
      rw [hself, hother b hba] at hbc
      exact absurd hbc (huid b ((hhashed b hb).resolve_left hba))
    · rw [hother b hba, hother c hca] at hbc
      exact h.unique b c ((hhashed b hb).resolve_left hba) ((hhashed c hc).resolve_left hca) hbc
  · obtain ⟨j, hj⟩ := h.pointed i b hb
    exact ⟨j, (hmem j b).mpr (.inr hj)⟩
  · obtain rfl | hba := eq_or_ne b a
    · rw [hself]
      symm
      apply census_eq_zero
      intro i
      apply Bool.eq_false_iff.mpr
      intro hi
      exact ha (h.pointed i b hi)
    · rw [hother b hba]
      exact h.count b ((hhashed b hb).resolve_left hba)

end Changes

/-! ### Frames -/

section Frames

section

variable (h : w.Accounted)
include h

theorem Accounted.forking (hp : (w.task t).phase = .forking c) :
    (w.task t).alive = true ∧ w.Owns t ∧ (w.task c).alive = false ∧ (w.task c).phase = .unborn t ∧
      (w.task c).user = (w.task t).user ∧ (w.task c).cred.uid = (w.task t).cred.uid := by
  have hset := h.settled t
  unfold Settled at hset
  rw [hp] at hset
  exact hset

theorem Accounted.allocating (hp : (w.task t).phase = .allocating) :
    (w.task t).alive = true ∧ (w.task t).user = none := by
  have hset := h.settled t
  unfold Settled at hset
  rw [hp] at hset
  exact hset

theorem Accounted.idle (ht : (w.task t).alive = true) (hp : (w.task t).phase = .idle) : w.Owns t := by
  have hset := h.settled t
  unfold Settled at hset
  rw [hp] at hset
  exact hset ht

theorem Accounted.not_forking_alive (ht : (w.task t).alive = true) (i : ι) :
    (w.task i).phase ≠ .forking t := by
  intro hp
  have hdead := (h.forking hp).2.2.1
  rw [ht] at hdead
  cases hdead

section

variable (hb : w'.Books) (hu : ∀ a, w.Hashed a → (w'.user a).uid = (w.user a).uid)
include hb hu

theorem Accounted.edit (S : Set ι) (hfix : ∀ i, i ∉ S → w'.task i = w.task i)
    (hS : ∀ i, i ∉ S → ∀ c ∈ S, (w.task i).phase ≠ .forking c) (hset : ∀ i ∈ S, w'.Settled i) : w'.Accounted := by
  refine ⟨hb, fun i => ?_⟩
  by_cases hi : i ∈ S
  · exact hset i hi
  apply (h.settled i).frame (hfix i hi)
  · intro c hc
    apply hfix c
    intro hmem
    exact hS i hi c hmem hc
  · intro a ha
    exact hu a (h.books.pointed i a ha)

theorem Accounted.edit_alive (ht : (w.task t).alive = true) (hfix : ∀ i, i ≠ t → w'.task i = w.task i)
    (hset : w'.Settled t) : w'.Accounted := by
  refine h.edit hb hu {t} hfix ?_ fun i hi => hi ▸ hset
  rintro j _ c rfl
  exact h.not_forking_alive ht j

theorem Accounted.edit_pair (ht : (w.task t).alive = true) (hc : ∀ i, (w.task i).phase = .forking c → i = t)
    (hfix : ∀ i, i ≠ t → i ≠ c → w'.task i = w.task i) (hset : w'.Settled t) (hset' : w'.Settled c) :
    w'.Accounted := by
  refine h.edit hb hu {t, c} ?_ ?_ ?_
  · intro j hj
    rw [Set.mem_insert_iff, Set.mem_singleton_iff, not_or] at hj
    exact hfix j hj.1 hj.2
  · rintro j hj d (rfl | rfl) hfork
    · exact h.not_forking_alive ht j hfork
    · exact hj (.inl (hc j hfork))
  · rintro i (rfl | rfl)
    · exact hset
    · exact hset'

end

theorem Accounted.parent_unique (hp : (w.task t).phase = .forking c) (i : ι)
    (hi : (w.task i).phase = .forking c) : i = t := by
  have heq := (h.forking hi).2.2.2.1.symm.trans (h.forking hp).2.2.2.1
  exact Phase.unborn.inj heq

end

theorem Accounted.insert (h : w.Accounted) {a : Addr} {uid : Uid} (ha : ¬ w.Hashed a)
    (huid : ∀ b, w.Hashed b → (w.user b).uid ≠ uid) :
    ((w.setUser a ⟨0, uid⟩).uidHashInsert a (uidhashfn uid)).Accounted := by
  refine ⟨h.books.insert ha huid, fun i => (h.settled i).frame rfl (fun _ _ => rfl) fun b hb => ?_⟩
  have hne : b ≠ a := by
    rintro rfl
    exact ha (h.books.pointed i b hb)
  exact congrArg User.uid (update_of_ne hne ..)

end Frames

/-! ### `free_uid` and `alloc_uid` -/

section Hash

variable [DecidableEq ι]

theorem Books.freeUid (h : w.Books) (ht : (w.task t).alive = true) : (w.freeUid t).Books := by
  unfold World.freeUid
  split
  case h_1 => exact h
  case h_2 a ha =>
    set v := (w.setTask t { w.task t with user := none }).addCount a (-1)
    have hbooks : v.Books := by
      refine h.retask (t := t) (p := { w.task t with user := none }) rfl rfl ?_ ?_ ?_
      · exact uid_addCount _ a (-1)
      · intro b hb
        rw [pointsTo_eq_false (p := { w.task t with user := none }) rfl] at hb
        cases hb
      · intro b
        rw [pointsTo_eq_false (p := { w.task t with user := none }) rfl, pointsTo_eq ht ha, count_addCount]
        change (w.user b).count + _ = _
        by_cases hb : b = a <;> simp [hb, sub_eq_add_neg]
    dsimp only
    split
    case isTrue hzero =>
      apply hbooks.uidHashRemove
      rw [← hbooks.count a, hzero]
      apply (hashed_congr rfl).mpr
      exact h.pointed t a (pointsTo_self ht ha)
    case isFalse => exact hbooks

theorem Books.attach (h : w.Books) (ht : (w.task t).alive = true) (hnone : (w.task t).user = none)
    (ha : w.Hashed a) : (w.attach t a).Books :=
  h.charge ha (pointsTo_eq ht rfl) (pointsTo_eq_false hnone)

end Hash

end World

/-! ### The calls -/

section Calls

open World

theorem uid_finish (fix : Bool) (old t : Credentials.Task) :
    (Credentials.Task.finish fix old t).uid = t.uid := by
  unfold Credentials.Task.finish
  dsimp only
  split <;> rfl

theorem uid_call (fix : Bool) (t : Credentials.Task) (a : Call) :
    (call fix t a).uid = (accounts t a).getD t.uid := by
  cases a with
  | setuid uid =>
    unfold call accounts Credentials.Task.sysSetuid
    dsimp only
    by_cases hcap : t.capable CAP_SETUID = true
    · rw [if_pos hcap, uid_finish]
      by_cases hu : uid = t.uid <;> simp [hcap, hu]
    · rw [if_neg hcap, if_neg (c := _ ∧ _) (fun h => hcap h.1)]
      split
      · exact uid_finish ..
      · rfl
  | setreuid ruid euid =>
    unfold call accounts
    dsimp only
    have hfix : (t.sysSetreuid fix ruid euid).2.uid = (t.sysSetreuid false ruid euid).2.uid := by
      unfold Credentials.Task.sysSetreuid
      split
      · rfl
      · split
        · rfl
        · rw [uid_finish, uid_finish]
    rw [hfix]
    split
    case isTrue => rfl
    case isFalse h => exact not_not.mp h
  | setresuid ruid euid suid =>
    unfold call accounts Credentials.Task.sysSetresuid
    dsimp only
    split
    case isTrue =>
      rfl
    case isFalse =>
      rw [uid_finish]
      by_cases hr : ruid = unchanged
      · have hsame : ¬ ((0 : ℤ) = 0 ∧ ruid ≠ unchanged) := fun h => h.2 hr
        rw [if_neg hsame]
        exact if_neg (not_not.mpr hr)
      · have hnew : (0 : ℤ) = 0 ∧ ruid ≠ unchanged := ⟨rfl, hr⟩
        rw [if_pos hnew]
        exact if_pos hr
  | setfsuid uid => rfl

variable [DecidableEq ι]

/-- The condition on a step: `uid_find` does not find the structure of another uid by the low 16 bits; the allocation
succeeds, unless for root, and no other task has hashed a structure for the uid meanwhile; the limit still holds at the end
of the fork. -/
def KeepsAccount (w : World ι) : Op ι → Prop
  | .setId t _ a => ∀ uid ∈ accounts (w.task t).cred a,
      uid.toNat < 65536 ∨ (w.freeUid t).uidFind (uid.setWidth 16) (uidhashfn uid) = none
  | .setIdEnd t none => (w.task t).cred.uid = 0
  | .setIdEnd t (some _) =>
      ∀ b ∈ w.hash (uidhashfn (w.task t).cred.uid), (w.user b).uid ≠ (w.task t).cred.uid
  | .forkEnd t => ∀ a ∈ (w.task t).user, (w.user a).count < (w.task t).nproc
  | _ => True

instance (w : World ι) : (op : Op ι) → Decidable (KeepsAccount w op)
  -- not by the instance for all words
  | .setId t _ a => Option.decidableForallMem (accounts (w.task t).cred a)
  | .setIdEnd _ none => inferInstanceAs (Decidable (_ = _))
  | .setIdEnd _ (some _) => List.decidableBAll _ _
  | .forkEnd t => Option.decidableForallMem (w.task t).user
  | .fork .. => .isTrue trivial
  | .forkFail _ => .isTrue trivial
  | .release _ => .isTrue trivial

variable [Fintype ι]

/-- A task that has forked has no more than `RLIMIT_NPROC` tasks with the same user. -/
def LimitKept (w : World ι) (op : Op ι) (w' : World ι) : Prop :=
  match op with
  | .forkEnd t => ∀ a, (w.task t).user = some a → w'.charged a ≤ (w.task t).nproc
  | _ => True

namespace World

variable {w : World ι} {t c : ι} {a : Addr}

theorem Accounted.park (h : w.Accounted) (ht : (w.task t).alive = true) (cred : Credentials.Task) :
    (w.park t cred).Accounted := by
  refine h.edit_alive ((h.books.freeUid ht).setTask fun _ => rfl) (fun a _ => uid_freeUid w t a) ht
    (fun j hj => ?_) ?_
  · unfold World.park
    rw [task_setTask_of_ne hj, task_freeUid, update_of_ne hj]
  · unfold Settled World.park
    rw [task_setTask_self, task_freeUid, update_self]
    exact ⟨ht, rfl⟩

theorem Accounted.attach_iff (h : w.Accounted) (hp : (w.task t).phase = .allocating) (ha : w.Hashed a) :
    (w.attach t a).Accounted ↔ (w.user a).uid = (w.task t).cred.uid := by
  obtain ⟨ht, hnone⟩ := h.allocating hp
  rw [← settled_attach_iff ht]
  exact ⟨fun h' => h'.settled t, h.edit_alive (h.books.attach ht hnone ha) (fun b _ => uid_attach w t a b) ht
    fun j hj => update_of_ne hj ..⟩

theorem setWidth_eq_iff (uid : Uid) : (uid.setWidth 16).setWidth 32 = uid ↔ uid.toNat < 65536 := by
  rw [← BitVec.toNat_inj, BitVec.toNat_setWidth, BitVec.toNat_setWidth]
  omega

section

variable (h : w.Accounted)
include h

theorem Accounted.allocUid_iff (hp : (w.task t).phase = .allocating) :
    (w.allocUid t).Accounted ↔ (w.task t).cred.uid.toNat < 65536 ∨
      w.uidFind ((w.task t).cred.uid.setWidth 16) (uidhashfn (w.task t).cred.uid) = none := by
  unfold allocUid
  dsimp only
  split
  case h_1 a hfind =>
    unfold uidFind at hfind
    have huid : (w.user a).uid = ((w.task t).cred.uid.setWidth 16).setWidth 32 := by
      have hfound := List.find?_some hfind
      exact of_decide_eq_true hfound
    rw [h.attach_iff hp ⟨_, List.mem_of_find?_eq_some hfind⟩, huid, setWidth_eq_iff]
    unfold uidFind
    rw [hfind]
    exact ⟨.inl, fun h => h.resolve_right (Option.some_ne_none a)⟩
  case h_2 hfind => exact iff_of_true h (.inr hfind)

theorem Accounted.setId_iff (ht : (w.task t).alive = true)
    (hp : (w.task t).phase = .idle) (fix : Bool) (b : Call) :
    (w.setId t fix b).Accounted ↔ KeepsAccount w (.setId t fix b) := by
  have huid := uid_call fix (w.task t).cred b
  unfold setId KeepsAccount
  dsimp only
  cases hacc : accounts (w.task t).cred b with
  | none =>
    rw [hacc] at huid
    refine iff_of_true (h.edit_alive (h.books.setTask fun _ => rfl) (fun _ _ => rfl) ht
      (fun j hj => task_setTask_of_ne hj ..) ?_) (fun _ h => absurd h (by simp))
    unfold Settled Owns
    rw [task_setTask_self]
    rw [hp, huid]
    intro _
    exact h.idle ht hp
  | some uid =>
    rw [hacc] at huid
    set cred := call fix (w.task t).cred b
    have hself : ((w.park t cred).task t).cred = cred ∧ ((w.park t cred).task t).phase = .allocating := by
      unfold World.park
      rw [task_setTask_self]
      exact ⟨rfl, rfl⟩
    rw [(h.park ht cred).allocUid_iff hself.2, hself.1, huid]
    constructor
    · intro hk u hu
      rw [← Option.mem_some.mp hu]
      exact hk
    · intro hk
      exact hk uid rfl

theorem Accounted.allocUidEnd_iff (hp : (w.task t).phase = .allocating) {q : Option Addr}
    (hq : ∀ h, ∀ a ∈ w.hash h, q ≠ some a) :
    (w.allocUidEnd t q).Accounted ↔ KeepsAccount w (.setIdEnd t q) := by
  obtain ⟨ht, hnone⟩ := h.allocating hp
  cases q with
  | none =>
    have hself : (w.allocUidEnd t none).task t = { w.task t with phase := .idle } := update_self ..
    constructor
    · intro h'
      obtain ⟨-, huid⟩ | ⟨a, ha, -⟩ := h'.idle (t := t) (by rw [hself]; exact ht) (by rw [hself])
      · rwa [hself] at huid
      · rw [hself] at ha
        exact absurd (hnone.symm.trans ha) (Option.some_ne_none a).symm
    · intro huid
      refine h.edit_alive (h.books.setTask fun _ => rfl) (fun _ _ => rfl) ht (fun j hj => update_of_ne hj ..) ?_
      unfold Settled Owns
      rw [hself]
      exact fun _ => .inl ⟨hnone, huid⟩
  | some a =>
    have hfresh : ¬ w.Hashed a := fun ⟨i, hi⟩ => hq i a hi rfl
    set uid := (w.task t).cred.uid
    set v := (w.setUser a ⟨0, uid⟩).uidHashInsert a (uidhashfn uid)
    have hself : v.user a = ⟨0, uid⟩ := update_self ..
    have hmem : v.Hashed a := ⟨uidhashfn uid, mem_uidHashInsert.mpr (.inl ⟨rfl, rfl⟩)⟩
    constructor
    · intro h' b hi hb
      have hne : b ≠ a := by
        rintro rfl
        exact hfresh ⟨_, hi⟩
      apply hne
      apply h'.books.unique b a ⟨_, mem_uidHashInsert.mpr (.inr hi)⟩ hmem
      change ((v.attach t a).user b).uid = ((v.attach t a).user a).uid
      rw [uid_attach, uid_attach, hself]
      exact (congrArg User.uid (update_of_ne hne ..)).trans hb
    · intro hk
      -- a structure is in the chain of its own uid
      have hnew : ∀ b, w.Hashed b → (w.user b).uid ≠ uid := by
        rintro b ⟨i, hi⟩ hb
        refine hk b ?_ hb
        rw [show (w.task t).cred.uid = (w.user b).uid from hb.symm, h.books.bucket i b hi]
        exact hi
      apply ((h.insert hfresh hnew).attach_iff hp hmem).mpr
      rw [hself]
      rfl

section

variable (ht : (w.task t).alive = true) (hp : (w.task t).phase = .idle)
include ht hp

theorem Accounted.release : (w.release t).Accounted := by
  have hfree : (w.freeUid t).task t = { w.task t with user := none } := by
    rw [task_freeUid, update_self]
  refine h.edit_alive ((h.books.freeUid ht).setTask fun a => ?_) (fun a _ => uid_freeUid w t a) ht
    (fun j hj => ?_) ?_
  · rw [hfree]
    exact (pointsTo_eq_false rfl a).trans (pointsTo_eq_false rfl a).symm
  · unfold World.release
    rw [task_setTask_of_ne hj, task_freeUid, update_of_ne hj]
  · unfold Settled World.release
    rw [task_setTask_self, hfree]
    rw [hp]
    exact nofun

theorem Accounted.doFork (hc : (w.task c).alive = false) (hpc : (w.task c).phase = .idle) :
    (w.doFork t c).Accounted := by
  have hne := ne_of_alive ht hc
  unfold World.doFork
  dsimp only
  split
  case isTrue => exact h
  case isFalse =>
    set v := w.setTask c { w.task t with alive := false, phase := .unborn t }
    have hvt : v.task t = w.task t := task_setTask_of_ne hne ..
    have hvc : v.task c = { w.task t with alive := false, phase := .unborn t } := task_setTask_self ..
    have hbooks : v.Books := h.books.setTask fun a => (pointsTo_dead rfl a).trans (pointsTo_dead hc a).symm
    refine h.edit_pair (hbooks.setTask fun a => by rw [hvt]; rfl) (fun _ _ => rfl) ht (c := c) (fun i hi => ?_)
      (fun j hj hjc => (task_setTask_of_ne hj ..).trans (task_setTask_of_ne hjc ..)) ?_ ?_
    · cases hpc.symm.trans (h.forking hi).2.2.2.1
    · unfold Settled Owns
      rw [task_setTask_self]
      dsimp only
      rw [task_setTask_of_ne hne.symm, hvc]
      exact ⟨ht, h.idle ht hp, rfl, rfl, rfl, rfl⟩
    · unfold Settled
      rw [task_setTask_of_ne hne.symm, hvc]

end

theorem Accounted.forkFail (hp : (w.task t).phase = .forking c) : (w.forkFail t c).Accounted := by
  obtain ⟨ht, hown, hc, -⟩ := h.forking hp
  have hne := ne_of_alive ht hc
  unfold World.forkFail
  set v := w.setTask t { w.task t with phase := .idle } with hv
  have hvc : v.task c = w.task c := task_setTask_of_ne hne.symm ..
  have hbooks : v.Books := h.books.setTask fun _ => rfl
  refine h.edit_pair (hbooks.setTask fun a => by rw [hvc]; rfl) (fun _ _ => rfl) ht (h.parent_unique hp)
    (fun j hj hjc => (task_setTask_of_ne hjc ..).trans (task_setTask_of_ne hj ..)) ?_ ?_
  · unfold Settled Owns
    rw [task_setTask_of_ne hne, hv, task_setTask_self]
    exact fun _ => hown
  · unfold Settled
    rw [task_setTask_self]
    exact fun halive => Bool.noConfusion (hc.symm.trans halive)

end

theorem Accounted.forkEnd (h : w.Accounted) (hp : (w.task t).phase = .forking c) :
    (w.forkEnd t c).Accounted := by
  obtain ⟨ht, howns, hc, -, hcu, hcuid⟩ := h.forking hp
  have hne := ne_of_alive ht hc
  set v := w.setTask t { w.task t with phase := .idle } with hv
  set p : Task ι := { w.task c with alive := true, phase := .idle } with hpc
  have hvc : v.task c = w.task c := task_setTask_of_ne hne.symm ..
  have hbooks : v.Books := h.books.setTask fun _ => rfl
  have hold : ∀ b, (v.task c).pointsTo b = false := by
    rw [hvc]
    exact pointsTo_dead hc
  have hfix : ∀ j, j ≠ t → j ≠ c → (v.setTask c p).task j = w.task j := fun j hj hjc =>
    (task_setTask_of_ne hjc ..).trans (task_setTask_of_ne hj ..)
  have hself : (v.setTask c p).task t = { w.task t with phase := .idle } :=
    (task_setTask_of_ne hne ..).trans (task_setTask_self ..)
  have hselfc : (v.setTask c p).task c = p := task_setTask_self ..
  obtain ⟨hnone, huid⟩ | ⟨a, ha, huid⟩ := howns
  · -- a child of root without a structure
    have hcn : (w.task c).user = none := hcu.trans hnone
    have heq : w.forkEnd t c = v.setTask c p := by
      unfold World.forkEnd
      dsimp only
      split
      case h_1 => rfl
      case h_2 a ha => exact absurd (hcn.symm.trans ha) (Option.some_ne_none a).symm
    rw [heq]
    refine h.edit_pair (hbooks.setTask fun b => (pointsTo_eq_false (p := p) hcn b).trans (hold b).symm) (fun _ _ => rfl) ht
      (h.parent_unique hp) hfix ?_ ?_
    · unfold Settled Owns
      rw [hself]
      exact fun _ => .inl ⟨hnone, huid⟩
    · unfold Settled Owns
      rw [hselfc]
      exact fun _ => .inl ⟨hcn, hcuid.trans huid⟩
  have hmem : w.Hashed a := h.books.pointed t a (pointsTo_self ht ha)
  have hca : (w.task c).user = some a := hcu.trans ha
  rw [forkEnd_eq hca]
  have huser : ∀ b, ((((v.setTask c p).addCount a 1).user b).uid) = (w.user b).uid := uid_addCount _ a 1
  refine h.edit_pair (hbooks.charge hmem (pointsTo_eq rfl hca) hold) (fun b _ => huser b) ht (h.parent_unique hp)
    hfix ?_ ?_
  · unfold Settled Owns
    rw [show ((v.setTask c p).addCount a 1).task t = _ from hself]
    exact fun _ => .inr ⟨a, ha, (huser a).trans huid⟩
  · unfold Settled Owns
    rw [show ((v.setTask c p).addCount a 1).task c = _ from hselfc]
    exact fun _ => .inr ⟨a, hca, (huser a).trans (huid.trans hcuid.symm)⟩

theorem Accounted.charged_forkEnd (h : w.Accounted) (hp : (w.task t).phase = .forking c)
    (ha : (w.task t).user = some a) : (w.forkEnd t c).charged a = (w.user a).count + 1 := by
  obtain ⟨ht, -, -, -, hcu, -⟩ := h.forking hp
  have hmem : w.Hashed a := h.books.pointed t a (pointsTo_self ht ha)
  have hca : (w.task c).user = some a := hcu.trans ha
  have hfork : (w.forkEnd t c).Hashed a := by
    rw [forkEnd_eq hca]
    exact hmem
  rw [← (h.forkEnd hp).books.count a hfork, forkEnd_eq hca, count_addCount, if_pos rfl]
  rfl

end World

theorem step_accounted_iff {w w' : World ι} {op : Op ι} (h : w.Accounted) (hs : step w op = some w') :
    w'.Accounted ∧ LimitKept w op w' ↔ KeepsAccount w op := by
  cases op with
  | setId t fix a =>
    obtain ⟨hg, rfl⟩ := of_guard hs
    exact (and_iff_left trivial).trans (h.setId_iff hg.1 hg.2 fix a)
  | setIdEnd t q =>
    obtain ⟨hg, rfl⟩ := of_guard hs
    exact (and_iff_left trivial).trans (h.allocUidEnd_iff hg.1 hg.2)
  | fork t c =>
    obtain ⟨hg, rfl⟩ := of_guard hs
    exact iff_of_true ⟨h.doFork hg.1 hg.2.1 hg.2.2.1 hg.2.2.2, trivial⟩ trivial
  | forkEnd t =>
    dsimp only [step] at hs
    split at hs
    case h_1 c hp =>
      cases hs
      rw [and_iff_right (h.forkEnd hp)]
      refine forall₂_congr fun a ha => ?_
      rw [h.charged_forkEnd hp ha, Int.add_one_le_iff]
    case h_2 => cases hs
  | forkFail t =>
    dsimp only [step] at hs
    split at hs
    case h_1 c hp =>
      cases hs
      exact iff_of_true ⟨h.forkFail hp, trivial⟩ trivial
    case h_2 => cases hs
  | release t =>
    obtain ⟨hg, rfl⟩ := of_guard hs
    exact iff_of_true ⟨h.release hg.1 hg.2, trivial⟩ trivial

/-- `init_task` with all capabilities and without a structure, and empty slots. -/
def boot (init : ι) (nproc : ℤ) : World ι where
  task i := ⟨i = init, .idle, ⟨0, 0, 0, 0, 0xffffffff, 0xffffffff, true⟩, none, nproc⟩
  user _ := ⟨0, 0⟩
  hash _ := []

theorem accounted_boot (init : ι) (nproc : ℤ) : (boot init nproc).Accounted where
  books := by
    have hnone : ∀ a, ¬ (boot init nproc).Hashed a := fun a ⟨_, ha⟩ => List.not_mem_nil ha
    refine ⟨fun _ => List.nodup_nil, fun h a ha => absurd ⟨h, ha⟩ (hnone a), fun a _ ha => absurd ha (hnone a),
      fun t a ha => ?_, fun a ha => absurd ha (hnone a)⟩
    rw [pointsTo_eq_false rfl] at ha
    cases ha
  settled _ _ := .inl ⟨rfl, rfl⟩

/-- **The processes of a user.**  In every run from the start whose steps meet the condition the accounting is right in
every state in which no task is in the middle of a call, and a step keeps the books and the limit exactly
if it meets the condition. -/
theorem accounted_iff_keepsAccount {init : ι} {nproc : ℤ} {w w' : World ι} {op : Op ι}
    (hr : ReachesBy step KeepsAccount (boot init nproc) w) (hs : step w op = some w') :
    (w.Quiescent → w.Balanced) ∧ (w'.Accounted ∧ LimitKept w op w' ↔ KeepsAccount w op) := by
  have hw : w.Accounted := hr.invariant (accounted_boot init nproc) fun _ _ _ h hk hs =>
    ((step_accounted_iff h hs).mpr hk).1
  exact ⟨hw.balanced, step_accounted_iff hw hs⟩

/-- `init` gets the structure of root and forks twice, a child becomes the user 500 and is released. -/
theorem accounted_iff_keepsAccount_three : ∃ w w' : World (Fin 3), ReachesBy step KeepsAccount (boot 0 100) w ∧
    (w.user 0).count = 2 ∧ (w.user 1).uid = 500 ∧ w.Balanced ∧ step w (.release 2) = some w' ∧ w'.Accounted := by
  obtain ⟨w, hr, hq, hcount, huid, hs⟩ : ∃ w : World (Fin 3),
      ReachesBy step (fun w op => decide (KeepsAccount w op) = true) (boot 0 100) w ∧
        (∀ t, (w.task t).alive = true → (w.task t).phase = .idle) ∧ (w.user 0).count = 2 ∧ (w.user 1).uid = 500 ∧
        (step w (.release 2)).isSome = true :=
    ReachesBy.exists_of_exec [.setId 0 true (.setresuid 0 unchanged unchanged), .setIdEnd 0 (some 0), .fork 0 1,
      .forkEnd 0, .fork 0 2, .forkEnd 0, .setId 2 true (.setuid 500), .setIdEnd 2 (some 1)] (by decide +kernel)
  simp only [decide_eq_true_eq] at hr
  obtain ⟨w', hs⟩ := Option.isSome_iff_exists.mp hs
  obtain ⟨hbalanced, hiff⟩ := accounted_iff_keepsAccount hr hs
  exact ⟨w, w', hr, hcount, huid, hbalanced hq, hs, (hiff.mpr trivial).1⟩

/-- `init` gets the structure of root by `setresuid(0, -1, -1)` and forks, and the child calls `setuid(65536)`: its low 16
bits are 0, and it is charged to root. -/
theorem charged_to_root : ∃ w : World (Fin 2), Reaches step (boot 0 100) w ∧ (∀ t, (w.task t).phase = .idle) ∧
    (w.task 1).alive = true ∧ (w.task 1).cred.uid = 65536 ∧ (w.task 1).user = some 0 ∧
    (w.user 0).uid = 0 :=
  Reaches.exists_of_exec [.setId 0 true (.setresuid 0 unchanged unchanged), .setIdEnd 0 (some 0), .fork 0 1,
    .forkEnd 0, .setId 1 true (.setuid 65536)] (by decide +kernel)

end Calls

end I370Linux.UserCount
