import Mathlib

/-! # The operations of `semop`

The model of `try_atomic_semop` of `ipc/sem.c`.  The operations of an array are applied in place, one after
the other, and are taken back from the last one on if one of them cannot go on or if `do_undo` is set.  The
word `sempid` holds the pid of the last operation in its lower half, and the pid before it in the upper
half, from where it is shifted back.

An operation that waits for zero and finds another value is taken back too, although it has not been
applied; and a word has room for one older pid only.  `atomic_iff_keepsPids` says when the pids survive. -/

namespace I370Linux.SemOps

open Function

def semvmx : ℤ := 32767

structure Sem where
  semval : ℤ
  sempid : BitVec 32
  deriving DecidableEq

/-- `struct sembuf`, with the flags `SEM_UNDO` and `IPC_NOWAIT` of `sem_flg`; `sem_op` is a `short`. -/
structure Sembuf (n : ℕ) where
  semNum : Fin n
  semOp : BitVec 16
  semUndo : Bool
  ipcNowait : Bool
  deriving DecidableEq

/-- The semaphores of a set and the adjustments of the undo structure, which are `short`s. -/
@[ext]
structure State (n : ℕ) where
  sem : Fin n → Sem
  semadj : Fin n → BitVec 16

/-- What `try_atomic_semop` returns: 0, 1, `-EAGAIN` or `-ERANGE`. -/
inductive Result
  | ok
  | sleep
  | eagain
  | erange
  deriving DecidableEq

variable {n : ℕ}

/-- `sempid = (sempid << 16) | pid`. -/
def pushPid (pid word : BitVec 32) : BitVec 32 := word <<< 16 ||| pid

/-- `sempid >>= 16`, of a signed word. -/
def popPid (word : BitVec 32) : BitVec 32 := word.sshiftRight 16

/-- What `semctl` with `GETPID` returns. -/
def getPid (word : BitVec 32) : BitVec 32 := word &&& 0xffff

def applyOp (pid : BitVec 32) (s : State n) (sop : Sembuf n) : State n where
  sem := update s.sem sop.semNum
    ⟨(s.sem sop.semNum).semval + sop.semOp.toInt, pushPid pid (s.sem sop.semNum).sempid⟩
  semadj := if sop.semUndo then update s.semadj sop.semNum (s.semadj sop.semNum - sop.semOp)
    else s.semadj

/-- One turn of the loop at the label `undo`. -/
def undoOp (s : State n) (sop : Sembuf n) : State n where
  sem := update s.sem sop.semNum
    ⟨(s.sem sop.semNum).semval - sop.semOp.toInt, popPid (s.sem sop.semNum).sempid⟩
  semadj := if sop.semUndo then update s.semadj sop.semNum (s.semadj sop.semNum + sop.semOp)
    else s.semadj

/-- The loop at the label `undo`, over the operations from the last one back. -/
def undoOps (s : State n) (sops : List (Sembuf n)) : State n := sops.foldl undoOp s

def wouldBlock (sop : Sembuf n) : Result := if sop.ipcNowait then .eagain else .sleep

def waitsForZero (s : State n) (sop : Sembuf n) : Bool :=
  sop.semOp = 0 && (s.sem sop.semNum).semval ≠ 0

/-- The loop of `try_atomic_semop`; `done` are the operations before `sop`, the last one first. -/
def tryOps (pid : BitVec 32) (doUndo : Bool) (done : List (Sembuf n)) (s : State n) :
    List (Sembuf n) → Result × State n
  | [] => (.ok, if doUndo then undoOps s done else s)
  | sop :: rest =>
    if waitsForZero s sop then (wouldBlock sop, undoOps s (sop :: done))
    else
      let s := applyOp pid s sop
      if (s.sem sop.semNum).semval < 0 then (wouldBlock sop, undoOps s (sop :: done))
      else if (s.sem sop.semNum).semval > semvmx then (.erange, undoOps s (sop :: done))
      else tryOps pid doUndo (sop :: done) s rest

def tryAtomicSemop (s : State n) (sops : List (Sembuf n)) (pid : BitVec 32) (doUndo : Bool) :
    Result × State n :=
  tryOps pid doUndo [] s sops

/-! ### Values and adjustments -/

def SameValues (s s' : State n) : Prop := (∀ i, (s.sem i).semval = (s'.sem i).semval) ∧ s.semadj = s'.semadj

theorem SameValues.refl (s : State n) : SameValues s s := ⟨fun _ => rfl, rfl⟩

theorem SameValues.trans {s s' s'' : State n} (h : SameValues s s') (h' : SameValues s' s'') : SameValues s s'' :=
  ⟨fun i => (h.1 i).trans (h'.1 i), h.2.trans h'.2⟩

theorem semval_update (f : Fin n → Sem) (k i : Fin n) (v : Sem) :
    (update f k v i).semval = update (fun i => (f i).semval) k v.semval i := by
  obtain rfl | h := eq_or_ne i k
  · simp
  · simp [h]

theorem SameValues.undoOp {s s' : State n} (h : SameValues s s') (sop : Sembuf n) :
    SameValues (undoOp s sop) (undoOp s' sop) := by
  refine ⟨fun i => ?_, ?_⟩
  · unfold SemOps.undoOp
    rw [semval_update, semval_update, h.1 sop.semNum, funext h.1]
  · unfold SemOps.undoOp
    rw [h.2]

theorem SameValues.undoOps {s s' : State n} (h : SameValues s s') (sops : List (Sembuf n)) :
    SameValues (undoOps s sops) (undoOps s' sops) := by
  induction sops generalizing s s' with
  | nil => exact h
  | cons sop sops ih => exact ih (h.undoOp sop)

theorem sameValues_undo_apply (pid : BitVec 32) (s : State n) (sop : Sembuf n) :
    SameValues (undoOp (applyOp pid s sop) sop) s := by
  refine ⟨fun i => ?_, ?_⟩
  · unfold undoOp applyOp
    obtain rfl | h := eq_or_ne i sop.semNum
    · simp
    · simp [h]
  · unfold undoOp applyOp
    funext i
    cases sop.semUndo with
    | false => rfl
    | true =>
      obtain rfl | h := eq_or_ne i sop.semNum
      · simp
      · simp [h]

theorem sameValues_undo_zero (s : State n) {sop : Sembuf n} (h : sop.semOp = 0) :
    SameValues (undoOp s sop) s := by
  refine ⟨fun i => ?_, ?_⟩
  · unfold undoOp
    rw [h, semval_update]
    simp
  · unfold undoOp
    rw [h]
    simp

/-! ### Pids -/

def touches (sops : List (Sembuf n)) (i : Fin n) : ℕ := sops.countP fun sop => sop.semNum = i

theorem touches_cons (sop : Sembuf n) (sops : List (Sembuf n)) (i : Fin n) :
    touches (sop :: sops) i = touches sops i + if sop.semNum = i then 1 else 0 := by
  unfold touches
  rw [List.countP_cons]
  simp

theorem sempid_undoOps (s : State n) (sops : List (Sembuf n)) (i : Fin n) :
    ((undoOps s sops).sem i).sempid = popPid^[touches sops i] (s.sem i).sempid := by
  induction sops generalizing s with
  | nil => rfl
  | cons sop sops ih =>
    have hstep : ((undoOp s sop).sem i).sempid = popPid^[if sop.semNum = i then 1 else 0] (s.sem i).sempid := by
      unfold undoOp
      obtain rfl | h := eq_or_ne sop.semNum i
      · simp
      · simp [h, Ne.symm h]
    rw [touches_cons, Function.iterate_add_apply, ← hstep]
    exact ih (undoOp s sop)

theorem sempid_applyOp (pid : BitVec 32) (s : State n) (sop : Sembuf n) (i : Fin n) :
    ((applyOp pid s sop).sem i).sempid =
      (pushPid pid)^[if sop.semNum = i then 1 else 0] (s.sem i).sempid := by
  unfold applyOp
  obtain rfl | h := eq_or_ne sop.semNum i
  · simp
  · simp [h, Ne.symm h]

section Words

variable {pid word : BitVec 32} {i : ℕ}

theorem getLsbD_pid (hp : pid.toNat < 0x8000) (hi : 15 ≤ i) : pid.getLsbD i = false :=
  Nat.testBit_lt_two_pow (lt_of_lt_of_le hp (Nat.pow_le_pow_right two_pos hi))

theorem getLsbD_push_of_le (hp : pid.toNat < 0x8000) (h : 16 ≤ i) (hi : i < 32) :
    (pushPid pid word).getLsbD i = word.getLsbD (i - 16) := by
  unfold pushPid
  rw [BitVec.getLsbD_or, BitVec.getLsbD_shiftLeft, getLsbD_pid hp (by omega), decide_eq_true hi,
    decide_eq_false (by omega : ¬ i < 16)]
  simp only [Bool.not_false, Bool.true_and, Bool.or_false]

theorem getLsbD_push_of_lt (h : i < 16) : (pushPid pid word).getLsbD i = pid.getLsbD i := by
  unfold pushPid
  rw [BitVec.getLsbD_or, BitVec.getLsbD_shiftLeft, decide_eq_true h]
  simp only [Bool.not_true, Bool.and_false, Bool.false_and, Bool.false_or]

theorem getLsbD_pop (word : BitVec 32) (hi : i < 32) :
    (popPid word).getLsbD i = word.getLsbD (min (i + 16) 31) := by
  unfold popPid
  rw [BitVec.getLsbD_sshiftRight, BitVec.msb_eq_getLsbD_last, decide_eq_false (by omega : ¬ 32 ≤ i),
    Bool.not_false, Bool.true_and]
  by_cases h : i < 16
  · rw [if_pos (by omega), min_eq_left (by omega), Nat.add_comm]
  · rw [if_neg (by omega), min_eq_right (by omega)]

theorem getLsbD_getPid_of_lt (word : BitVec 32) (hi : i < 16) : (getPid word).getLsbD i = word.getLsbD i := by
  have hmask : ∀ i < 16, (0xffff : BitVec 32).getLsbD i = true := by decide
  unfold getPid
  rw [BitVec.getLsbD_and, hmask i hi, Bool.and_true]

theorem getPid_eq_iff {a b : BitVec 32} : getPid a = getPid b ↔ ∀ i < 16, a.getLsbD i = b.getLsbD i := by
  have hmask : ∀ i < 32, 16 ≤ i → (0xffff : BitVec 32).getLsbD i = false := by decide
  constructor
  · intro h i hi
    rw [← getLsbD_getPid_of_lt a hi, h, getLsbD_getPid_of_lt b hi]
  · intro h
    apply BitVec.eq_of_getLsbD_eq
    intro i hi
    by_cases hlt : i < 16
    · rw [getLsbD_getPid_of_lt a hlt, getLsbD_getPid_of_lt b hlt, h i hlt]
    · unfold getPid
      rw [BitVec.getLsbD_and, BitVec.getLsbD_and, hmask i hi (by omega), Bool.and_false, Bool.and_false]

section

variable (hp : pid.toNat < 0x8000)
include hp

theorem getPid_pop_push (word : BitVec 32) : getPid (popPid (pushPid pid word)) = getPid word := by
  rw [getPid_eq_iff]
  intro i hi
  rw [getLsbD_pop _ (by omega), getLsbD_push_of_le hp (by omega) (by omega), min_eq_left (by omega),
    Nat.add_sub_cancel]

theorem pop_push_push (word : BitVec 32) : popPid (pushPid pid (pushPid pid word)) = pid := by
  apply BitVec.eq_of_getLsbD_eq
  intro i hi
  rw [getLsbD_pop _ hi, getLsbD_push_of_le hp (by omega) (by omega), getLsbD_push_of_lt (by omega)]
  by_cases h : i < 16
  · rw [min_eq_left (by omega), Nat.add_sub_cancel]
  · rw [min_eq_right (by omega), getLsbD_pid hp (by omega), getLsbD_pid hp (by omega)]

theorem pop_pid : popPid pid = 0 := by
  apply BitVec.eq_of_getLsbD_eq
  intro i hi
  rw [getLsbD_pop _ hi, getLsbD_pid hp (by omega)]
  exact BitVec.getLsbD_zero.symm

theorem push_push (word : BitVec 32) : pushPid pid (pushPid pid word) = pushPid pid pid := by
  apply BitVec.eq_of_getLsbD_eq
  intro i hi
  by_cases h : i < 16
  · rw [getLsbD_push_of_lt h, getLsbD_push_of_lt h]
  · rw [getLsbD_push_of_le hp (by omega) hi, getLsbD_push_of_lt (by omega), getLsbD_push_of_le hp (by omega) hi]

theorem getLsbD_pop_pop_push (word : BitVec 32) (hi : i < 32) :
    (popPid (popPid (pushPid pid word))).getLsbD i = word.getLsbD 15 := by
  rw [getLsbD_pop _ hi, getLsbD_pop _ (by omega), getLsbD_push_of_le hp (by omega) (by omega)]
  congr 1
  omega

end

/-- A word keeps the pid in its lower half through `k` operations that are taken back, and one more that is
taken back without having been applied if `z` is set. -/
def KeepsPid (word : BitVec 32) : ℕ → Bool → Prop
  | 0, false => True
  | 0, true => getPid (popPid word) = getPid word
  | 1, false => True
  | 1, true => getPid word = 0 ∨ getPid word = 0xffff
  | _ + 2, _ => getPid word = 0

instance (word : BitVec 32) : (k : ℕ) → (z : Bool) → Decidable (KeepsPid word k z)
  | 0, false | 1, false => inferInstanceAs (Decidable True)
  | 0, true => inferInstanceAs (Decidable (getPid (popPid word) = getPid word))
  | 1, true => inferInstanceAs (Decidable (getPid word = 0 ∨ getPid word = 0xffff))
  | _ + 2, _ => inferInstanceAs (Decidable (getPid word = 0))

theorem getPid_pop_pop_push (hp : pid.toNat < 0x8000) (word : BitVec 32) :
    getPid (popPid (popPid (pushPid pid word))) = getPid word ↔ getPid word = 0 ∨ getPid word = 0xffff := by
  have hzero : getPid word = 0 ↔ ∀ i < 16, word.getLsbD i = false := by
    have h : getPid word = getPid 0 ↔ _ := getPid_eq_iff
    refine h.trans (forall₂_congr fun i _ => ?_)
    rw [show (0 : BitVec 32).getLsbD i = false from BitVec.getLsbD_zero]
  have hones : getPid word = 0xffff ↔ ∀ i < 16, word.getLsbD i = true := by
    have h : getPid word = getPid 0xffff ↔ _ := getPid_eq_iff
    have hmask : ∀ i < 16, (0xffff : BitVec 32).getLsbD i = true := by decide
    refine h.trans (forall₂_congr fun i hi => ?_)
    rw [hmask i hi]
  have hiff : getPid (popPid (popPid (pushPid pid word))) = getPid word ↔
      ∀ i < 16, word.getLsbD 15 = word.getLsbD i := by
    refine getPid_eq_iff.trans (forall₂_congr fun i hi => ?_)
    rw [getLsbD_pop_pop_push hp word (by omega)]
  rw [hiff, hzero, hones]
  constructor
  · intro h
    cases hb : word.getLsbD 15 with
    | false => exact .inl fun i hi => by rw [← h i hi, hb]
    | true => exact .inr fun i hi => by rw [← h i hi, hb]
  · rintro (h | h) i hi
    · rw [h i hi, h 15 (by omega)]
    · rw [h i hi, h 15 (by omega)]

theorem iterate_push (hp : pid.toNat < 0x8000) (word : BitVec 32) (k : ℕ) :
    (pushPid pid)^[k + 2] word = pushPid pid pid := by
  rw [Function.iterate_succ_apply', Function.iterate_succ_apply']
  exact push_push hp _

theorem iterate_pop_zero (k : ℕ) : popPid^[k] 0 = 0 := Function.iterate_fixed (by decide) k

theorem getPid_iterate_iff (hp : pid.toNat < 0x8000) (word : BitVec 32) (k : ℕ) (z : Bool) :
    getPid (popPid^[k + z.toNat] ((pushPid pid)^[k] word)) = getPid word ↔ KeepsPid word k z := by
  match k, z with
  | 0, false => exact iff_of_true rfl trivial
  | 0, true => exact Iff.rfl
  | 1, false => exact iff_of_true (getPid_pop_push hp word) trivial
  | 1, true => exact getPid_pop_pop_push hp word
  | k + 2, z =>
    -- two pids of the caller fill the word, and two shifts empty it
    have hempty : popPid (popPid (pushPid pid pid)) = 0 := by
      rw [← push_push hp 0, pop_push_push hp, pop_pid hp]
    have hcount : k + 2 + z.toNat = k + z.toNat + 2 := by omega
    rw [iterate_push hp, hcount, Function.iterate_add_apply]
    change getPid (popPid^[k + z.toNat] (popPid (popPid (pushPid pid pid)))) = _ ↔ _
    rw [hempty, iterate_pop_zero]
    exact eq_comm

end Words

/-! ### The call -/

/-- How far the loop comes: the operations that it applies and passes, and the one at which it stops, with
whether this one has been applied. -/
def attempt (pid : BitVec 32) (s : State n) : List (Sembuf n) → List (Sembuf n) × Option (Sembuf n × Bool)
  | [] => ([], none)
  | sop :: rest =>
    if waitsForZero s sop then ([], some (sop, false))
    else
      let s := applyOp pid s sop
      if (s.sem sop.semNum).semval < 0 ∨ (s.sem sop.semNum).semval > semvmx then ([], some (sop, true))
      else (sop :: (attempt pid s rest).1, (attempt pid s rest).2)

def applied (a : List (Sembuf n) × Option (Sembuf n × Bool)) (i : Fin n) : ℕ :=
  touches a.1 i + if a.2.any fun sop => sop.1.semNum = i && sop.2 then 1 else 0

/-- The operation at which the loop stops is on the semaphore and has not been applied. -/
def skipped (a : List (Sembuf n) × Option (Sembuf n × Bool)) (i : Fin n) : Bool :=
  a.2.any fun sop => sop.1.semNum = i && !sop.2

/-- The state after a rollback, from the state before the call and how far the loop came. -/
structure RolledBack (pid : BitVec 32) (s₀ : State n) (k : Fin n → ℕ) (z : Fin n → Bool) (s : State n) :
    Prop where
  values : SameValues s s₀
  sempid : ∀ i, (s.sem i).sempid = popPid^[k i + (z i).toNat] ((pushPid pid)^[k i] (s₀.sem i).sempid)

/-- The state inside the loop, after the operations `done`. -/
structure Midway (pid : BitVec 32) (s₀ : State n) (done : List (Sembuf n)) (s : State n) : Prop where
  values : SameValues (undoOps s done) s₀
  sempid : ∀ i, (s.sem i).sempid = (pushPid pid)^[touches done i] (s₀.sem i).sempid

variable {pid : BitVec 32} {s s₀ : State n} {done : List (Sembuf n)} {sop : Sembuf n}

section

variable (h : Midway pid s₀ done s)
include h

theorem Midway.applyOp (sop : Sembuf n) : Midway pid s₀ (sop :: done) (applyOp pid s sop) := by
  refine ⟨((sameValues_undo_apply pid s sop).undoOps done).trans h.values, fun i => ?_⟩
  rw [sempid_applyOp, touches_cons, h.sempid, Nat.add_comm, Function.iterate_add_apply]

theorem Midway.undo : RolledBack pid s₀ (touches done) (fun _ => false) (undoOps s done) := by
  refine ⟨h.values, fun i => ?_⟩
  rw [sempid_undoOps, h.sempid]
  rfl

theorem Midway.undo_skipped (hz : sop.semOp = 0) :
    RolledBack pid s₀ (touches done) (fun i => decide (sop.semNum = i)) (undoOps s (sop :: done)) := by
  refine ⟨((sameValues_undo_zero s hz).undoOps done).trans h.values, fun i => ?_⟩
  rw [sempid_undoOps, h.sempid, touches_cons]
  by_cases hi : sop.semNum = i <;> simp [hi]

/-- **What the loop does.**  It rolls back, from where it stops or because `do_undo` is set, or it applies
all the operations. -/
theorem Midway.tryOps (doUndo : Bool) (sops : List (Sembuf n)) :
    ((tryOps pid doUndo done s sops).1 = .ok ↔ (attempt pid s sops).2 = none) ∧
    ((attempt pid s sops).2 ≠ none ∨ doUndo = true → RolledBack pid s₀
      (fun i => touches done i + applied (attempt pid s sops) i) (skipped (attempt pid s sops))
      (tryOps pid doUndo done s sops).2) ∧ ((attempt pid s sops).2 = none → doUndo = false →
      (tryOps pid doUndo done s sops).2 = sops.foldl (SemOps.applyOp pid) s) := by
  have hblock : ∀ sop : Sembuf n, wouldBlock sop ≠ .ok := by
    intro sop
    unfold wouldBlock
    split <;> exact Result.noConfusion
  induction sops generalizing s done with
  | nil =>
    refine ⟨iff_of_true rfl rfl, fun hu => ?_, fun _ hu => ?_⟩
    · obtain rfl : doUndo = true := hu.resolve_left fun hne => hne rfl
      exact h.undo
    · subst hu
      rfl
  | cons sop rest ih =>
    unfold SemOps.tryOps attempt
    by_cases hz : waitsForZero s sop = true
    · rw [if_pos hz, if_pos hz]
      refine ⟨iff_of_false (hblock sop) (Option.some_ne_none _), fun _ => ?_, fun hn => absurd hn (Option.some_ne_none _)⟩
      have hop : sop.semOp = 0 := of_decide_eq_true (Bool.and_eq_true_iff.mp hz).1
      have hback := h.undo_skipped hop
      refine ⟨hback.values, fun i => ?_⟩
      rw [hback.sempid]
      unfold applied skipped
      simp [touches]
    · rw [if_neg hz, if_neg hz]
      have hmid := h.applyOp sop
      have hback := hmid.undo
      -- the operation at which the loop stops is taken back with the others
      have hstop : RolledBack pid s₀ (fun i => touches done i + applied ([], some (sop, true)) i)
          (skipped ([], some (sop, true))) (undoOps (SemOps.applyOp pid s sop) (sop :: done)) := by
        refine ⟨hback.values, fun i => ?_⟩
        rw [hback.sempid, touches_cons]
        unfold applied skipped
        simp [touches]
      by_cases hneg : ((SemOps.applyOp pid s sop).sem sop.semNum).semval < 0
      · rw [if_pos hneg, if_pos (.inl hneg)]
        exact ⟨iff_of_false (hblock sop) (Option.some_ne_none _), fun _ => hstop,
          fun hn => absurd hn (Option.some_ne_none _)⟩
      by_cases hmax : ((SemOps.applyOp pid s sop).sem sop.semNum).semval > semvmx
      · rw [if_neg hneg, if_pos hmax, if_pos (.inr hmax)]
        exact ⟨iff_of_false Result.noConfusion (Option.some_ne_none _), fun _ => hstop,
          fun hn => absurd hn (Option.some_ne_none _)⟩
      rw [if_neg hneg, if_neg hmax, if_neg (not_or.mpr ⟨hneg, hmax⟩)]
      obtain ⟨hok, hundo, hall⟩ := ih hmid
      refine ⟨hok, fun hu => ?_, hall⟩
      have hrest := hundo hu
      refine ⟨hrest.values, fun i => ?_⟩
      have hcount : touches (sop :: done) i + applied (attempt pid (SemOps.applyOp pid s sop) rest) i =
          touches done i + applied (sop :: (attempt pid (SemOps.applyOp pid s sop) rest).1,
            (attempt pid (SemOps.applyOp pid s sop) rest).2) i := by
        unfold applied
        rw [touches_cons, touches_cons]
        dsimp only
        omega
      rw [hrest.sempid, hcount]
      rfl

end

/-- What the call should do: leave everything as it was when it returns nonzero or is to undo, and apply the
operations in order otherwise. -/
def Atomic (s : State n) (sops : List (Sembuf n)) (pid : BitVec 32) (doUndo : Bool) : Prop :=
  let r := tryAtomicSemop s sops pid doUndo
  (r.1 ≠ .ok ∨ doUndo = true →
    SameValues r.2 s ∧ ∀ i, getPid (r.2.sem i).sempid = getPid (s.sem i).sempid) ∧
  (r.1 = .ok → doUndo = false → r.2 = sops.foldl (applyOp pid) s)

/-- The pids survive a rollback from where the loop stops. -/
def KeepsPids (s : State n) (sops : List (Sembuf n)) (pid : BitVec 32) : Prop :=
  ∀ i, KeepsPid (s.sem i).sempid (applied (attempt pid s sops) i) (skipped (attempt pid s sops) i)

theorem midway_nil (pid : BitVec 32) (s : State n) : Midway pid s [] s := ⟨.refl s, fun _ => rfl⟩

/-- **`semop` is atomic up to the pids.** The call is atomic if and only if it applies the operations for good, or each
semaphore keeps its pid: it was changed at most once before the loop stopped, and the loop did not stop at it waiting for
zero (or the word happens to hold the pid that the shifts leave). -/
theorem atomic_iff_keepsPids (s : State n) (sops : List (Sembuf n)) (pid : BitVec 32)
    (hp : pid.toNat < 0x8000) (doUndo : Bool) :
    ((tryAtomicSemop s sops pid doUndo).1 ≠ .ok ∨ doUndo = true →
      SameValues (tryAtomicSemop s sops pid doUndo).2 s) ∧
    (Atomic s sops pid doUndo ↔ (attempt pid s sops).2 = none ∧ doUndo = false ∨ KeepsPids s sops pid) := by
  obtain ⟨hok, hundo, hall⟩ := (midway_nil pid s).tryOps doUndo sops
  change (_ → RolledBack pid s _ _ (tryAtomicSemop s sops pid doUndo).2) at hundo
  have hback : (tryAtomicSemop s sops pid doUndo).1 ≠ .ok ∨ doUndo = true → RolledBack pid s
      (applied (attempt pid s sops)) (skipped (attempt pid s sops)) (tryAtomicSemop s sops pid doUndo).2 := by
    intro hu
    have h := hundo (hu.imp_left fun hne hn => hne (hok.mpr hn))
    refine ⟨h.values, fun i => ?_⟩
    rw [h.sempid]
    simp [touches]
  have hpids : (tryAtomicSemop s sops pid doUndo).1 ≠ .ok ∨ doUndo = true →
      ((∀ i, getPid ((tryAtomicSemop s sops pid doUndo).2.sem i).sempid = getPid (s.sem i).sempid) ↔
        KeepsPids s sops pid) := by
    intro hu
    refine forall_congr' fun i => ?_
    rw [(hback hu).sempid]
    exact getPid_iterate_iff hp _ _ _
  refine ⟨fun hu => (hback hu).values, fun hat => ?_, fun hc => ⟨fun hu => ⟨(hback hu).values, ?_⟩, fun hr hu => ?_⟩⟩
  · by_cases hu : (tryAtomicSemop s sops pid doUndo).1 ≠ .ok ∨ doUndo = true
    · exact .inr ((hpids hu).mp (hat.1 hu).2)
    · rw [not_or, not_not, Bool.not_eq_true] at hu
      exact .inl ⟨hok.mp hu.1, hu.2⟩
  · obtain ⟨hn, hd⟩ | hk := hc
    · exact absurd hu (not_or.mpr ⟨not_not.mpr (hok.mpr hn), by simp [hd]⟩)
    · exact (hpids hu).mpr hk
  · exact hall (hok.mp hr) hu

/-- Two semaphores, with an increment of the first that is taken back because the second would grow too
large. -/
theorem atomic_iff_keepsPids_two :
    (5 : BitVec 32).toNat < 0x8000 ∧ Atomic (⟨fun i => ⟨i, 7⟩, fun _ => 0⟩ : State 2)
      [⟨0, 1, true, false⟩, ⟨1, 32767, true, true⟩] 5 false := by
  refine ⟨by decide, (atomic_iff_keepsPids _ _ _ (by decide) _).2.mpr (.inr ?_)⟩
  unfold KeepsPids
  decide

/-- A semaphore of value 1 that process 5 changed last.  Process 9 waits for zero: it has to sleep, and
`GETPID` no longer returns 5. -/
theorem waitForZero_drops_pid :
    tryAtomicSemop (⟨fun _ => ⟨1, 5⟩, fun _ => 0⟩ : State 1) [⟨0, 0, false, false⟩] 9 false =
      (.sleep, ⟨fun _ => ⟨1, 0⟩, fun _ => 0⟩) ∧ getPid 5 = 5 ∧ getPid 0 = 0 := by
  refine ⟨?_, by decide, by decide⟩
  refine Prod.ext (by decide) (State.ext (funext fun i => ?_) (funext fun i => ?_))
  · revert i
    decide
  · revert i
    decide

end I370Linux.SemOps
