import I370Linux.SemOps
import I370Linux.Runs

/-! # A semaphore set and its processes

The calls on one semaphore set by any number of processes: `sys_semop` with its wait in the queue
`sem_pending`, `update_queue`, `SETVAL` and `SETALL` of `sys_semctl`, and `sem_exit`.  A process runs until it
returns or sleeps.  `World.net` is not in the source: it is the change that each process has made with
`SEM_UNDO` since the last reset of the semaphore.  The set exists, the array of a call has been read, and its
semaphores are in the set; `perm` is what `ipcperms` says.

The adjustments are the negated changes modulo 2 ^ 16, and every call but `sem_exit` keeps the values in
range (`good_iff_netFits`). -/

namespace I370Linux.SemRange

open Runs SemOps Function

variable {n : ℕ} {τ : Type*}

def semopm : ℕ := 32

/-- What `sys_semop` returns: an error of its own, or what `try_atomic_semop` has returned. -/
inductive Return
  | EINVAL
  | E2BIG
  | EACCES
  | ENOMEM
  | EINTR
  | tried (r : Result)
  deriving DecidableEq

/-- `queue.status` while the process sleeps: not yet looked at, to be tried again, or decided by
`update_queue`. -/
inductive Status
  | interrupted
  | retry
  | decided (r : Result)
  deriving DecidableEq

/-- `struct sem_queue`; `decrease` is its field `alter`, and `alter` the variable of `sys_semop`. -/
structure Queue (n : ℕ) where
  sops : List (Sembuf n)
  decrease : Bool
  alter : Bool
  deriving DecidableEq

inductive Phase (n : ℕ)
  | idle
  | sleeping (q : Queue n) (status : Status)
  deriving DecidableEq

/-- A semaphore set, its queue and its tasks; `net` is a ghost. -/
structure World (n : ℕ) (τ : Type*) where
  sem : Fin n → Sem
  pending : List τ
  undo : τ → Option (Fin n → BitVec 16)
  phase : τ → Phase n
  pid : τ → BitVec 32
  alive : τ → Bool
  net : τ → Fin n → ℤ

def decreases (sops : List (Sembuf n)) : Bool := sops.any fun sop => sop.semOp.toInt < 0

def alters (sops : List (Sembuf n)) : Bool := decreases sops || sops.any fun sop => sop.semOp.toInt > 0

/-- The change of a semaphore by the operations with `SEM_UNDO`. -/
def undoSum (sops : List (Sembuf n)) (i : Fin n) : ℤ :=
  (sops.map fun sop => if sop.semUndo ∧ sop.semNum = i then sop.semOp.toInt else 0).sum

namespace World

def adj (w : World n τ) (t : τ) (i : Fin n) : BitVec 16 := ((w.undo t).getD fun _ => 0) i

variable [DecidableEq τ]

/-- `try_atomic_semop` for a process. -/
def tryFor (w : World n τ) (t : τ) (sops : List (Sembuf n)) (doUndo : Bool) : Result × World n τ :=
  let r := tryAtomicSemop ⟨w.sem, w.adj t⟩ sops (w.pid t) doUndo
  (r.1, { w with
    sem := r.2.sem
    undo := update w.undo t ((w.undo t).map fun _ => r.2.semadj)
    net := if r.1 = .ok ∧ doUndo = false then update w.net t fun i => w.net t i + undoSum sops i
      else w.net })

/-- `update_queue`, over the processes in the queue. -/
def updateQueue (w : World n τ) : List τ → World n τ
  | [] => w
  | t :: rest =>
    match w.phase t with
    | .idle => w.updateQueue rest
    | .sleeping q status =>
      if status = .retry then w
      else
        let r := w.tryFor t q.sops q.decrease
        if r.1 = .sleep then r.2.updateQueue rest
        else if r.1 = .ok ∧ q.decrease = true then
          { r.2 with phase := update r.2.phase t (.sleeping q .retry) }
        else
          updateQueue { r.2 with
            phase := update r.2.phase t (.sleeping q (.decided r.1))
            pending := r.2.pending.erase t } rest

/-- The label `update` of `sys_semop`. -/
def atUpdate (w : World n τ) (alter : Bool) : World n τ := if alter then w.updateQueue w.pending else w

/-- The end of `sys_semop` for a process that leaves the queue. -/
def leave (w : World n τ) (t : τ) (alter : Bool) : World n τ :=
  { w with phase := update w.phase t .idle, pending := w.pending.erase t }.atUpdate alter

/-- `sys_semop` up to its return or its sleep; `alloc` says that the allocation of an undo structure
succeeds. -/
def semop (w : World n τ) (t : τ) (sops : List (Sembuf n)) (perm alloc : Bool) : Option Return × World n τ :=
  if sops.length < 1 then (some .EINVAL, w)
  else if semopm < sops.length then (some .E2BIG, w)
  else if !perm then (some .EACCES, w)
  else if (sops.any fun sop => sop.semUndo) && (w.undo t).isNone && !alloc then (some .ENOMEM, w)
  else
    let w := if (sops.any fun sop => sop.semUndo) && (w.undo t).isNone then
      { w with undo := update w.undo t (some fun _ => 0) } else w
    let r := w.tryFor t sops false
    if r.1 = .sleep then
      (none, { r.2 with
        phase := update r.2.phase t (.sleeping ⟨sops, decreases sops, alters sops⟩ .interrupted)
        pending := if alters sops then r.2.pending ++ [t] else t :: r.2.pending })
    else (some (.tried r.1), r.2.atUpdate (alters sops))

/-- `sys_semop` behind the sleep: a woken process tries again, and any other wake-up is an interrupt. -/
def wake (w : World n τ) (t : τ) (q : Queue n) : Status → Option Return × World n τ
  | .retry =>
    let r := w.tryFor t q.sops false
    if r.1 = .sleep then (none, { r.2 with phase := update r.2.phase t (.sleeping q .interrupted) })
    else (some (.tried r.1), r.2.leave t q.alter)
  | .interrupted => (some .EINTR, w.leave t q.alter)
  | .decided r => (some (.tried r), { w with phase := update w.phase t .idle })

def setval (w : World n τ) (i : Fin n) (val : ℤ) (perm : Bool) : World n τ :=
  if val > semvmx ∨ val < 0 ∨ perm = false then w
  else
    let w := { w with
      undo := fun t => (w.undo t).map fun adj => update adj i 0
      sem := update w.sem i { w.sem i with semval := val }
      net := fun t => update (w.net t) i 0 }
    w.updateQueue w.pending

/-- `SETALL`, with an array of `ushort`s. -/
def setall (w : World n τ) (vals : Fin n → BitVec 16) (perm : Bool) : World n τ :=
  if (∃ i, ((vals i).toNat : ℤ) > semvmx) ∨ perm = false then w
  else
    let w := { w with
      sem := fun i => { w.sem i with semval := (vals i).toNat }
      undo := fun t => (w.undo t).map fun _ => fun _ => 0
      net := fun _ _ => 0 }
    w.updateQueue w.pending

/-- The adjustment of one semaphore in `sem_exit`. -/
def exitValue (semval : ℤ) (adj : BitVec 16) : ℤ := if semval + adj.toInt < 0 then 0 else semval + adj.toInt

/-- `sem_exit`, for the undo structure of this set. -/
def semExit (w : World n τ) (t : τ) : World n τ :=
  match w.undo t with
  | none => { w with alive := update w.alive t false }
  | some adj =>
    let w := { w with
      alive := update w.alive t false
      undo := update w.undo t none
      sem := fun i => ⟨exitValue (w.sem i).semval (adj i), w.pid t⟩
      net := update w.net t fun _ => 0 }
    w.updateQueue w.pending

end World

/-- The calls on the set, and the wakeup of a sleeper. -/
inductive Op (n : ℕ) (τ : Type*) where
  | semop (t : τ) (sops : List (Sembuf n)) (perm alloc : Bool)
  | wake (t : τ)
  | setval (i : Fin n) (val : ℤ) (perm : Bool)
  | setall (vals : Fin n → BitVec 16) (perm : Bool)
  | exit (t : τ)

def step [DecidableEq τ] (w : World n τ) : Op n τ → Option (World n τ)
  | .semop t sops perm alloc => if w.alive t ∧ w.phase t = .idle then some (w.semop t sops perm alloc).2 else none
  | .wake t =>
    match w.phase t with
    | .sleeping q status => some (w.wake t q status).2
    | .idle => none
  | .setval i val perm => some (w.setval i val perm)
  | .setall vals perm => some (w.setall vals perm)
  | .exit t => if w.alive t ∧ w.phase t = .idle then some (w.semExit t) else none

def boot (n : ℕ) (pid : τ → BitVec 32) : World n τ where
  sem _ := ⟨0, 0⟩
  pending := []
  undo _ := none
  phase _ := .idle
  pid
  alive _ := true
  net _ _ := 0

/-! ### What a call does to the values and adjustments -/

section Arrays

variable {pid : BitVec 32}

theorem undoSum_cons (sop : Sembuf n) (sops : List (Sembuf n)) (i : Fin n) :
    undoSum (sop :: sops) i = (if sop.semUndo ∧ sop.semNum = i then sop.semOp.toInt else 0) + undoSum sops i := by
  unfold undoSum
  rw [List.map_cons, List.sum_cons]

section

variable (sops : List (Sembuf n)) (s : State n)
include sops s

theorem semadj_foldl (i : Fin n) :
    (sops.foldl (applyOp pid) s).semadj i = s.semadj i - BitVec.ofInt 16 (undoSum sops i) := by
  induction sops generalizing s with
  | nil => simp [undoSum]
  | cons sop sops ih =>
    rw [List.foldl_cons, ih, undoSum_cons]
    have hop : (applyOp pid s sop).semadj i =
        s.semadj i - BitVec.ofInt 16 (if sop.semUndo ∧ sop.semNum = i then sop.semOp.toInt else 0) := by
      unfold applyOp
      by_cases hu : sop.semUndo = true
      · obtain rfl | hi := eq_or_ne sop.semNum i
        · simp [hu]
        · simp [hu, hi, Ne.symm hi]
      · simp [hu]
    rw [hop, BitVec.ofInt_add, sub_sub]

theorem semval_foldl (hs : (attempt pid s sops).2 = none)
    (hr : ∀ i, 0 ≤ (s.sem i).semval ∧ (s.sem i).semval ≤ semvmx) (i : Fin n) :
    0 ≤ ((sops.foldl (applyOp pid) s).sem i).semval ∧ ((sops.foldl (applyOp pid) s).sem i).semval ≤ semvmx := by
  induction sops generalizing s with
  | nil => exact hr i
  | cons sop sops ih =>
    unfold attempt at hs
    split at hs
    case isTrue => cases hs
    case isFalse =>
      dsimp only at hs
      split at hs
      case isTrue => cases hs
      case isFalse hin =>
        rw [List.foldl_cons]
        apply ih _ hs
        intro k
        obtain rfl | hk := eq_or_ne k sop.semNum
        · omega
        · have hsame : ((applyOp pid s sop).sem k) = s.sem k := update_of_ne hk ..
          rw [hsame]
          exact hr k

theorem le_semval_foldl (hs : ∀ sop ∈ sops, 0 ≤ sop.semOp.toInt)
    (i : Fin n) : (s.sem i).semval ≤ ((sops.foldl (applyOp pid) s).sem i).semval := by
  induction sops generalizing s with
  | nil => exact le_rfl
  | cons sop sops ih =>
    have hop : (s.sem i).semval ≤ ((applyOp pid s sop).sem i).semval := by
      have h0 := hs sop List.mem_cons_self
      unfold applyOp
      obtain rfl | hi := eq_or_ne i sop.semNum
      · simpa using h0
      · simp [hi]
    exact hop.trans (ih _ fun sop' hm => hs sop' (List.mem_cons_of_mem sop hm))

end

end Arrays

namespace World

/-- What holds in every state: the adjustments are the negated changes modulo 2 ^ 16, a process without an
undo structure has made none, and the queue knows which arrays have a decrement. -/
structure Adjusted (w : World n τ) : Prop where
  adj : ∀ t i, w.adj t i = BitVec.ofInt 16 (-w.net t i)
  net : ∀ t i, w.undo t = none → w.net t i = 0
  undo : ∀ t q st, w.phase t = .sleeping q st → w.undo t = none → ∀ sop ∈ q.sops, sop.semUndo = false
  decrease : ∀ t q st, w.phase t = .sleeping q st → q.decrease = false → ∀ sop ∈ q.sops, 0 ≤ sop.semOp.toInt

def InRange (w : World n τ) : Prop := ∀ i, 0 ≤ (w.sem i).semval ∧ (w.sem i).semval ≤ semvmx

/-- The values are in range, and the adjustments are the negated changes. -/
def Good (w : World n τ) : Prop := w.InRange ∧ ∀ t i, (w.adj t i).toInt = -w.net t i

/-- The changes fit a `short` when they are negated. -/
def NetFits (w : World n τ) : Prop := ∀ t i, -32768 < w.net t i ∧ w.net t i ≤ 32768

variable {w w' : World n τ} {t : τ} {sops : List (Sembuf n)} {doUndo : Bool}

theorem adj_congr (h : w'.undo t = w.undo t) : w'.adj t = w.adj t := by
  unfold World.adj
  rw [h]

theorem adj_of_none (h : w.undo t = none) (i : Fin n) : w.adj t i = 0 := by
  unfold World.adj
  rw [h]
  rfl

theorem adj_of_some {a : Fin n → BitVec 16} (h : w.undo t = some a) : w.adj t = a := by
  unfold World.adj
  rw [h]
  rfl

theorem Adjusted.toInt_iff (h : w.Adjusted) : (∀ t i, (w.adj t i).toInt = -w.net t i) ↔ w.NetFits := by
  refine forall₂_congr fun t i => ?_
  rw [h.adj, BitVec.toInt_ofInt, Int.bmod_def]
  omega

theorem Adjusted.good_iff (h : w.Adjusted) : w.Good ↔ w.InRange ∧ w.NetFits :=
  and_congr_right fun _ => h.toInt_iff

theorem Adjusted.of_phase (h : w.Adjusted) (hu : w'.undo = w.undo) (hn : w'.net = w.net)
    (hp : ∀ t q st, w'.phase t = .sleeping q st → (∃ st', w.phase t = .sleeping q st') ∨
      (w.undo t = none → ∀ sop ∈ q.sops, sop.semUndo = false) ∧
      (q.decrease = false → ∀ sop ∈ q.sops, 0 ≤ sop.semOp.toInt)) : w'.Adjusted := by
  refine ⟨fun t i => ?_, fun t i ht => ?_, fun t q st hq ht => ?_, fun t q st hq hd => ?_⟩
  · rw [adj_congr (congrFun hu t), hn]
    exact h.adj t i
  · rw [hn]
    exact h.net t i (hu ▸ ht)
  · rw [hu] at ht
    obtain ⟨st', hst⟩ | hnew := hp t q st hq
    · exact h.undo t q st' hst ht
    · exact hnew.1 ht
  · obtain ⟨st', hst⟩ | hnew := hp t q st hq
    · exact h.decrease t q st' hst hd
    · exact hnew.2 hd

theorem Adjusted.reset (h : w.Adjusted) {S : Fin n → Prop} [DecidablePred S] {v : World n τ}
    (hundo : ∀ t, v.undo t = (w.undo t).map fun adj i => if S i then 0 else adj i)
    (hnet : ∀ t i, v.net t i = if S i then 0 else w.net t i) (hphase : v.phase = w.phase) : v.Adjusted := by
  have hnone : ∀ t, v.undo t = none → w.undo t = none := by
    intro t ht
    rw [hundo t, Option.map_eq_none_iff] at ht
    exact ht
  have hadj : ∀ t i, v.adj t i = if S i then 0 else w.adj t i := by
    intro t i
    unfold World.adj
    rw [hundo t]
    cases w.undo t with
    | none => simp
    | some a => rfl
  refine ⟨fun t i => ?_, fun t i ht => ?_, fun t q st hq ht => ?_, fun t q st hq => ?_⟩
  · rw [hadj, hnet, h.adj]
    split <;> simp
  · rw [hnet, h.net t i (hnone t ht), ite_self]
  · exact h.undo t q st (hphase ▸ hq) (hnone t ht)
  · exact h.decrease t q st (hphase ▸ hq)

/-- What `update_queue` keeps. -/
structure Updated (w w' : World n τ) : Prop where
  adjusted : w'.Adjusted
  range : w.InRange → w'.InRange
  le : ∀ i, (w.sem i).semval ≤ (w'.sem i).semval

theorem Updated.trans {w'' : World n τ} (h : w.Updated w') (h' : w'.Updated w'') : w.Updated w'' :=
  ⟨h'.adjusted, fun hr => h'.range (h.range hr), fun i => (h.le i).trans (h'.le i)⟩

def Keeps (w w' : World n τ) : Prop := w'.Adjusted ∧ (w.InRange → w'.InRange)

theorem Keeps.iff_of_trivial (h : w.Keeps w') : w'.Adjusted ∧ (w.InRange → (w'.InRange ↔ true = true)) :=
  h.imp_right fun hr h0 => iff_of_true (hr h0) rfl

/-! ### One array -/

variable [DecidableEq τ]

theorem tryFor_rolledBack (hb : (w.tryFor t sops doUndo).1 ≠ .ok ∨ doUndo = true) :
    (∀ i, ((w.tryFor t sops doUndo).2.sem i).semval = (w.sem i).semval) ∧
    (w.tryFor t sops doUndo).2.undo = w.undo ∧ (w.tryFor t sops doUndo).2.net = w.net := by
  obtain ⟨hok, hundo, -⟩ := (midway_nil (w.pid t) ⟨w.sem, w.adj t⟩).tryOps doUndo sops
  have hsame := (hundo (hb.imp_left fun hne hn => hne (hok.mpr hn))).values
  refine ⟨hsame.1, ?_, if_neg fun hc => ?_⟩
  · funext u
    change update w.undo t ((w.undo t).map fun _ => _) u = _
    obtain rfl | hu := eq_or_ne u t
    · rw [update_self]
      cases hw : w.undo u with
      | none => rfl
      | some a =>
        rw [Option.map_some, ← adj_of_some hw]
        exact congrArg some hsame.2
    · exact update_of_ne hu ..
  · exact hb.elim (fun hne => hne hc.1) fun hd => Bool.noConfusion (hc.2.symm.trans hd)

theorem tryFor_committed (hb : ¬ ((w.tryFor t sops doUndo).1 ≠ .ok ∨ doUndo = true)) : doUndo = false ∧
    (attempt (w.pid t) ⟨w.sem, w.adj t⟩ sops).2 = none ∧ (w.tryFor t sops doUndo).2 = { w with
      sem := (sops.foldl (applyOp (w.pid t)) ⟨w.sem, w.adj t⟩).sem
      undo := update w.undo t
        ((w.undo t).map fun _ => (sops.foldl (applyOp (w.pid t)) ⟨w.sem, w.adj t⟩).semadj)
      net := update w.net t fun i => w.net t i + undoSum sops i } := by
  rw [not_or, not_not, Bool.not_eq_true] at hb
  obtain ⟨hc, rfl⟩ := hb
  obtain ⟨hok, -, hall⟩ := (midway_nil (w.pid t) ⟨w.sem, w.adj t⟩).tryOps false sops
  have hn := hok.mp hc
  have heq : tryAtomicSemop ⟨w.sem, w.adj t⟩ sops (w.pid t) false = (.ok, sops.foldl (applyOp (w.pid t)) ⟨w.sem, w.adj t⟩) :=
    Prod.ext hc (hall hn rfl)
  refine ⟨rfl, hn, ?_⟩
  unfold World.tryFor
  rw [heq]
  rfl

theorem Adjusted.tryFor (h : w.Adjusted) (hs : w.undo t = none → ∀ sop ∈ sops, sop.semUndo = false)
    (doUndo : Bool) : (w.tryFor t sops doUndo).2.Adjusted := by
  by_cases hb : (w.tryFor t sops doUndo).1 ≠ .ok ∨ doUndo = true
  · obtain ⟨-, hu, hn⟩ := tryFor_rolledBack hb
    exact h.of_phase hu hn fun t q st hq => .inl ⟨st, hq⟩
  obtain ⟨rfl, -, heq⟩ := tryFor_committed hb
  generalize (w.tryFor t sops false).2 = v at heq
  have hundo := congrArg World.undo heq
  have hnet := congrArg World.net heq
  have hphase := congrArg World.phase heq
  dsimp only at hundo hnet hphase
  have hnone : w.undo t = none → ∀ i, undoSum sops i = 0 := by
    intro hn i
    apply List.sum_eq_zero
    intro x hx
    obtain ⟨sop, hm, rfl⟩ := List.mem_map.mp hx
    rw [hs hn sop hm]
    simp
  have hother : ∀ u, u ≠ t → v.undo u = w.undo u ∧ v.net u = w.net u := by
    intro u hu
    rw [hundo, hnet]
    exact ⟨update_of_ne hu .., update_of_ne hu ..⟩
  have hself : v.net t = fun i => w.net t i + undoSum sops i := by
    rw [hnet]
    exact update_self ..
  have hisNone : ∀ u, v.undo u = none ↔ w.undo u = none := by
    intro u
    obtain rfl | hu := eq_or_ne u t
    · rw [hundo, update_self, Option.map_eq_none_iff]
    · rw [(hother u hu).1]
  refine ⟨fun u i => ?_, fun u i hu => ?_, fun u q st hq hu => h.undo u q st (hphase ▸ hq) ((hisNone u).mp hu),
    hphase ▸ h.decrease⟩
  · obtain rfl | hu := eq_or_ne u t
    · have hadj : v.adj u i = w.adj u i - BitVec.ofInt 16 (undoSum sops i) := by
        cases hw : w.undo u with
        | none =>
          rw [adj_of_none ((hisNone u).mpr hw), adj_of_none hw, hnone hw i]
          simp
        | some a =>
          have hv1 : v.undo u = some (sops.foldl (applyOp (w.pid u)) ⟨w.sem, w.adj u⟩).semadj := by
            rw [hundo, update_self, hw]
            rfl
          rw [adj_of_some hv1, semadj_foldl]
      rw [hadj, h.adj, hself]
      rw [neg_add, BitVec.ofInt_add, BitVec.ofInt_neg, BitVec.ofInt_neg, sub_eq_add_neg]
    · rw [adj_congr (hother u hu).1, (hother u hu).2]
      exact h.adj u i
  · have hw := (hisNone u).mp hu
    obtain rfl | hut := eq_or_ne u t
    · rw [hself]
      dsimp only
      rw [h.net u i hw, hnone hw i, add_zero]
    · rw [(hother u hut).2]
      exact h.net u i hw

theorem InRange.tryFor (h : w.InRange) (t : τ) (sops : List (Sembuf n)) (doUndo : Bool) :
    (w.tryFor t sops doUndo).2.InRange := by
  intro i
  by_cases hb : (w.tryFor t sops doUndo).1 ≠ .ok ∨ doUndo = true
  · rw [(tryFor_rolledBack hb).1 i]
    exact h i
  · obtain ⟨-, hn, heq⟩ := tryFor_committed hb
    rw [heq]
    exact semval_foldl sops _ hn h i

theorem le_tryFor (hd : doUndo = false → ∀ sop ∈ sops, 0 ≤ sop.semOp.toInt) (i : Fin n) :
    (w.sem i).semval ≤ ((w.tryFor t sops doUndo).2.sem i).semval := by
  by_cases hb : (w.tryFor t sops doUndo).1 ≠ .ok ∨ doUndo = true
  · rw [(tryFor_rolledBack hb).1 i]
  · obtain ⟨hno, -, heq⟩ := tryFor_committed hb
    rw [heq]
    exact le_semval_foldl sops ⟨w.sem, w.adj t⟩ (hd hno) i

/-! ### The queue -/

section

variable (h : w.Adjusted)
include h

theorem Adjusted.setPhase {p : Phase n} (l : List τ)
    (hp : ∀ q st, p = .sleeping q st → ∃ st', w.phase t = .sleeping q st') :
    { w with phase := update w.phase t p, pending := l }.Adjusted := by
  refine h.of_phase rfl rfl fun u q st hq => .inl ?_
  change update w.phase t p u = _ at hq
  obtain rfl | hu := eq_or_ne u t
  · rw [update_self] at hq
    exact hp q st hq
  · rw [update_of_ne hu] at hq
    exact ⟨st, hq⟩

theorem Adjusted.updateQueue (l : List τ) : w.Updated (w.updateQueue l) := by
  induction l generalizing w with
  | nil => exact ⟨h, id, fun _ => le_rfl⟩
  | cons t rest ih =>
    unfold World.updateQueue
    cases hp : w.phase t with
    | idle => exact ih h
    | sleeping q status =>
      dsimp only
      split
      case isTrue => exact ⟨h, id, fun _ => le_rfl⟩
      case isFalse =>
      set r := w.tryFor t q.sops q.decrease
      have htry : w.Updated r.2 :=
        ⟨h.tryFor (h.undo t q status hp) q.decrease, fun hr => hr.tryFor t q.sops q.decrease,
          le_tryFor (h.decrease t q status hp)⟩
      -- the entry stays the same under a new status
      have hphase : ∀ (st : Status) (l : List τ), r.2.Updated
          { r.2 with phase := update r.2.phase t (.sleeping q st), pending := l } := by
        intro st l
        refine ⟨htry.adjusted.setPhase l fun q' st' hq => ?_, id, fun _ => le_rfl⟩
        obtain ⟨rfl, -⟩ := Phase.sleeping.inj hq
        exact ⟨status, hp⟩
      split
      case isTrue => exact htry.trans (ih htry.adjusted)
      case isFalse =>
      split
      case isTrue => exact htry.trans (hphase .retry _)
      case isFalse =>
        have hdone := hphase (.decided r.1) (r.2.pending.erase t)
        exact (htry.trans hdone).trans (ih hdone.adjusted)

theorem Adjusted.atUpdate (alter : Bool) : w.Updated (w.atUpdate alter) := by
  unfold World.atUpdate
  split
  case isTrue => exact h.updateQueue w.pending
  case isFalse => exact ⟨h, id, fun _ => le_rfl⟩

theorem Adjusted.leave (t : τ) (alter : Bool) : w.Keeps (w.leave t alter) := by
  have hidle : { w with phase := update w.phase t .idle, pending := w.pending.erase t }.Adjusted := by
    apply h.setPhase
    intro q st hq
    cases hq
  exact ⟨(hidle.atUpdate alter).adjusted, (hidle.atUpdate alter).range⟩

/-! ### The calls -/

theorem Adjusted.semop (t : τ) (sops : List (Sembuf n)) (perm alloc : Bool) :
    w.Keeps (w.semop t sops perm alloc).2 := by
  unfold World.semop
  dsimp only
  -- a call that is refused changes nothing
  split
  case isTrue => exact ⟨h, id⟩
  split
  case isTrue => exact ⟨h, id⟩
  split
  case isTrue => exact ⟨h, id⟩
  split
  case isTrue => exact ⟨h, id⟩
  -- with an undo structure if one of the operations needs it
  set v := if ((sops.any fun sop => sop.semUndo) && (w.undo t).isNone) = true then
    { w with undo := update w.undo t (some fun _ => 0) } else w with hv
  have hvadj : v.Adjusted ∧ (w.InRange → v.InRange) ∧ (v.undo t = none → ∀ sop ∈ sops, sop.semUndo = false) := by
    rw [hv]
    split
    case isTrue hneed =>
      have hnone : w.undo t = none := Option.isNone_iff_eq_none.mp (Bool.and_eq_true_iff.mp hneed).2
      have hadj : ∀ u, World.adj { w with undo := update w.undo t (some fun _ => 0) } u = w.adj u := by
        intro u
        obtain rfl | hu := eq_or_ne u t
        · rw [adj_of_some (update_self ..)]
          exact funext fun i => (adj_of_none hnone i).symm
        · exact adj_congr (update_of_ne hu ..)
      have hsome : ∀ u, update w.undo t (some fun _ => 0) u = none → w.undo u = none := by
        intro u hu
        by_cases hut : u = t
        · rw [hut, hnone]
        · rwa [update_of_ne hut] at hu
      refine ⟨⟨fun u i => ?_, fun u i hu => h.net u i (hsome u hu), fun u q st hq hu => h.undo u q st hq (hsome u hu),
        h.decrease⟩, id, fun hn => ?_⟩
      · rw [hadj]
        exact h.adj u i
      · exact absurd hn (by simp)
    case isFalse hneed =>
      refine ⟨h, id, fun hn sop hm => ?_⟩
      by_contra hsop
      rw [Bool.not_eq_false] at hsop
      exact hneed (Bool.and_eq_true_iff.mpr ⟨List.any_eq_true.mpr ⟨sop, hm, hsop⟩, Option.isNone_iff_eq_none.mpr hn⟩)
  obtain ⟨hvadj, hvrange, hvundo⟩ := hvadj
  have htry := hvadj.tryFor hvundo false
  split
  case isTrue hsleep =>
    have hne : (v.tryFor t sops false).1 ≠ .ok ∨ false = true := by
      rw [hsleep]
      exact .inl Result.noConfusion
    have hrolled := tryFor_rolledBack hne
    refine ⟨htry.of_phase rfl rfl fun u q st hq => ?_, fun hr => (hvrange hr).tryFor t sops false⟩
    change update v.phase t _ u = _ at hq
    obtain rfl | hu := eq_or_ne u t
    · rw [update_self] at hq
      obtain ⟨rfl, -⟩ := Phase.sleeping.inj hq
      refine .inr ⟨fun hn => hvundo (by rwa [hrolled.2.1] at hn), fun hd sop hm => ?_⟩
      exact not_lt.mp fun hlt => List.any_eq_false.mp hd sop hm (decide_eq_true hlt)
    · rw [update_of_ne hu] at hq
      exact .inl ⟨st, hq⟩
  case isFalse =>
    have hup := htry.atUpdate (alters sops)
    exact ⟨hup.adjusted, fun hr => hup.range ((hvrange hr).tryFor t sops false)⟩

theorem Adjusted.wake {q : Queue n} {st : Status} (hp : w.phase t = .sleeping q st) :
    w.Keeps (w.wake t q st).2 := by
  cases st with
  | interrupted => exact h.leave t q.alter
  | decided r =>
    refine ⟨h.setPhase w.pending ?_, id⟩
    intro q' st' hq
    cases hq
  | retry =>
    have htry := h.tryFor (h.undo t q _ hp) false
    unfold World.wake
    dsimp only
    split
    case isTrue =>
      refine ⟨htry.setPhase _ ?_, fun hr => hr.tryFor t q.sops false⟩
      intro q' st' hq
      obtain ⟨rfl, -⟩ := Phase.sleeping.inj hq
      exact ⟨.retry, hp⟩
    case isFalse =>
      obtain ⟨hadj, hrange⟩ := htry.leave t q.alter
      exact ⟨hadj, fun hr => hrange (hr.tryFor t q.sops false)⟩

end

theorem Adjusted.setval (h : w.Adjusted) (i : Fin n) (val : ℤ) (perm : Bool) : w.Keeps (w.setval i val perm) := by
  unfold World.setval
  split
  case isTrue => exact ⟨h, id⟩
  case isFalse hval =>
  set v : World n τ := { w with
    undo := fun t => (w.undo t).map fun adj => update adj i 0
    sem := update w.sem i { w.sem i with semval := val }
    net := fun t => update (w.net t) i 0 }
  have hadj : v.Adjusted := by
    refine h.reset (S := fun k => k = i) (fun t => ?_) (fun t k => ?_) rfl
    · change (w.undo t).map _ = _
      congr 1
      funext adj k
      exact update_apply adj i 0 k
    · exact update_apply (w.net t) i 0 k
  have hup := hadj.updateQueue w.pending
  refine ⟨hup.adjusted, fun hr => hup.range fun k => ?_⟩
  obtain rfl | hk := eq_or_ne k i
  · change 0 ≤ (update w.sem k _ k).semval ∧ (update w.sem k _ k).semval ≤ semvmx
    rw [update_self]
    dsimp only
    omega
  · have hsame : v.sem k = w.sem k := update_of_ne hk ..
    rw [hsame]
    exact hr k

theorem Adjusted.setall (h : w.Adjusted) (vals : Fin n → BitVec 16) (perm : Bool) : w.Keeps (w.setall vals perm) := by
  unfold World.setall
  split
  case isTrue => exact ⟨h, id⟩
  case isFalse hval =>
  set v : World n τ := { w with
    sem := fun i => { w.sem i with semval := (vals i).toNat }
    undo := fun t => (w.undo t).map fun _ => fun _ => 0
    net := fun _ _ => 0 }
  have hadj : v.Adjusted := h.reset (S := fun _ => True) (fun t => rfl) (fun t k => rfl) rfl
  have hup := hadj.updateQueue w.pending
  refine ⟨hup.adjusted, fun _ => hup.range fun k => ?_⟩
  exact ⟨Int.natCast_nonneg _, not_lt.mp fun hlt => hval (.inl ⟨k, hlt⟩)⟩

/-- The values after `sem_exit` are in range if and only if no adjustment takes one above the limit. -/
theorem Adjusted.semExit (h : w.Adjusted) (hidle : w.phase t = .idle) : (w.semExit t).Adjusted ∧
    (w.InRange → ((w.semExit t).InRange ↔ ∀ i, (w.sem i).semval + (w.adj t i).toInt ≤ semvmx)) := by
  unfold World.semExit
  cases hu : w.undo t with
  | none =>
    refine ⟨h.of_phase rfl rfl fun t q st hq => .inl ⟨st, hq⟩, fun hr => iff_of_true hr fun i => ?_⟩
    rw [adj_of_none hu]
    simpa using (hr i).2
  | some adj =>
    set v : World n τ := { w with
      alive := update w.alive t false
      undo := update w.undo t none
      sem := fun i => ⟨exitValue (w.sem i).semval (adj i), w.pid t⟩
      net := update w.net t fun _ => 0 }
    have hadj := adj_of_some hu
    have hother : ∀ u, u ≠ t → v.undo u = w.undo u ∧ v.net u = w.net u := fun u hut =>
      ⟨update_of_ne hut .., update_of_ne hut ..⟩
    have hself : v.undo t = none ∧ v.net t = fun _ => 0 := ⟨update_self .., update_self ..⟩
    have hvadj : v.Adjusted := by
      refine ⟨fun u i => ?_, fun u i hn => ?_, fun u q st hq hn => ?_, h.decrease⟩
      · obtain rfl | hut := eq_or_ne u t
        · rw [adj_of_none hself.1, hself.2]
          simp
        · rw [adj_congr (hother u hut).1, (hother u hut).2]
          exact h.adj u i
      · obtain rfl | hut := eq_or_ne u t
        · rw [hself.2]
        · rw [(hother u hut).2]
          exact h.net u i ((hother u hut).1 ▸ hn)
      · have hut : u ≠ t := by
          rintro rfl
          have hph : w.phase u = .sleeping q st := hq
          rw [hidle] at hph
          cases hph
        exact h.undo u q st hq ((hother u hut).1 ▸ hn)
    have hup := hvadj.updateQueue w.pending
    refine ⟨hup.adjusted, fun hr => ⟨fun hr' i => ?_, fun hle => hup.range fun i => ?_⟩⟩
    · have hmax := (hup.le i).trans (hr' i).2
      change exitValue (w.sem i).semval (adj i) ≤ semvmx at hmax
      unfold exitValue at hmax
      rw [hadj]
      split at hmax <;> omega
    · have hi := hle i
      rw [hadj] at hi
      change 0 ≤ exitValue (w.sem i).semval (adj i) ∧ exitValue (w.sem i).semval (adj i) ≤ semvmx
      have h0 : (0 : ℤ) ≤ semvmx := by decide
      unfold exitValue
      split <;> omega

end World

/-! ### Runs -/

theorem adjusted_boot (pid : τ → BitVec 32) : (boot n pid).Adjusted where
  adj _ _ := by
    change (0 : BitVec 16) = BitVec.ofInt 16 (-0)
    decide
  net _ _ _ := rfl
  undo _ _ _ hq := by cases hq
  decrease _ _ _ hq := by cases hq

theorem inRange_boot (pid : τ → BitVec 32) : (boot n pid).InRange := by
  intro _
  change (0 : ℤ) ≤ 0 ∧ (0 : ℤ) ≤ semvmx
  decide

/-- The condition on a step: an exit takes no value above `SEMVMX`. -/
def exitFits (w : World n τ) : Op n τ → Bool
  | .exit t => ∀ i, (w.sem i).semval + (w.adj t i).toInt ≤ semvmx
  | _ => true

variable [DecidableEq τ] {w w' : World n τ}

/-- **One step.**  The adjustments stay the negated changes modulo 2 ^ 16; the values stay in range, for an
exit if and only if it meets the condition. -/
theorem adjusted_step {op : Op n τ} (h : w.Adjusted) (hs : step w op = some w') :
    w'.Adjusted ∧ (w.InRange → (w'.InRange ↔ exitFits w op = true)) := by
  cases op with
  | semop t sops perm alloc =>
    change (if w.alive t ∧ w.phase t = .idle then some (w.semop t sops perm alloc).2 else none) = some w' at hs
    obtain ⟨-, rfl⟩ := of_guard hs
    exact (h.semop t sops perm alloc).iff_of_trivial
  | wake t =>
    unfold step at hs
    dsimp only at hs
    cases hp : w.phase t with
    | idle =>
      rw [hp] at hs
      cases hs
    | sleeping q st =>
      rw [hp] at hs
      cases hs
      exact (h.wake hp).iff_of_trivial
  | setval i val perm =>
    cases hs
    exact (h.setval i val perm).iff_of_trivial
  | setall vals perm =>
    cases hs
    exact (h.setall vals perm).iff_of_trivial
  | exit t =>
    change (if w.alive t ∧ w.phase t = .idle then some (w.semExit t) else none) = some w' at hs
    obtain ⟨hen, rfl⟩ := of_guard hs
    rw [exitFits, decide_eq_true_eq]
    exact h.semExit hen.2

/-- **Values and adjustments.** In every run whose exits take no value above the limit the values are in range, and the
adjustments are the negated changes exactly if those that the processes have made since the last reset fit a `short`.  A step
from such a state leaves a good one exactly if it is no exit above the limit and the changes then fit. -/
theorem good_iff_netFits {pid : τ → BitVec 32} (hr : ReachesBy step (fun w op => exitFits w op = true) (boot n pid) w) :
    w.InRange ∧ (w.Good ↔ w.NetFits) ∧
      ∀ op w', step w op = some w' → (w'.Good ↔ exitFits w op = true ∧ w'.NetFits) := by
  have hw : w.Adjusted ∧ w.InRange := by
    refine hr.invariant (I := fun v => v.Adjusted ∧ v.InRange) ⟨adjusted_boot pid, inRange_boot pid⟩ fun v op v' hv hk hs => ?_
    obtain ⟨hadj, hrange⟩ := adjusted_step hv.1 hs
    exact ⟨hadj, (hrange hv.2).mpr hk⟩
  refine ⟨hw.2, hw.1.good_iff.trans (and_iff_right hw.2), fun op w' hs => ?_⟩
  obtain ⟨hadj, hrange⟩ := adjusted_step hw.1 hs
  rw [hadj.good_iff, hrange hw.2]

/-- Process 0 takes the one unit with `SEM_UNDO`, process 1 waits for it, and gets it when process 0 exits. -/
theorem good_iff_netFits_unit : ∃ w : World 1 (Fin 2), (w.sem 0).semval = 0 ∧ w.net 1 0 = -1 ∧ w.Good := by
  obtain ⟨w, hr, hval, hnet, hfit⟩ : ∃ w : World 1 (Fin 2),
      ReachesBy step (fun w op => exitFits w op = true) (boot 1 fun _ => 7) w ∧ (w.sem 0).semval = 0 ∧ w.net 1 0 = -1 ∧
        ∀ t i, -32768 < w.net t i ∧ w.net t i ≤ 32768 :=
    ReachesBy.exists_of_exec [.setval 0 1 true, .semop 0 [⟨0, -1, true, false⟩] true true,
      .semop 1 [⟨0, -1, true, false⟩] true true, .exit 0, .wake 1] (by decide +kernel)
  exact ⟨w, hval, hnet, (good_iff_netFits hr).2.1.mpr hfit⟩

/-- Process 0 takes the unit of a semaphore with `SEM_UNDO`, process 1 adds 32767, and process 0 exits: the
value is 32768. -/
theorem exit_above_semvmx : ∃ w : World 1 (Fin 2), Reaches step (boot 1 fun _ => 7) w ∧
    (w.sem 0).semval = 32768 :=
  Reaches.exists_of_exec [.setval 0 1 true, .semop 0 [⟨0, -1, true, false⟩] true true,
    .semop 1 [⟨0, 32767, false, false⟩] true true, .exit 0] (by decide +kernel)

end I370Linux.SemRange
