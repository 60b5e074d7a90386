import I370Linux.SemRange

/-! # System V semaphores: the wake-ups

Over the calls on a semaphore set: does a process sleep in `semop` although its operations could go on?
`update_queue` makes one forward pass over the pending queue, marks the first decreasing entry that can proceed
as woken (it retries by itself) and completes the non-decreasing entries it passes.  Every call runs under the
kernel lock, so it is atomic.

The pass does not return to entries it has already seen.  `updateQueue_inv` says what it guarantees when no
entry raises a semaphore that an entry before it uses; `step_inv` is the invariant step and
`noLostWakeup_of_keepsWakeups` the result over whole runs. -/

namespace I370Linux.SysvSem

open Runs SemOps SemRange Function List

variable {n : ℕ} {τ : Type*}

/-! ### What an array reads and changes -/

theorem semval_applyOp (pid : BitVec 32) (s : State n) (sop : Sembuf n) (i : Fin n) :
    ((applyOp pid s sop).sem i).semval = (s.sem i).semval + if i = sop.semNum then sop.semOp.toInt else 0 := by
  unfold applyOp
  obtain rfl | h := eq_or_ne i sop.semNum
  · simp
  · simp [h]

/-- The result of an array depends on the values of its semaphores only. -/
theorem tryOps_fst_congr {pid pid' : BitVec 32} {doUndo doUndo' : Bool} (sops : List (Sembuf n)) :
    ∀ {done done' : List (Sembuf n)} {s s' : State n},
    (∀ sop ∈ sops, (s.sem sop.semNum).semval = (s'.sem sop.semNum).semval) →
    (tryOps pid doUndo done s sops).1 = (tryOps pid' doUndo' done' s' sops).1 := by
  induction sops with
  | nil => exact fun _ => rfl
  | cons sop rest ih =>
    intro done done' s s' h
    have hsop := h sop mem_cons_self
    have hval : ((applyOp pid s sop).sem sop.semNum).semval = ((applyOp pid' s' sop).sem sop.semNum).semval := by
      rw [semval_applyOp, semval_applyOp, hsop]
    have hzero : waitsForZero s sop = waitsForZero s' sop := by rw [waitsForZero, waitsForZero, hsop]
    simp only [tryOps, hzero, hval]
    split_ifs
    · rfl
    · rfl
    · rfl
    · exact ih fun c hc => by rw [semval_applyOp, semval_applyOp, h c (mem_cons_of_mem _ hc)]

theorem semval_foldl_frame {pid : BitVec 32} {i : Fin n} (sops : List (Sembuf n)) (s : State n)
    (h : ∀ sop ∈ sops, sop.semNum = i → sop.semOp = 0) :
    ((sops.foldl (applyOp pid) s).sem i).semval = (s.sem i).semval := by
  induction sops generalizing s with
  | nil => rfl
  | cons sop sops ih =>
    rw [foldl_cons, ih _ fun c hc => h c (mem_cons_of_mem _ hc), semval_applyOp]
    split_ifs with hi
    · rw [h sop mem_cons_self hi.symm]
      exact add_zero _
    · exact add_zero _

variable [DecidableEq τ] {w v : World n τ} {t u : τ} {sops : List (Sembuf n)} {p q : Queue n} {doUndo : Bool}

theorem tryFor_fst_congr (h : ∀ sop ∈ sops, (v.sem sop.semNum).semval = (w.sem sop.semNum).semval)
    (doUndo doUndo' : Bool) : (v.tryFor t sops doUndo).1 = (w.tryFor u sops doUndo').1 :=
  tryOps_fst_congr sops h

theorem tryFor_frame {i : Fin n} (h : ∀ sop ∈ sops, sop.semNum = i → sop.semOp = 0) :
    ((w.tryFor t sops doUndo).2.sem i).semval = (w.sem i).semval := by
  by_cases hb : (w.tryFor t sops doUndo).1 ≠ .ok ∨ doUndo = true
  · exact (World.tryFor_rolledBack hb).1 i
  · obtain ⟨-, -, heq⟩ := World.tryFor_committed hb
    rw [heq]
    exact semval_foldl_frame sops _ h

theorem tryFor_sleep (h : (w.tryFor t sops doUndo).1 = .sleep) (i : Fin n) :
    ((w.tryFor t sops doUndo).2.sem i).semval = (w.sem i).semval :=
  (World.tryFor_rolledBack (.inl fun hok => Result.noConfusion (h.symm.trans hok))).1 i

/-! ### The queue -/

/-- The array of a queued process would block. -/
def Blocks (w : World n τ) (t : τ) (q : Queue n) : Prop := (w.tryFor t q.sops q.decrease).1 = .sleep

/-- `update_queue` has woken the process, which will try again. -/
def woken : Phase n → Bool
  | .sleeping _ .retry => true
  | _ => false

/-- When nobody on the queue is about to retry, everybody on it sleeps and would block. -/
def NoLostWakeup (w : World n τ) : Prop :=
  (∀ t ∈ w.pending, woken (w.phase t) = false) →
    ∀ t ∈ w.pending, ∃ q, w.phase t = .sleeping q .interrupted ∧ Blocks w t q

/-- The entry `q`, which `update_queue` completes by itself, raises a semaphore that `p` uses. -/
def raisesFor (p q : Queue n) : Bool :=
  !q.decrease && q.sops.any fun b => decide (b.semOp ≠ 0) && p.sops.any fun c => c.semNum = b.semNum

def entry : Phase n → Option (Queue n)
  | .idle => none
  | .sleeping q _ => some q

/-- No process raises a semaphore that a process before it uses. -/
def quiet (w : World n τ) (l : List τ) : Prop :=
  l.Pairwise fun t u => ((entry (w.phase t)).any fun p => (entry (w.phase u)).any (raisesFor p)) = false

instance (w : World n τ) (l : List τ) : Decidable (quiet w l) := inferInstanceAs (Decidable (List.Pairwise _ l))

omit [DecidableEq τ] in
theorem quiet.congr {l : List τ} (h : quiet w l) (hp : ∀ t ∈ l, v.phase t = w.phase t) : quiet v l :=
  Pairwise.imp_of_mem (fun ht hu he => by rwa [hp _ ht, hp _ hu]) h

theorem Blocks.congr (h : Blocks w t q) (hv : ∀ i, (v.sem i).semval = (w.sem i).semval) : Blocks v t q :=
  (tryFor_fst_congr (fun _ _ => hv _) ..).trans h

theorem Blocks.tryFor (h : Blocks w u p) (hq : raisesFor p q = false) :
    Blocks (w.tryFor t q.sops q.decrease).2 u p := by
  refine (tryFor_fst_congr (fun c hc => ?_) ..).trans h
  cases hd : q.decrease with
  | true => exact (World.tryFor_rolledBack (.inr rfl)).1 _
  | false =>
    refine tryFor_frame fun b hb hbc => ?_
    by_contra hne
    simp only [raisesFor, hd, Bool.not_false, Bool.true_and, any_eq_false,
      Bool.and_eq_true, decide_eq_true_eq, any_eq_true] at hq
    exact hq b hb ⟨hne, c, hc, hbc.symm⟩

/-- The fields of a queue entry agree with its array, and only a decreasing entry is ever marked as woken. -/
def EntryOk (q : Queue n) (status : Status) : Prop :=
  (q.decrease = decreases q.sops ∧ q.alter = alters q.sops) ∧ (status = .retry → q.decrease = true)

/-- The queue holds sleepers, each once. -/
structure Queued (w : World n τ) : Prop where
  nodup : w.pending.Nodup
  waits : ∀ t ∈ w.pending, ∃ q, w.phase t = .sleeping q .interrupted ∨ w.phase t = .sleeping q .retry
  entries : ∀ t q st, w.phase t = .sleeping q st → EntryOk q st

/-- The invariant of the runs that keep their wakeups. -/
structure Inv (w : World n τ) : Prop where
  queued : Queued w
  wakeup : NoLostWakeup w

theorem Queued.setPhase {f : Phase n} (h : Queued w) (hphase : v.phase = update w.phase t f)
    (hpend : v.pending.Sublist w.pending) (hf : ∀ q st, f = .sleeping q st → EntryOk q st)
    (ht : t ∈ v.pending → ∃ q, f = .sleeping q .interrupted ∨ f = .sleeping q .retry) : Queued v := by
  refine ⟨h.nodup.sublist hpend, fun u hu => ?_, fun u q st hq => ?_⟩ <;> rw [hphase] at * <;>
    obtain rfl | hut := eq_or_ne u t
  · rw [update_self]
    exact ht hu
  · rw [update_of_ne hut]
    exact h.waits u (hpend.subset hu)
  · exact hf q st (by rwa [update_self] at hq)
  · exact h.entries u q st (by rwa [update_of_ne hut] at hq)

/-- The other processes keep their phases when one leaves the queue. -/
theorem Queued.phase_erase (h : Queued w) (f : Phase n) : ∀ u ∈ w.pending.erase t, update w.phase t f u = w.phase u :=
  fun _ hu => update_of_ne (ne_of_mem_of_not_mem hu h.nodup.not_mem_erase) ..

theorem NoLostWakeup.of_woken (ht : t ∈ w.pending) (h : w.phase t = .sleeping q .retry) : NoLostWakeup w := by
  intro hno
  have hwoken := hno t ht
  rw [h] at hwoken
  cases hwoken

theorem NoLostWakeup.congr (h : NoLostWakeup w) (hp : v.pending = w.pending)
    (hph : ∀ t ∈ w.pending, v.phase t = w.phase t) (hv : ∀ i, (v.sem i).semval = (w.sem i).semval) :
    NoLostWakeup v := by
  intro hno t ht
  rw [hp] at hno ht
  obtain ⟨q, hq, hb⟩ := h (fun u hu => hph u hu ▸ hno u hu) t ht
  exact ⟨q, (hph t ht).trans hq, hb.congr hv⟩

theorem Inv.congr (h : Inv w) (hp : v.pending = w.pending) (hph : v.phase = w.phase)
    (hv : ∀ i, (v.sem i).semval = (w.sem i).semval) : Inv v :=
  ⟨⟨hp ▸ h.queued.nodup, by rw [hp, hph]; exact h.queued.waits, by rw [hph]; exact h.queued.entries⟩,
    h.wakeup.congr hp (fun _ _ => congrFun hph _) hv⟩

/-- **One pass of `update_queue`.** If no entry raises a semaphore that an earlier one uses, the pass
ends with an entry marked as woken or with a queue of blocked entries. -/
theorem updateQueue_inv (rest : List τ) : ∀ (kept : List τ) (w : World n τ), w.pending = kept ++ rest →
    Queued w → quiet w w.pending → (∀ t ∈ kept, ∀ q st, w.phase t = .sleeping q st → Blocks w t q) →
    Inv (w.updateQueue rest) := by
  induction rest with
  | nil =>
    intro kept w hpend hq _ hk
    rw [World.updateQueue]
    refine ⟨hq, fun hno t ht => ?_⟩
    obtain ⟨q, hst | hst⟩ := hq.waits t ht
    · rw [hpend, append_nil] at ht
      exact ⟨q, hst, hk t ht q _ hst⟩
    · exact NoLostWakeup.of_woken ht hst hno t ht
  | cons t rest ih =>
    intro kept w hpend hq hquiet hk
    have ht : t ∈ w.pending := by simp [hpend]
    obtain ⟨q, st, hst⟩ : ∃ q st, w.phase t = .sleeping q st :=
      (hq.waits t ht).imp fun q h => h.elim (fun h => ⟨_, h⟩) fun h => ⟨_, h⟩
    have hok := hq.entries t q st hst
    rw [World.updateQueue, hst]
    dsimp only
    split_ifs with h1 h2 h3
    · subst h1
      exact ⟨hq, .of_woken ht hst⟩
    · refine ih (kept ++ [t]) _ (hpend.trans (by simp)) ⟨hq.nodup, hq.waits, hq.entries⟩ hquiet fun u hu p st' hp => ?_
      refine Blocks.congr ?_ (tryFor_sleep h2)
      obtain hu | hu := mem_append.mp hu
      · exact hk u hu p st' hp
      · obtain rfl := mem_singleton.mp hu
        obtain ⟨rfl, -⟩ := Phase.sleeping.inj (hst.symm.trans hp)
        exact h2
    · refine ⟨hq.setPhase rfl (Sublist.refl _) (fun p st' he => ?_) fun _ => ⟨q, .inr rfl⟩,
        .of_woken ht (update_self ..)⟩
      obtain ⟨rfl, rfl⟩ := Phase.sleeping.inj he
      exact ⟨hok.1, fun _ => h3.2⟩
    · -- the entry is done: the ones before it use nothing that it has raised
      have hkept : t ∉ kept := fun hm => disjoint_of_nodup_append (hpend ▸ hq.nodup) hm mem_cons_self
      have herase : w.pending.erase t = kept ++ rest := by
        rw [hpend, erase_append_right _ hkept, erase_cons_head]
      have hother := hq.phase_erase (t := t) (.sleeping q (.decided (w.tryFor t q.sops q.decrease).1))
      refine ih kept _ herase (hq.setPhase rfl erase_sublist (fun p st' he => ?_) fun hm => ?_)
        (quiet.congr (Pairwise.sublist erase_sublist hquiet) hother) fun u hu p st' hp => ?_
      · obtain ⟨rfl, rfl⟩ := Phase.sleeping.inj he
        exact ⟨hok.1, fun he => by cases he⟩
      · exact absurd hm hq.nodup.not_mem_erase
      have hpu : w.phase u = .sleeping p st' := (hother u (by simp [herase, hu])).symm.trans hp
      have hraise := (pairwise_append.mp (hpend ▸ hquiet : quiet w (kept ++ t :: rest))).2.2 u hu t mem_cons_self
      rw [hpu, hst] at hraise
      exact ((hk u hu p st' hpu).tryFor hraise).congr fun _ => rfl

theorem update_inv (hq : Queued w) (hquiet : quiet w w.pending) : Inv (w.updateQueue w.pending) :=
  updateQueue_inv w.pending [] w rfl hq hquiet fun _ ht => absurd ht not_mem_nil

/-! ### Whole runs -/

/-- The condition under which a step loses no wake-up.  A step that runs `update_queue` must find a
quiet queue; a woken process whose retry blocks again must leave another woken process, or be alone
on the queue. -/
def keepsWakeups (w : World n τ) : Op n τ → Bool
  | .semop t sops _ _ => !alters sops || decide ((w.tryFor t sops false).1 = .sleep) || decide (quiet w w.pending)
  | .wake t =>
    match w.phase t with
    | .idle | .sleeping _ (.decided _) => true
    | .sleeping _ .interrupted => quiet w w.pending
    | .sleeping q .retry =>
      if (w.tryFor t q.sops false).1 = .sleep then
        (w.pending.any fun u => u ≠ t && woken (w.phase u)) ||
          decide (w.pending = [t])
      else quiet w w.pending
  | .setval _ _ _ | .setall _ _ | .exit _ => quiet w w.pending

theorem Inv.enqueue (h : Inv w) (hidle : w.phase t = .idle)
    (hsem : ∀ i, (v.sem i).semval = (w.sem i).semval)
    (hpend : v.pending = w.pending ++ [t] ∨ v.pending = t :: w.pending)
    (hphase : v.phase = update w.phase t (.sleeping ⟨sops, decreases sops, alters sops⟩ .interrupted))
    (hb : (w.tryFor t sops false).1 = .sleep) : Inv v := by
  have hnot : t ∉ w.pending := fun hm => by
    obtain ⟨q, hq | hq⟩ := h.queued.waits t hm <;> rw [hidle] at hq <;> cases hq
  have hmem : ∀ u, u ∈ v.pending ↔ u ∈ w.pending ∨ u = t := fun u => by
    obtain hp | hp := hpend <;> simp [hp, or_comm]
  have hself : v.phase t = .sleeping ⟨sops, decreases sops, alters sops⟩ .interrupted := hphase ▸ update_self ..
  have hother : ∀ u, u ≠ t → v.phase u = w.phase u := fun u hu => by rw [hphase, update_of_ne hu]
  have hne : ∀ u ∈ w.pending, u ≠ t := fun u hu => ne_of_mem_of_not_mem hu hnot
  refine ⟨⟨?_, fun u hu => ?_, fun u q st hq => ?_⟩, fun hno u hu => ?_⟩
  · obtain hp | hp := hpend <;> rw [hp]
    · exact h.queued.nodup.append (nodup_singleton t) (disjoint_singleton.mpr hnot)
    · exact nodup_cons.mpr ⟨hnot, h.queued.nodup⟩
  · obtain hu | rfl := (hmem u).mp hu
    · rw [hother u (hne u hu)]
      exact h.queued.waits u hu
    · exact ⟨_, .inl hself⟩
  · obtain rfl | hut := eq_or_ne u t
    · obtain ⟨rfl, rfl⟩ := Phase.sleeping.inj (hself.symm.trans hq)
      exact ⟨⟨rfl, rfl⟩, fun he => by cases he⟩
    · exact h.queued.entries u q st (hother u hut ▸ hq)
  · obtain hu | rfl := (hmem u).mp hu
    · obtain ⟨q, hq, hblock⟩ := h.wakeup
        (fun x hx => hother x (hne x hx) ▸ hno x ((hmem x).mpr (.inl hx))) u hu
      exact ⟨q, (hother u (hne u hu)).trans hq, hblock.congr hsem⟩
    · exact ⟨_, hself, (tryFor_fst_congr (fun _ _ => hsem _) ..).trans hb⟩

theorem semop_inv (h : Inv w) (hidle : w.phase t = .idle) (perm alloc : Bool)
    (hk : alters sops = true → (w.tryFor t sops false).1 ≠ .sleep → quiet w w.pending) :
    Inv (w.semop t sops perm alloc).2 := by
  unfold World.semop
  dsimp only
  split
  case isTrue => exact h
  split
  case isTrue => exact h
  split
  case isTrue => exact h
  split
  case isTrue => exact h
  -- an undo structure that is allocated changes no value
  set v := if ((sops.any fun sop => sop.semUndo) && (w.undo t).isNone) = true then
    { w with undo := update w.undo t (some fun _ => 0) } else w with hv
  obtain ⟨hsem, hpend, hphase⟩ : v.sem = w.sem ∧ v.pending = w.pending ∧ v.phase = w.phase := by
    rw [hv]
    split_ifs <;> exact ⟨rfl, rfl, rfl⟩
  have hvinv : Inv v := h.congr hpend hphase fun i => by rw [hsem]
  have hres : (v.tryFor t sops false).1 = (w.tryFor t sops false).1 := tryFor_fst_congr (fun _ _ => by rw [hsem]) ..
  split
  case isTrue hs =>
    exact hvinv.enqueue (hphase ▸ hidle) (tryFor_sleep hs) ((em _).imp (if_pos ·) (if_neg ·)) rfl hs
  case isFalse hs =>
    dsimp only
    rw [World.atUpdate]
    split_ifs with ha
    · have hquiet := hk ha (hres ▸ hs)
      rw [← hpend] at hquiet
      exact update_inv ⟨hvinv.queued.nodup, hvinv.queued.waits, hvinv.queued.entries⟩ (hquiet.congr fun _ _ => congrFun hphase _)
    · -- only waits for zero: nothing changes
      refine hvinv.congr rfl rfl fun i => tryFor_frame fun b hb _ => ?_
      simp only [alters, decreases, Bool.or_eq_true, any_eq_true, decide_eq_true_eq, not_or, not_exists, not_and] at ha
      exact BitVec.eq_of_toInt_eq (le_antisymm (not_lt.mp (ha.2 b hb)) (not_lt.mp (ha.1 b hb)))

theorem Queued.idle (h : Queued w) :
    Queued { w with phase := update w.phase t .idle, pending := w.pending.erase t } :=
  h.setPhase rfl erase_sublist (fun _ _ he => by cases he) fun hm => absurd hm h.nodup.not_mem_erase

theorem leave_inv (hq : Queued w) (hquiet : quiet w w.pending) : Inv (w.leave t true) :=
  update_inv hq.idle (quiet.congr (Pairwise.sublist erase_sublist hquiet) (hq.phase_erase _))

theorem wake_inv {st : Status} (h : Inv w) (hst : w.phase t = .sleeping q st)
    (hk : keepsWakeups w (.wake t) = true) : Inv (w.wake t q st).2 := by
  simp only [keepsWakeups, hst] at hk
  obtain ⟨⟨hdec, halt⟩, hretry⟩ := h.queued.entries t q st hst
  cases st with
  | decided r =>
    have hnot : t ∉ w.pending := fun ht => by
      obtain ⟨p, hp | hp⟩ := h.queued.waits t ht <;> rw [hst] at hp <;> cases hp
    exact ⟨h.queued.setPhase rfl (Sublist.refl _) (fun _ _ he => by cases he) fun ht => absurd ht hnot,
      h.wakeup.congr rfl (fun u hu => update_of_ne (ne_of_mem_of_not_mem hu hnot) ..) fun _ => rfl⟩
  | interrupted =>
    change Inv (w.leave t q.alter)
    cases q.alter with
    | true => exact leave_inv h.queued (of_decide_eq_true hk)
    | false =>
      have hother := h.queued.phase_erase (t := t) .idle
      refine ⟨h.queued.idle, fun hno u hu => ?_⟩
      have hall : ∀ x ∈ w.pending, woken (w.phase x) = false := by
        intro x hx
        obtain rfl | hxt := eq_or_ne x t
        · rw [hst]
          rfl
        · have hx' := (mem_erase_of_ne hxt).mpr hx
          exact hother x hx' ▸ hno x hx'
      obtain ⟨p, hp, hb⟩ := h.wakeup hall u (mem_of_mem_erase hu)
      exact ⟨p, (hother u hu).trans hp, hb.congr fun _ => rfl⟩
  | retry =>
    unfold World.wake
    dsimp only
    dsimp only at hk
    split_ifs at hk ⊢ with hs
    · -- the retry blocked again: the values are as before, the entry goes back to sleep
      refine ⟨h.queued.setPhase rfl (Sublist.refl _) (fun p st' he => ?_) fun _ => ⟨q, .inl rfl⟩, fun hno u hu => ?_⟩
      · obtain ⟨rfl, rfl⟩ := Phase.sleeping.inj he
        exact ⟨⟨hdec, halt⟩, fun he => by cases he⟩
      obtain hk | hone := Bool.or_eq_true_iff.mp hk
      · obtain ⟨x, hx, hxk⟩ := any_eq_true.mp hk
        obtain ⟨hxt, hxp⟩ := Bool.and_eq_true_iff.mp hxk
        have hnone : woken (update w.phase t (.sleeping q .interrupted) x) = false := hno x hx
        rw [update_of_ne (of_decide_eq_true hxt), hxp] at hnone
        cases hnone
      · obtain rfl : u = t := mem_singleton.mp (of_decide_eq_true hone ▸ hu)
        exact ⟨q, update_self .., (tryFor_fst_congr (fun _ _ => tryFor_sleep hs _) ..).trans hs⟩
    · have hall : q.alter = true := by rw [halt, alters, ← hdec, hretry rfl, Bool.true_or]
      rw [hall]
      exact leave_inv ⟨h.queued.nodup, h.queued.waits, h.queued.entries⟩ (of_decide_eq_true hk)

theorem step_inv (w : World n τ) (op : Op n τ) (w' : World n τ) (h : Inv w) (hk : keepsWakeups w op = true)
    (hs : step w op = some w') : Inv w' := by
  cases op with
  | semop t sops perm alloc =>
    obtain ⟨hen, rfl⟩ := of_guard hs
    simp only [keepsWakeups, Bool.or_eq_true, Bool.not_eq_eq_eq_not, Bool.not_true, decide_eq_true_eq] at hk
    refine semop_inv h hen.2 perm alloc fun ha hr => ?_
    obtain (hk | hk) | hk := hk
    · rw [hk] at ha; cases ha
    · exact absurd hk hr
    · exact hk
  | wake t =>
    unfold step at hs
    dsimp only at hs
    cases hp : w.phase t with
    | idle => rw [hp] at hs; cases hs
    | sleeping q st =>
      rw [hp] at hs
      cases hs
      exact wake_inv h hp hk
  | setval i val perm =>
    cases hs
    unfold World.setval
    split_ifs
    · exact h
    · exact update_inv ⟨h.queued.nodup, h.queued.waits, h.queued.entries⟩ (of_decide_eq_true hk)
  | setall vals perm =>
    cases hs
    unfold World.setall
    split_ifs
    · exact h
    · exact update_inv ⟨h.queued.nodup, h.queued.waits, h.queued.entries⟩ (of_decide_eq_true hk)
  | exit t =>
    obtain ⟨-, rfl⟩ := of_guard hs
    unfold World.semExit
    cases w.undo t with
    | none => exact h.congr rfl rfl fun _ => rfl
    | some adj => exact update_inv ⟨h.queued.nodup, h.queued.waits, h.queued.entries⟩ (of_decide_eq_true hk)

/-- **No lost wake-up.** In every run whose steps meet `keepsWakeups`, whenever no queued process is
about to retry, every queued process would block. -/
theorem noLostWakeup_of_keepsWakeups (pid : τ → BitVec 32) (w : World n τ)
    (hr : ReachesBy step (fun w op => keepsWakeups w op = true) (boot n pid) w) : NoLostWakeup w :=
  (hr.invariant (I := Inv) ⟨⟨nodup_nil, fun _ ht => absurd ht not_mem_nil, fun _ _ _ hq => by cases hq⟩,
    fun _ _ ht => absurd ht not_mem_nil⟩
    step_inv).wakeup

/-- A decrement of semaphore `i`. -/
def dec (i : Fin n) : Sembuf n := ⟨i, -1, false, false⟩
/-- An increment of semaphore `i`. -/
def inc (i : Fin n) : Sembuf n := ⟨i, 1, false, false⟩
/-- A wait for semaphore `i` to be zero. -/
def zero (i : Fin n) : Sembuf n := ⟨i, 0, false, false⟩

/-- What the queue looks like: the processes, whether they are woken, and what they would get if they were
tried. -/
def view (w : World n τ) : List (τ × Bool × Option Result) :=
  w.pending.map fun t => (t, woken (w.phase t), (entry (w.phase t)).map fun q => (w.tryFor t q.sops q.decrease).1)

theorem NoLostWakeup.view (h : NoLostWakeup w) (hno : ∀ e ∈ view w, e.2.1 = false) :
    ∀ e ∈ view w, e.2.2 = some .sleep := by
  simp only [SysvSem.view, forall_mem_map] at hno ⊢
  intro t ht
  obtain ⟨q, hq, hb⟩ := h hno t ht
  rw [hq]
  exact congrArg some hb

/-- Two sleepers, of which the first is woken by the exit of a process with an undo adjustment and
the second stays blocked. -/
theorem noLostWakeup_undo : ∃ w : World 2 (Fin 4), view w = [(2, false, some .sleep)] ∧ NoLostWakeup w :=
  (ReachesBy.exists_of_exec (P := (view · = [(2, false, some .sleep)]))
    [.semop 3 [inc 0, ⟨0, -1, true, false⟩] true true, .semop 1 [dec 0] true true, .semop 2 [dec 1] true true,
      .exit 3, .wake 1] (by decide +kernel)).imp
    fun w ⟨hw, hv⟩ => ⟨hv, noLostWakeup_of_keepsWakeups (fun _ => 7) w hw⟩

/-- Wake-ups are lost in two ways: the pass of `SETVAL` completes process 2 after it has passed process 1, which could go on
now; and process 0 takes semaphore 0 from the woken process 1, whose failed retry looks at nobody. -/
theorem wakeups_lost :
    (∃ w : World 2 (Fin 4), Reaches step (boot 2 fun _ => 7) w ∧ view w = [(1, false, some .ok)] ∧ ¬ NoLostWakeup w) ∧
      ∃ w : World 2 (Fin 4), Reaches step (boot 2 fun _ => 7) w ∧
        view w = [(1, false, some .sleep), (2, false, some .ok)] ∧ ¬ NoLostWakeup w := by
  obtain ⟨w, hw, hv⟩ : ∃ w : World 2 (Fin 4), Reaches step (boot 2 fun _ => 7) w ∧ view w = [(1, false, some .ok)] :=
    Reaches.exists_of_exec [.semop 1 [dec 1] true true, .setval 0 1 true, .semop 2 [zero 0, inc 1] true true,
      .setval 0 0 true] (by decide +kernel)
  obtain ⟨w', hw', hv'⟩ : ∃ w : World 2 (Fin 4), Reaches step (boot 2 fun _ => 7) w ∧
      view w = [(1, false, some .sleep), (2, false, some .ok)] :=
    Reaches.exists_of_exec [.semop 1 [dec 0] true true, .semop 2 [dec 1] true true, .semop 3 [inc 0, inc 1] true true,
      .semop 0 [dec 0] true true, .wake 1] (by decide +kernel)
  refine ⟨⟨w, hw, hv, fun h => ?_⟩, ⟨w', hw', hv', fun h => ?_⟩⟩
  · have hall := h.view (by rw [hv]; decide)
    rw [hv] at hall
    exact absurd hall (by decide)
  · have hall := h.view (by rw [hv']; decide)
    rw [hv'] at hall
    exact absurd hall (by decide)

end I370Linux.SysvSem
