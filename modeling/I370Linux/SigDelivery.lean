import I370Linux.SigQueue

/-! # The delivery of the real-time signals

In every state the field `sigqueue_tail` is the end of the queue, the signals of its entries are pending, and
for each number what was queued and not discarded is what was delivered, followed by what waits
(`Queued`).

`do_sigaction` takes entries out without a look at `sigqueue_tail`: the pointer is left behind in a freed
entry exactly if the last entry is among them (`sane_iff_keepsTail`). -/

namespace I370Linux.Signals

open Runs Links Function List

variable {ι : Type*}

namespace World

/-! ### What waits -/

variable {w w' : World ι} {a : Addr} {l : List Addr} {n : ℤ} {sig : ℕ} {p : Task}

def waiting (w : World ι) (l : List Addr) (n : ℤ) : List Siginfo :=
  (l.map w.info).filter fun info => info.signo = n

theorem waiting_append (w : World ι) (l₁ l₂ : List Addr) (n : ℤ) :
    w.waiting (l₁ ++ l₂) n = w.waiting l₁ n ++ w.waiting l₂ n := by
  unfold waiting
  rw [map_append, filter_append]

theorem waiting_cons_of_eq (h : (w.info a).signo = n) : w.waiting (a :: l) n = w.info a :: w.waiting l n := by
  unfold waiting
  rw [map_cons, filter_cons_of_pos (by simpa using h)]

theorem waiting_cons_of_ne (h : (w.info a).signo ≠ n) : w.waiting (a :: l) n = w.waiting l n := by
  unfold waiting
  rw [map_cons, filter_cons_of_neg (by simpa using h)]

theorem waiting_eq_nil (h : ∀ a ∈ l, (w.info a).signo ≠ n) : w.waiting l n = [] := by
  unfold waiting
  rw [filter_eq_nil_iff]
  intro info hinfo
  obtain ⟨a, ha, rfl⟩ := mem_map.mp hinfo
  simpa using h a ha

theorem waiting_congr (h : ∀ a ∈ l, w'.info a = w.info a) (n : ℤ) : w'.waiting l n = w.waiting l n := by
  unfold waiting
  rw [map_congr_left h]

theorem waiting_filter (h : n ≠ sig) :
    w.waiting (l.filter fun a => (w.info a).signo ≠ sig) n = w.waiting l n := by
  induction l with
  | nil => rfl
  | cons a l ih =>
    by_cases ha : (w.info a).signo = sig
    · rw [filter_cons_of_neg (by simpa using ha), ih, waiting_cons_of_ne fun heq => h (heq.symm.trans ha)]
    · rw [filter_cons_of_pos (by simpa using ha)]
      by_cases han : (w.info a).signo = n
      · rw [waiting_cons_of_eq han, waiting_cons_of_eq han, ih]
      · rw [waiting_cons_of_ne han, waiting_cons_of_ne han, ih]

/-! ### Pending signals -/

def RtPending (p : Task) (n : ℤ) : Prop :=
  ∃ k : ℕ, n = k ∧ SIGRTMIN ≤ k ∧ k ≤ NSIG ∧ p.signal.sigismember k = true

theorem RtPending.of_signal {p' : Task} (h : RtPending p n) (hs : p'.signal = p.signal) : RtPending p' n := by
  obtain ⟨k, hk, hlow, hle, hmem⟩ := h
  exact ⟨k, hk, hlow, hle, hs ▸ hmem⟩

theorem RtPending.mark (h : RtPending p n) (hpos : 1 ≤ sig) (hle : sig ≤ NSIG) :
    RtPending (p.mark sig) n := by
  obtain ⟨k, hk, hlow, hk', hmem⟩ := h
  refine ⟨k, hk, hlow, hk', ?_⟩
  unfold Task.mark
  rw [Task.sigismember_sigaddset hpos hle (le_trans (by decide) hlow), hmem, Bool.true_or]

theorem rtPending_mark_self (p : Task) (hlow : SIGRTMIN ≤ sig) (hle : sig ≤ NSIG) :
    RtPending (p.mark sig) sig := by
  have hpos : 1 ≤ sig := le_trans (by decide) hlow
  refine ⟨sig, rfl, hlow, hle, ?_⟩
  unfold Task.mark
  rw [Task.sigismember_sigaddset hpos hle hpos, decide_eq_true rfl, Bool.or_true]

theorem RtPending.forget (h : RtPending p n) (hpos : 1 ≤ sig) (hne : n ≠ sig) :
    RtPending (p.forget sig) n := by
  obtain ⟨k, rfl, hlow, hk', hmem⟩ := h
  refine ⟨k, rfl, hlow, hk', ?_⟩
  unfold Task.forget Task.recalcSigpending
  have hks : k ≠ sig := fun h => hne (congrArg Nat.cast h)
  rw [Task.sigismember_sigdelset hpos (le_trans (by decide) hlow), hmem, decide_eq_false hks]
  rfl

theorem RtPending.cancel (h : RtPending p n) (sig : ℕ) : RtPending (p.cancel sig) n := by
  obtain ⟨k, rfl, hlow, hk', hmem⟩ := h
  refine ⟨k, rfl, hlow, hk', ?_⟩
  unfold Task.cancel
  split_ifs
  · have hmask : ∀ k : Fin 65, 32 ≤ k.val → ((sigmask SIGSTOP ||| sigmask SIGTSTP ||| sigmask SIGTTOU |||
        sigmask SIGTTIN).setWidth 64).getLsbD (k.val - 1) = false := by decide
    have hbit := hmask ⟨k, Nat.lt_succ_of_le hk'⟩ hlow
    have hlt : k - 1 < 64 := Nat.sub_one_lt_of_le (le_trans (by decide) hlow) hk'
    unfold Task.recalcSigpending SigSet.sigdelsetmask SigSet.sigismember
    rw [BitVec.getLsbD_and, BitVec.getLsbD_not, hbit, decide_eq_true hlt, Bool.not_false, Bool.and_true,
      Bool.and_true]
    exact hmem
  · have hks : k ≠ SIGCONT := fun h => absurd (h ▸ hlow) (by decide)
    unfold Task.recalcSigpending
    rw [Task.sigismember_sigdelset (by decide) (le_trans (by decide) hlow), hmem, decide_eq_false hks]
    rfl
  · exact hmem

end World

variable [DecidableEq ι]

/-! ### What was sent and what was delivered -/

/-- For each task and number: the information that was queued and not discarded, and what was delivered
from the queue. -/
structure History (ι : Type*) where
  kept : ι → ℤ → List Siginfo
  delivered : ι → ℤ → List Siginfo

namespace History

def queue (h : History ι) (t : ι) (info : Siginfo) : History ι :=
  { h with kept := update h.kept t (update (h.kept t) info.signo
      (h.kept t info.signo ++ [info])) }

def deliver (h : History ι) (t : ι) (sig : ℤ) (info : Siginfo) : History ι :=
  { h with delivered := update h.delivered t (update (h.delivered t) sig
      (h.delivered t sig ++ [info])) }

def drop (h : History ι) (t : ι) (sig : ℤ) : History ι :=
  { h with kept := update h.kept t (update (h.kept t) sig (h.delivered t sig)) }

theorem drop_eq_self {h : History ι} {t : ι} {sig : ℤ} (heq : h.kept t sig = h.delivered t sig) :
    h.drop t sig = h := by
  unfold drop
  rw [← heq, update_eq_self, update_eq_self]

def dropAll (h : History ι) (t : ι) : History ι :=
  { h with kept := update h.kept t (h.delivered t) }

end History

namespace World

section

variable (w : World ι) (t : ι) (a : Addr) (i : Siginfo)

theorem enqueue_info : (w.enqueue t a i).info = update w.info a i :=
  store_info ..

theorem enqueue_nrQueuedSignals : (w.enqueue t a i).nrQueuedSignals = w.nrQueuedSignals + 1 := by
  unfold enqueue
  dsimp only
  cases (w.task t).sigqueueTail <;> rfl

theorem enqueue_tail_self : ((w.enqueue t a i).task t).sigqueueTail = some a := by
  unfold enqueue setTail
  rw [setTask_self]

theorem unqueue_info (pp : Option Addr) : (w.unqueue t pp a).info = w.info := by
  unfold unqueue
  split_ifs
  · exact store_info ..
  · exact store_info ..

end

variable {w w' : World ι} {h : History ι} {e : ι → List Addr} {t : ι} {a : Addr}
  {l l₁ l₂ : List Addr} {n : ℤ} {sig : ℕ} {p : Task}

theorem enqueue_tail_of_ne {s : ι} (hs : s ≠ t) (w : World ι) (a : Addr) (i : Siginfo) :
    ((w.enqueue t a i).task s).sigqueueTail = (w.task s).sigqueueTail := by
  unfold enqueue setTail
  rw [setTask_of_ne hs]
  exact (sameRest_store _ t _ _).tail s

variable [Fintype ι]

structure Queued (w : World ι) (h : History ι) (e : ι → List Addr) : Prop extends Books w e where
  tail : ∀ t, (w.task t).sigqueueTail = (e t).getLast?
  pending : ∀ t, ∀ a ∈ e t, RtPending (w.task t) (w.info a).signo
  history : ∀ t n, h.kept t n = h.delivered t n ++ w.waiting (e t) n

omit [DecidableEq ι] in
theorem Queued.of_same (hq : Queued w h e) (hnext : w'.next = w.next) (hinfo : w'.info = w.info)
    (hlive : w'.live = w.live) (hnr : w'.nrQueuedSignals = w.nrQueuedSignals)
    (hqueue : ∀ t, (w'.task t).sigqueue = (w.task t).sigqueue)
    (htail : ∀ t, (w'.task t).sigqueueTail = (w.task t).sigqueueTail)
    (hpending : ∀ t, ∀ a ∈ e t, RtPending (w.task t) (w.info a).signo →
      RtPending (w'.task t) (w.info a).signo) : Queued w' h e where
  toBooks := by
    refine hq.toBooks.congr (fun t => ?_) hlive hnr
    funext x
    cases x with
    | none => exact hqueue t
    | some a => exact congrFun hnext a
  tail t := (htail t).trans (hq.tail t)
  pending t a ha := by
    rw [hinfo]
    exact hpending t a ha (hq.pending t a ha)
  history t n := by
    unfold waiting
    rw [hinfo]
    exact hq.history t n

theorem Queued.setTask {p : Task} (hq : Queued w h e) (hqueue : p.sigqueue = (w.task t).sigqueue)
    (htail : p.sigqueueTail = (w.task t).sigqueueTail)
    (hpending : ∀ a ∈ e t, RtPending (w.task t) (w.info a).signo → RtPending p (w.info a).signo) :
    Queued (w.setTask t p) h e := by
  refine hq.of_same rfl rfl rfl rfl (setTask_eq hqueue) (setTask_eq htail) fun s a ha hp => ?_
  obtain rfl | hs := eq_or_ne s t
  · rw [setTask_self]
    exact hpending a ha hp
  · rw [setTask_of_ne hs]
    exact hp

/-! ### One entry -/

theorem Queued.enqueue (hq : Queued w h e) (hfree : w.live a = false) {i : Siginfo} (hi : i.signo = sig)
    (hlow : SIGRTMIN ≤ sig) (hle : sig ≤ NSIG) :
    Queued ((w.enqueue t a i).setTask t (((w.enqueue t a i).task t).mark sig)) (h.queue t i)
      (update e t (e t ++ [a])) := by
  have hpos : 1 ≤ sig := le_trans (by decide) hlow
  have hnew : ∀ s, a ∉ e s := fun s hs => Bool.false_ne_true (hfree.symm.trans (hq.live s a hs))
  have hinfo : ∀ s, ∀ b ∈ e s, (w.enqueue t a i).info b = w.info b := by
    intro s b hb
    rw [enqueue_info]
    exact update_of_ne (fun hba : b = a => hnew s (hba ▸ hb)) ..
  have hself : (w.enqueue t a i).info a = i := by
    rw [enqueue_info]
    exact update_self ..
  have hsignal : ∀ s, ((w.enqueue t a i).task s).signal = (w.task s).signal :=
    fun s => congrArg (·.1) (samePend_enqueue w t a i s)
  refine ⟨?_, fun s => ?_, fun s b hb => ?_, fun s n => ?_⟩
  · refine (hq.toBooks.append (hq.tail t) hfree i).congr (fun s => load_setTask ?_ s) rfl rfl
    rfl
  · obtain rfl | hs := eq_or_ne s t
    · rw [setTask_self, update_self, List.getLast?_concat]
      exact enqueue_tail_self ..
    · rw [setTask_of_ne hs, update_of_ne hs, enqueue_tail_of_ne hs]
      exact hq.tail s
  · change RtPending _ ((w.enqueue t a i).info b).signo
    obtain ⟨rfl, hb⟩ | ⟨hs, hb⟩ := mem_update hb
    · rw [setTask_self]
      obtain hb | hb := mem_append.mp hb
      · rw [hinfo s b hb]
        exact ((hq.pending s b hb).of_signal (hsignal s)).mark hpos hle
      · obtain rfl := mem_singleton.mp hb
        rw [hself, hi]
        exact rtPending_mark_self _ hlow hle
    · rw [setTask_of_ne hs, hinfo s b hb]
      exact (hq.pending s b hb).of_signal (hsignal s)
  · change _ = _ ++ (w.enqueue t a i).waiting _ n
    unfold History.queue
    dsimp only
    obtain rfl | hs := eq_or_ne s t
    · rw [update_self, update_self, waiting_append, waiting_congr (hinfo s), ← append_assoc, ← hq.history s n]
      obtain rfl | hn := eq_or_ne n i.signo
      · rw [update_self, waiting_cons_of_eq (by rw [hself]), hself]
        rfl
      · rw [update_of_ne hn, waiting_cons_of_ne (by rw [hself]; exact Ne.symm hn)]
        exact (append_nil _).symm
    · rw [update_of_ne hs, update_of_ne hs, waiting_congr (hinfo s)]
      exact hq.history s n

theorem Queued.unqueue (hq : Queued w h e) (he : e t = l₁ ++ a :: l₂)
    (hl₁ : ∀ b ∈ l₁, (w.info b).signo ≠ sig) (ha : (w.info a).signo = sig) :
    Queued (w.unqueue t l₁.getLast? a) (h.deliver t sig (w.info a)) (update e t (l₁ ++ l₂)) := by
  have hchain : Chain (w.load t) (l₁ ++ a :: l₂) := he ▸ hq.chain t
  have hnext : w.next a = l₂.head? := hchain.next_some
  have hstore := sameRest_store w t l₁.getLast? (w.next a)
  have hsub : ∀ s, ∀ b ∈ update e t (l₁ ++ l₂) s, b ∈ e s := by
    intro s b hmem
    obtain ⟨rfl, hb⟩ | ⟨-, hb⟩ := mem_update hmem
    · rw [he, mem_append, mem_cons]
      exact (mem_append.mp hb).imp id .inr
    · exact hb
  have hsignal : ∀ s, ((w.unqueue t l₁.getLast? a).task s).signal = (w.task s).signal :=
    fun s => congrArg (·.1) (samePend_unqueue w t l₁.getLast? a s)
  refine ⟨?_, fun s => ?_, fun s b hb => ?_, fun s n => ?_⟩
  · refine (hq.toBooks.remove he).congr (fun s => ?_) ?_ ?_
    · unfold World.unqueue
      split_ifs
      · exact load_setTail ..
      · rfl
    · unfold World.unqueue
      split_ifs <;> rfl
    · unfold World.unqueue
      split_ifs <;> rfl
  · unfold World.unqueue
    dsimp only
    rw [hnext]
    obtain rfl | hs := eq_or_ne s t
    · rw [update_self]
      cases l₂ with
      | nil =>
        rw [if_pos List.head?_nil, append_nil]
        unfold freeEntry World.setTail
        rw [setTask_self]
      | cons b l₂ =>
        rw [if_neg (by simp)]
        unfold freeEntry
        rw [← hnext, hstore.tail s, hq.tail s, he]
        simp
    · rw [update_of_ne hs]
      split_ifs
      · unfold freeEntry World.setTail
        rw [setTask_of_ne hs, ← hnext, hstore.tail s]
        exact hq.tail s
      · unfold freeEntry
        rw [← hnext, hstore.tail s]
        exact hq.tail s
  · rw [unqueue_info]
    exact (hq.pending s b (hsub s b hb)).of_signal (hsignal s)
  · have hwait : ∀ l, (w.unqueue t l₁.getLast? a).waiting l n = w.waiting l n :=
      fun l => waiting_congr (fun b _ => congrFun (unqueue_info ..) b) n
    rw [hwait]
    unfold History.deliver
    dsimp only
    obtain rfl | hs := eq_or_ne s t
    · rw [update_self, update_self, hq.history s n, he, waiting_append, waiting_append]
      obtain rfl | hn := eq_or_ne n sig
      · rw [update_self, waiting_cons_of_eq ha, waiting_eq_nil hl₁]
        simp
      · rw [update_of_ne hn, waiting_cons_of_ne (by rw [ha]; exact Ne.symm hn)]
    · rw [update_of_ne hs, update_of_ne hs]
      exact hq.history s n

end World

/-! ### The calls -/

/-- The information of a signal names it, as in all calls of `send_sig_info` in the kernel. -/
def InfoArg.Names (info : InfoArg) (sig : ℤ) : Prop := ∀ i, info = .ptr i → i.signo = sig

theorem InfoArg.Names.fill {info : InfoArg} {sig : ℕ} (h : info.Names sig) (current : Task) :
    (info.fill sig current).signo = sig := by
  cases info with
  | null | kernel => rfl
  | ptr i => exact h i rfl

namespace World

variable [Fintype ι] {w w' : World ι} {h : History ι} {e : ι → List Addr} {t current : ι} {sig : ℕ}
  {info : InfoArg} {q : Option Addr} {low : ℤ}

/-- The queues are as before, or one entry is queued and counted. -/
inductive Sent (w w' : World ι) (h : History ι) (e : ι → List Addr) (t : ι) (q : Option Addr) : Prop where
  | same (count : w'.nrQueuedSignals = w.nrQueuedSignals) (queued : Queued w' h e)
  | entry (a : Addr) (alloc : q = some a) (count : w'.nrQueuedSignals = w.nrQueuedSignals + 1)
      (queued : Queued w' (h.queue t (w'.info a)) (update e t (e t ++ [a])))

theorem Sent.of_count {w₁ : World ι} (hs : Sent w₁ w' h e t q)
    (hcount : w₁.nrQueuedSignals = w.nrQueuedSignals) : Sent w w' h e t q := by
  obtain ⟨count, queued⟩ | ⟨a, alloc, count, queued⟩ := hs
  · exact .same (count.trans hcount) queued
  · exact .entry a alloc (hcount ▸ count) queued

section

variable (hq : Queued w h e)
include hq

theorem Queued.mark (hpos : 1 ≤ sig) (hle : sig ≤ NSIG) (t : ι) :
    Queued (w.setTask t ((w.task t).mark sig)) h e :=
  hq.setTask rfl rfl fun _ _ hp => hp.mark hpos hle

theorem Queued.deliver (hnames : info.Names sig) (hpos : 1 ≤ sig) (hle : sig ≤ NSIG)
    (halloc : w.allocatable q = true) : Sent w (w.deliver current t sig info q low).2 h e t q := by
  unfold World.deliver
  split
  · exact .same rfl hq
  split
  · split
    · exact .same rfl hq
    · exact .same rfl (hq.mark hpos hle t)
  case isFalse hrt =>
    split
    case h_1 a ha =>
      have hqa : q = some a := by
        unfold newEntry at ha
        split_ifs at ha
        exact ha
      have hfree : w.live a = false := by
        rw [hqa] at halloc
        simpa [allocatable] using halloc
      have hqueued := hq.enqueue (t := t) hfree (hnames.fill (w.task current)) (not_lt.mp hrt) hle
      have hself : (w.enqueue t a (info.fill sig (w.task current))).info a =
          info.fill sig (w.task current) := by
        rw [enqueue_info]
        exact update_self ..
      refine .entry a hqa (enqueue_nrQueuedSignals ..) ?_
      change Queued _ (h.queue t ((w.enqueue t a (info.fill sig (w.task current))).info a)) _
      rw [hself]
      exact hqueued
    · split
      · exact .same rfl hq
      · exact .same rfl (hq.mark hpos hle t)

theorem Queued.sendSigInfo {sig : ℤ} (hnames : info.Names sig) (halloc : w.allocatable q = true) :
    Sent w (w.sendSigInfo current t sig info q low).2 h e t q := by
  unfold World.sendSigInfo
  split
  · exact .same rfl hq
  case isFalse hrange =>
    split
    · exact .same rfl hq
    split
    · exact .same rfl hq
    case isFalse hzero =>
      have hsig : ((sig.toNat : ℕ) : ℤ) = sig := Int.toNat_of_nonneg (by omega)
      have hcancel : Queued (w.setTask t ((w.task t).cancel sig.toNat)) h e := by
        refine hq.setTask ?_ ?_ fun _ _ hp => hp.cancel _
        all_goals
          unfold Task.cancel
          split_ifs <;> rfl
      have hnames : info.Names sig.toNat := by
        rw [hsig]
        exact hnames
      exact (hcancel.deliver hnames (by omega) (by omega) halloc).of_count rfl

theorem Queued.forceSigInfo (hnames : info.Names sig) (halloc : w.allocatable q = true) :
    Sent w (w.forceSigInfo current t sig info q low).2 h e t q := by
  unfold World.forceSigInfo
  split
  · exact .same rfl hq
  case h_2 hand _ =>
    have hunblock : Queued (w.unblock t sig hand) h e := by
      have htask : Queued (w.setTask t { w.task t with blocked := (w.task t).blocked.sigdelset sig }) h e :=
        hq.setTask rfl rfl fun _ _ hp => hp.of_signal rfl
      exact htask.of_same rfl rfl rfl rfl (fun _ => rfl) (fun _ => rfl) fun _ _ _ hp => hp
    exact (hunblock.sendSigInfo hnames halloc).of_count rfl

theorem Queued.forget (hpos : 1 ≤ sig) (hnone : ∀ a ∈ e t, (w.info a).signo ≠ sig) :
    Queued (w.setTask t ((w.task t).forget sig)) h e :=
  hq.setTask rfl rfl fun a ha hp => hp.forget hpos (hnone a ha)

theorem Queued.dequeueSignal {mask : Mask} {fuel : ℕ} {r : Option Delivery × World ι}
    (hr : w.dequeueSignal current mask fuel = some r) :
    (∀ d, r.1 = some d → d.queued = false) ∧ Queued r.2 h e ∨
      ∃ d e', r.1 = some d ∧ d.queued = true ∧ Queued r.2 (h.deliver current d.sig d.info) e' := by
  unfold World.dequeueSignal at hr
  dsimp only at hr
  have hplain : ∀ (n : ℕ) d, some (Delivery.plain n) = some d → d.queued = false := by
    intro n d hd
    rw [← Option.some.inj hd]
    rfl
  split at hr
  · cases hr
    refine .inl ⟨fun d hd => absurd hd (by simp), ?_⟩
    split_ifs
    · exact hq.setTask rfl rfl fun _ _ hp => hp.of_signal rfl
    · exact hq
  · generalize hsig : BitVec.toNat _ + 1 = sig at hr
    have hpos : 1 ≤ sig := hsig ▸ Nat.le_add_left 1 _
    split at hr
    case isTrue hlow =>
      cases hr
      refine .inl ⟨hplain sig, hq.forget hpos fun a ha heq => ?_⟩
      obtain ⟨k, hk, hrt, -⟩ := hq.pending current a ha
      omega
    · split at hr
      · cases hr
      case h_2 pp hpp =>
        have hall : Chain (w.load current) ([] ++ e current) := hq.chain current
        obtain ⟨m₁, m₂, he, rfl, hm₁, hm₂⟩ := (findEntry_spec fuel hall).2 _ hpp
        rw [nil_append] at hr
        have hc : Chain (w.load current) (m₁ ++ m₂) := he ▸ hq.chain current
        rw [hc.next_eq m₁ m₂ rfl] at hr
        cases m₂ with
        | nil =>
          cases hr
          refine .inl ⟨hplain sig, hq.forget hpos fun a ha => ?_⟩
          rw [he, append_nil] at ha
          exact hm₁ a ha
        | cons a l₂ =>
          rw [List.head?_cons] at hr
          dsimp only at hr
          have hun := hq.unqueue he hm₁ (hm₂ a rfl)
          split at hr
          · cases hr
          case h_2 pp' hpp' =>
            have hc' := hun.chain current
            rw [update_self] at hc'
            obtain ⟨k₁, k₂, hk, rfl, hk₁, -⟩ := (findEntry_spec fuel hc').2 _ hpp'
            cases hr
            refine .inr ⟨_, update e current (m₁ ++ l₂), rfl, rfl, ?_⟩
            split_ifs with hlast
            · refine hun.forget hpos fun b hb => ?_
              rw [update_self, mem_append] at hb
              rw [hk, ← append_assoc] at hc'
              rw [hc'.next_eq (m₁ ++ k₁) k₂ rfl, List.head?_eq_none_iff] at hlast
              rw [hk, hlast, append_nil] at hb
              obtain hb | hb := hb
              · rw [unqueue_info]
                exact hm₁ b hb
              · exact hk₁ b hb
            · exact hun.setTask rfl rfl fun _ _ hp => hp.of_signal rfl

theorem Queued.sysRtSigprocmask (how : ℤ) (set : Option (Option SigSet))
    (oset : Option Bool) (sizeOk : Bool) :
    Queued (w.sysRtSigprocmask current how set oset sizeOk).2 h e := by
  unfold World.sysRtSigprocmask
  dsimp only
  split
  · exact hq
  · split
    · exact hq
    · exact hq
    · exact hq.setTask rfl rfl fun _ _ hp => hp.of_signal rfl

theorem Queued.sysSigprocmask (how : ℤ) (set : Option (Option (BitVec 32)))
    (oset : Option Bool) : Queued (w.sysSigprocmask current how set oset).2 h e := by
  unfold World.sysSigprocmask
  dsimp only
  split
  · exact hq
  · exact hq
  · exact hq.setTask rfl rfl fun _ _ hp => hp.of_signal rfl

theorem Queued.discard (hpos : 1 ≤ sig) (hd : Discarded w w' t sig e [] (e t))
    (htail : ∀ a, (w.task t).sigqueueTail = some a → (w.info a).signo ≠ sig) :
    Queued (w'.setTask t ((w'.task t).forget sig)) (h.drop t sig)
      (update e t ((e t).filter fun a => (w.info a).signo ≠ sig)) := by
  have hbooks : Books w' (update e t ((e t).filter fun a => (w.info a).signo ≠ sig)) := hd.books
  have hin : ∀ s, ∀ a ∈ update e t ((e t).filter fun a => (w.info a).signo ≠ sig) s,
      a ∈ e s ∧ (s = t → (w.info a).signo ≠ sig) := by
    intro s a hmem
    obtain ⟨rfl, ha⟩ | ⟨hs, ha⟩ := mem_update hmem
    · have hfilter := mem_filter.mp ha
      exact ⟨hfilter.1, fun _ => of_decide_eq_true hfilter.2⟩
    · exact ⟨ha, fun h => absurd h hs⟩
  refine ⟨hbooks.congr (fun s => load_setTask ?_ s) rfl rfl, fun s => ?_, fun s a ha => ?_, fun s n => ?_⟩
  · rfl
  · obtain rfl | hs := eq_or_ne s t
    · rw [setTask_self, update_self]
      change (w'.task s).sigqueueTail = _
      rw [hd.rest.tail s, hq.tail s]
      obtain hnil | ⟨l, a, hl⟩ := eq_nil_or_concat' (e s)
      · rw [hnil]
        rfl
      · have ha : (w.info a).signo ≠ sig := htail a (by rw [hq.tail s, hl, List.getLast?_concat])
        rw [hl, filter_append, filter_cons_of_pos (by simpa using ha), filter_nil,
          List.getLast?_concat, List.getLast?_concat]
    · rw [setTask_of_ne hs, update_of_ne hs, hd.rest.tail s]
      exact hq.tail s
  · change RtPending _ (w'.info a).signo
    rw [hd.info]
    have hp := (hq.pending s a (hin s a ha).1).of_signal (hd.rest.signal s)
    obtain rfl | hs := eq_or_ne s t
    · rw [setTask_self]
      exact hp.forget hpos ((hin s a ha).2 rfl)
    · rw [setTask_of_ne hs]
      exact hp
  · have hwait : ∀ l, (w'.setTask t ((w'.task t).forget sig)).waiting l n = w.waiting l n :=
      fun l => waiting_congr (fun b _ => congrFun hd.info b) n
    rw [hwait]
    unfold History.drop
    dsimp only
    obtain rfl | hs := eq_or_ne s t
    · rw [update_self, update_self]
      obtain rfl | hn := eq_or_ne n sig
      · rw [update_self, waiting_eq_nil fun a ha => (hin s a (by rwa [update_self])).2 rfl, append_nil]
      · rw [update_of_ne hn, waiting_filter hn]
        exact hq.history s n
    · rw [update_of_ne hs, update_of_ne hs]
      exact hq.history s n

theorem Queued.discard_none (hpos : 1 ≤ sig) (hnone : ∀ a ∈ e t, (w.info a).signo ≠ sig) :
    Queued (w.setTask t ((w.task t).forget sig)) (h.drop t sig) e := by
  have hhistory := hq.history t sig
  rw [waiting_eq_nil hnone, append_nil] at hhistory
  rw [History.drop_eq_self hhistory]
  exact hq.forget hpos hnone

end

/-- The call changes the action, and pending signals are discarded. -/
def discardsAction (sig : ℤ) (act : Option Handler) : Bool :=
  decide (1 ≤ sig ∧ sig ≤ NSIG ∧ sig ≠ SIGKILL ∧ sig ≠ SIGSTOP) && act.any (discards sig.toNat)

/-- What `do_sigaction` does to the queues. -/
inductive ActionEffect (w w' : World ι) (t : ι) (sig : ℕ) (e : ι → List Addr) : Prop where
  | none (member : ¬ (SIGRTMIN ≤ sig ∧ (w.task t).signal.sigismember sig = true))
      (eq : w' = w.setTask t ((w.task t).forget sig))
  | discarded (w₁ : World ι) (done : Discarded w w₁ t sig e [] (e t))
      (eq : w' = w₁.setTask t ((w₁.task t).forget sig))

theorem Queued.doSigaction {hand : ℕ} {sig : ℤ} {act : Option Handler} {fuel : ℕ} {r : ℤ × World ι}
    (hq : Queued w h e) (hr : w.doSigaction current hand sig act fuel = some r) :
    discardsAction sig act = false ∧ Queued r.2 h e ∨
      discardsAction sig act = true ∧ ∃ w₁ : World ι, w₁.task = w.task ∧ w₁.info = w.info ∧
        Queued w₁ h e ∧ ActionEffect w₁ r.2 current sig.toNat e := by
  unfold World.doSigaction at hr
  unfold discardsAction
  split at hr
  case isTrue hbad =>
    cases hr
    refine .inl ⟨?_, hq⟩
    cases act with
    | none => exact Bool.and_false _
    | some act =>
      rw [Bool.and_eq_false_iff]
      left
      have hbad : sig < 1 ∨ sig > NSIG ∨ sig = SIGKILL ∨ sig = SIGSTOP := by simpa using hbad
      refine decide_eq_false fun hok => ?_
      obtain ⟨h1, h2, h3, h4⟩ := hok
      obtain h | h | h | h := hbad
      · omega
      · omega
      · exact h3 h
      · exact h4 h
  case isFalse hok =>
    split at hr
    · cases hr
      exact .inl ⟨Bool.and_false _, hq⟩
    case h_2 act =>
      have hok : 1 ≤ sig ∧ sig ≤ NSIG ∧ sig ≠ SIGKILL ∧ sig ≠ SIGSTOP := by
        simpa [not_or] using hok
      rw [decide_eq_true hok, Bool.true_and, Option.any_some]
      dsimp only at hr
      have hact : ∀ action, Queued { w with action := action } h e := fun action =>
        hq.of_same rfl rfl rfl rfl (fun _ => rfl) (fun _ => rfl) fun _ _ _ hp => hp
      split at hr
      case isTrue hdis =>
        let action := update w.action hand (update (w.action hand) sig.toNat act)
        refine .inr ⟨hdis, { w with action := action }, rfl, rfl, hact action, ?_⟩
        obtain ⟨w₁, hw₁, rfl⟩ := Option.map_eq_some_iff.mp hr
        split at hw₁
        · exact .discarded w₁ ((discardEntries_spec current _ fuel (hact action).toBooks rfl).2 w₁ hw₁) rfl
        case isFalse hmem =>
          cases hw₁
          exact .none hmem rfl
      case isFalse hdis =>
        cases hr
        exact .inl ⟨Bool.eq_false_iff.mpr hdis, hact _⟩

theorem ActionEffect.queued_iff {r : World ι} (hq : Queued w h e) (hpos : 1 ≤ sig)
    (heff : ActionEffect w r t sig e) : (∃ e', Queued r (h.drop t sig) e') ↔
      ∀ a, (w.task t).sigqueueTail = some a → (w.info a).signo ≠ sig := by
  cases heff with
  | none hmem hr =>
    have hnone : ∀ a ∈ e t, (w.info a).signo ≠ sig := by
      intro a ha heq
      obtain ⟨k, hk, hlow, -, hp⟩ := hq.pending t a ha
      obtain rfl : k = sig := by omega
      exact hmem ⟨hlow, hp⟩
    refine iff_of_true ⟨e, hr ▸ hq.discard_none hpos hnone⟩ fun a ha => hnone a ?_
    rw [hq.tail t] at ha
    exact mem_of_getLast? ha
  | discarded w₁ hd hr =>
    constructor
    · rintro ⟨e', hq'⟩ a ha hsig
      have hmem : a ∈ e t := mem_of_getLast? (hq.tail t ▸ ha)
      have htail := hq'.tail t
      rw [hr, setTask_self] at htail
      change (w₁.task t).sigqueueTail = _ at htail
      rw [hd.rest.tail t, ha] at htail
      have hlive := hq'.live t a (mem_of_getLast? htail.symm)
      rw [hr] at hlive
      exact Bool.false_ne_true ((hd.freed a hmem hsig).symm.trans hlive)
    · intro htail
      exact ⟨_, hr ▸ hq.discard hpos hd htail⟩

theorem Queued.flushSignals {fuel : ℕ} (hq : Queued w h e) (hw' : w.flushSignals t fuel = some w') :
    Queued w' (h.dropAll t) (update e t []) := by
  set p : Task := { w.task t with
    sigpending := false, signal := 0, sigqueue := none, sigqueueTail := none }
  have hlinked : Linked (w.setTask t p).next (w.task t).sigqueue (e t) :=
    (hq.chain t).linked_of_cut [] (e t) rfl
  obtain ⟨htask, hnext, hinfo, hnr, hlive⟩ := (freeEntries_spec fuel hlinked).2 w' hw'
  have hself : w'.task t = p := by
    rw [htask]
    exact setTask_self ..
  have hother : ∀ s, s ≠ t → w'.task s = w.task s := by
    intro s hs
    rw [htask]
    exact setTask_of_ne hs ..
  refine ⟨⟨fun s => ?_, fun s a ha => ?_, fun s u a hs hu => ?_, ?_⟩, fun s => ?_, fun s a ha => ?_,
    fun s n => ?_⟩
  · obtain rfl | hs := eq_or_ne s t
    · rw [update_self]
      refine Chain.of_empty ?_
      unfold load
      rw [hself]
    · rw [update_of_ne hs]
      refine (hq.chain s).congr ?_ fun a _ => ?_
      · unfold load
        rw [hother s hs]
      · exact congrFun hnext a
  · obtain ⟨-, ha⟩ | ⟨hs, ha⟩ := mem_update ha
    · cases ha
    · rw [hlive a fun hat => hs (hq.disjoint s t a ha hat)]
      exact hq.live s a ha
  · obtain ⟨-, ha⟩ | ⟨-, ha⟩ := mem_update hs
    · cases ha
    obtain ⟨-, ha'⟩ | ⟨-, ha'⟩ := mem_update hu
    · cases ha'
    exact hq.disjoint s u a ha ha'
  · rw [hnr, sum_length_update, ← hq.count]
    change w.nrQueuedSignals - _ = _
    simp
  · obtain rfl | hs := eq_or_ne s t
    · rw [update_self, hself]
      rfl
    · rw [update_of_ne hs, hother s hs]
      exact hq.tail s
  · obtain ⟨-, ha⟩ | ⟨hs, ha⟩ := mem_update ha
    · cases ha
    · rw [hother s hs, hinfo]
      exact hq.pending s a ha
  · unfold History.dropAll
    dsimp only
    obtain rfl | hs := eq_or_ne s t
    · rw [update_self, update_self]
      exact (append_nil _).symm
    · rw [update_of_ne hs, update_of_ne hs, waiting_congr fun a _ => congrFun hinfo a]
      exact hq.history s n

end World

/-! ### Runs -/

variable [Fintype ι]

/-- An entry was queued if there is one more than before. -/
def recordSent (w w' : World ι) (h : History ι) (t : ι) (q : Option Addr) : History ι :=
  match q with
  | some a => if w'.nrQueuedSignals = w.nrQueuedSignals + 1 then h.queue t (w'.info a) else h
  | none => h

def record (w w' : World ι) (h : History ι) : Op ι → History ι
  | .send _ t _ _ q _ | .force _ t _ _ q _ => recordSent w w' h t q
  | .dequeue current mask fuel =>
    match w.dequeueSignal current mask fuel with
    | some (some d, _) => if d.queued then h.deliver current d.sig d.info else h
    | _ => h
  | .sigaction current sig act _ => if World.discardsAction sig act then h.drop current sig else h
  | .flush t _ => h.dropAll t
  | .rtSigprocmask .. | .sigprocmask .. => h

def stepHistory (s : World ι × History ι) (op : Op ι) : Option (World ι × History ι) :=
  (step s.1 op).map fun w' => (w', record s.1 w' s.2 op)

/-- The queues of all tasks are in order. -/
def Sane (s : World ι × History ι) : Prop := ∃ e, World.Queued s.1 s.2 e

/-- The information that goes with a signal names it. -/
def Op.WellFormed : Op ι → Prop
  | .send _ _ sig info _ _ => info.Names sig
  | .force _ _ sig info _ _ => info.Names sig
  | _ => True

/-- `do_sigaction` does not discard the entry at the tail. -/
def KeepsTail (w : World ι) : Op ι → Prop
  | .sigaction current sig act _ => World.discardsAction sig act = true →
      ∀ a, (w.task current).sigqueueTail = some a → (w.info a).signo ≠ sig
  | _ => True

theorem World.Sent.sane {w w' : World ι} {h : History ι} {e : ι → List Addr} {t : ι} {q : Option Addr}
    (hs : World.Sent w w' h e t q) : Sane (w', recordSent w w' h t q) := by
  unfold recordSent
  obtain ⟨count, queued⟩ | ⟨a, rfl, count, queued⟩ := hs
  · have hne : w'.nrQueuedSignals ≠ w.nrQueuedSignals + 1 := by omega
    cases q with
    | none => exact ⟨e, queued⟩
    | some a =>
      dsimp only
      rw [if_neg hne]
      exact ⟨e, queued⟩
  · dsimp only
    rw [if_pos count]
    exact ⟨_, queued⟩

theorem step_sane_iff {s s' : World ι × History ι} {op : Op ι} (hs : Sane s) (hwf : op.WellFormed)
    (hstep : stepHistory s op = some s') : Sane s' ↔ KeepsTail s.1 op := by
  obtain ⟨e, hq⟩ := hs
  obtain ⟨w', hw', rfl⟩ := Option.map_eq_some_iff.mp hstep
  cases op with
  | send current t sig info q low =>
    dsimp only [step] at hw'
    split at hw'
    case isTrue halloc =>
      obtain rfl := Option.some.inj hw'
      exact iff_of_true (hq.sendSigInfo hwf halloc).sane trivial
    · cases hw'
  | force current t sig info q low =>
    dsimp only [step] at hw'
    split at hw'
    case isTrue hc =>
      obtain rfl := Option.some.inj hw'
      exact iff_of_true (hq.forceSigInfo hwf hc.1).sane trivial
    · cases hw'
  | dequeue current mask fuel =>
    obtain ⟨⟨d, w''⟩, hr, rfl⟩ := Option.map_eq_some_iff.mp hw'
    refine iff_of_true ?_ trivial
    unfold record
    dsimp only
    rw [hr]
    obtain ⟨hplain, hq'⟩ | ⟨d', e', hd, hqueued, hq'⟩ := hq.dequeueSignal hr
    · cases d with
      | none => exact ⟨e, hq'⟩
      | some d =>
        dsimp only
        rw [hplain d rfl, if_neg Bool.false_ne_true]
        exact ⟨e, hq'⟩
    · subst hd
      dsimp only
      rw [hqueued, if_pos rfl]
      exact ⟨e', hq'⟩
  | rtSigprocmask current how set oset sizeOk =>
    obtain rfl := Option.some.inj hw'
    exact iff_of_true ⟨e, hq.sysRtSigprocmask how set oset sizeOk⟩ trivial
  | sigprocmask current how set oset =>
    obtain rfl := Option.some.inj hw'
    exact iff_of_true ⟨e, hq.sysSigprocmask how set oset⟩ trivial
  | sigaction current sig act fuel =>
    obtain ⟨hand, -, hw'⟩ := Option.bind_eq_some_iff.mp hw'
    obtain ⟨r, hr, rfl⟩ := Option.map_eq_some_iff.mp hw'
    unfold record KeepsTail
    dsimp only
    obtain ⟨hno, hq'⟩ | ⟨hyes, w₁, htask, hinfo, hq₁, heff⟩ := hq.doSigaction hr
    · rw [hno, if_neg Bool.false_ne_true]
      exact iff_of_true ⟨e, hq'⟩ nofun
    have hrange := hyes
    have hrange := of_decide_eq_true (Bool.and_eq_true_iff.mp hrange).1
    have hsig : ((sig.toNat : ℕ) : ℤ) = sig := Int.toNat_of_nonneg (by omega)
    have hiff := heff.queued_iff hq₁ (by omega)
    rw [hyes, if_pos rfl]
    rw [htask, hinfo, hsig] at hiff
    exact hiff.trans ⟨fun h _ => h, fun h => h rfl⟩
  | flush t fuel => exact iff_of_true ⟨_, hq.flushSignals hw'⟩ trivial

theorem loops_end {s : World ι × History ι} (hs : Sane s) (t : ι) : ∃ n, ∀ fuel ≥ n,
    (∀ mask, (s.1.dequeueSignal t mask fuel).isSome = true) ∧
      (∀ hand sig act, (s.1.doSigaction t hand sig act fuel).isSome = true) ∧
      (s.1.flushSignals t fuel).isSome = true := by
  obtain ⟨e, hq⟩ := hs
  refine ⟨(e t).length + 1, fun fuel hfuel => ⟨fun mask => ?_, fun hand sig act => ?_, ?_⟩⟩
  · unfold World.dequeueSignal
    dsimp only
    generalize BitVec.toNat _ + 1 = sig
    split
    · rfl
    split
    · rfl
    have hall : Chain (s.1.load t) ([] ++ e t) := hq.chain t
    obtain ⟨pp, hpp⟩ : ∃ pp, s.1.findEntry t sig fuel none = some pp :=
      Option.isSome_iff_exists.mp ((World.findEntry_spec fuel hall).1 hfuel)
    obtain ⟨m₁, m₂, he, rfl, hm₁, hm₂⟩ := (World.findEntry_spec fuel hall).2 pp hpp
    have hc : Chain (s.1.load t) (m₁ ++ m₂) := he ▸ hq.chain t
    rw [hpp, nil_append]
    dsimp only
    rw [hc.next_eq m₁ m₂ rfl]
    cases m₂ with
    | nil => rfl
    | cons a l₂ =>
      rw [List.head?_cons]
      dsimp only
      have hc' := (hq.unqueue he hm₁ (hm₂ a rfl)).chain t
      rw [update_self] at hc'
      have hlen : l₂.length < fuel := by
        rw [he, length_append, length_cons] at hfuel
        omega
      obtain ⟨pp, hpp⟩ : ∃ pp, (s.1.unqueue t m₁.getLast? a).findEntry t sig fuel m₁.getLast? =
          some pp := Option.isSome_iff_exists.mp ((World.findEntry_spec fuel hc').1 hlen)
      rw [hpp]
      rfl
  · unfold World.doSigaction
    split
    · rfl
    split
    · rfl
    dsimp only
    split
    · rw [Option.isSome_map]
      split
      · have hact : ∀ action, World.Queued { s.1 with action := action } s.2 e := fun action =>
          hq.of_same rfl rfl rfl rfl (fun _ => rfl) (fun _ => rfl) fun _ _ _ hp => hp
        have he : e t = [] ++ e t := rfl
        exact (World.discardEntries_spec t _ fuel (hact _).toBooks he).1 hfuel
      · rfl
    · rfl
  · refine (World.freeEntries_spec fuel ?_).1 hfuel
    exact (hq.chain t).linked_of_cut [] (e t) rfl

structure World.Empty (w : World ι) : Prop where
  head : ∀ t, (w.task t).sigqueue = none
  tail : ∀ t, (w.task t).sigqueueTail = none
  count : w.nrQueuedSignals = 0

def History.empty : History ι := ⟨fun _ _ => [], fun _ _ => []⟩

omit [DecidableEq ι] in
theorem World.Empty.sane {w : World ι} (hw : w.Empty) : Sane (w, History.empty) := by
  refine ⟨fun _ => [], ⟨fun t => ?_, ?_, ?_, ?_⟩, hw.tail, ?_, fun _ _ => rfl⟩
  · exact Chain.of_empty (hw.head t)
  · exact fun _ _ ha => absurd ha not_mem_nil
  · exact fun _ _ _ ha => absurd ha not_mem_nil
  · rw [hw.count]
    simp
  · exact fun _ _ ha => absurd ha not_mem_nil

/-- **The queues of the real-time signals.**  In every run from empty queues in which `do_sigaction` never
discards the entry at the tail, the queues are in order in every state; and a call keeps them in order
exactly if it does not. -/
theorem sane_iff_keepsTail {w₀ : World ι} {s s' : World ι × History ι} {op : Op ι} (h₀ : w₀.Empty)
    (hr : ReachesBy stepHistory (fun s op => op.WellFormed ∧ KeepsTail s.1 op) (w₀, History.empty) s)
    (hwf : op.WellFormed) (hstep : stepHistory s op = some s') :
    Sane s ∧ (Sane s' ↔ KeepsTail s.1 op) := by
  have hs : Sane s := hr.invariant h₀.sane fun _ _ _ hs hc hstep => (step_sane_iff hs hc.1 hstep).mpr hc.2
  exact ⟨hs, step_sane_iff hs hwf hstep⟩

theorem empty_quiet : quiet.Empty := ⟨fun _ => rfl, fun _ => rfl, rfl⟩

theorem sane_iff_keepsTail_quiet :
    ∃ s, stepHistory (quiet, History.empty) (.send () () 40 .kernel (some 7) 0) = some s ∧ Sane s := by
  obtain ⟨s, hs⟩ : ∃ s, stepHistory (quiet, History.empty) (.send () () 40 .kernel (some 7) 0) = some s :=
    ⟨_, rfl⟩
  have hwf : Op.WellFormed (.send () () 40 .kernel (some 7) 0) := fun _ h => absurd h (by simp)
  exact ⟨s, hs, (sane_iff_keepsTail empty_quiet (.refl _) hwf hs).2.mpr trivial⟩

/-- A real-time signal is sent and then ignored: the queue is empty, and `sigqueue_tail` points into the
freed entry. -/
theorem ignored_leaves_tail : ∃ s, Reaches stepHistory (quiet, History.empty) s ∧
    (s.1.task ()).sigqueue = none ∧ (s.1.task ()).sigqueueTail = some 7 ∧ s.1.live 7 = false ∧
    ¬ Sane s := by
  obtain ⟨s, hs, hhead, htail, hlive⟩ : ∃ s, Reaches stepHistory (quiet, History.empty) s ∧
      (s.1.task ()).sigqueue = none ∧ (s.1.task ()).sigqueueTail = some 7 ∧ s.1.live 7 = false :=
    Reaches.exists_of_exec [.send () () 40 .kernel (some 7) 0, .sigaction () 40 (some .ign) 2] (by decide +kernel)
  refine ⟨s, hs, hhead, htail, hlive, ?_⟩
  rintro ⟨e, hq⟩
  have hmem : 7 ∈ e () := mem_of_getLast? ((hq.tail ()).symm.trans htail)
  exact Bool.false_ne_true (hlive.symm.trans (hq.live () 7 hmem))

/-- Three queued signals, two of them of one number. -/
theorem loops_end_three : ∃ s, Sane s ∧ s.1.nrQueuedSignals = 3 ∧ ∃ n,
    (s.1.dequeueSignal () .blocked n).isSome = true ∧ (s.1.flushSignals () n).isSome = true := by
  have hsome : ∃ s, ReachesBy stepHistory (fun s op => op.WellFormed ∧ KeepsTail s.1 op) (quiet, History.empty) s ∧
      s.1.nrQueuedSignals = 3 := by
    have hwf : ∀ sig a, Op.WellFormed (.send () () sig .kernel (some a) 0) := fun _ _ _ h => absurd h (by simp)
    exact ⟨_, (((ReachesBy.refl _).tail ⟨hwf 40 7, trivial⟩ rfl).tail ⟨hwf 41 8, trivial⟩ rfl).tail
      ⟨hwf 40 9, trivial⟩ rfl, rfl⟩
  obtain ⟨s, hr, hcount⟩ := hsome
  have hs : Sane s := hr.invariant empty_quiet.sane fun _ _ _ hs hc hstep => (step_sane_iff hs hc.1 hstep).mpr hc.2
  obtain ⟨n, hn⟩ := loops_end hs ()
  exact ⟨s, hs, hcount, n, (hn n le_rfl).1 _, (hn n le_rfl).2.2⟩

end I370Linux.Signals
