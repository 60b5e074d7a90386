import I370Linux.Signals

/-! # The flag of pending signals

`sigpending` says whether a signal is pending that is not blocked (`Task.Truthful`).  Every call keeps that
except `force_sig_info`, which unblocks a signal before it calls `send_sig_info`: when the signal was
pending already, `send_sig_info` returns without a look at the flag (`truthful_iff_keepsTruth`). -/

namespace I370Linux.Signals

open Runs

/-! ### The flag of one task -/

namespace Task

variable {p p' : Task} {sig : ℕ}

/-- The flag is set exactly if a signal is pending and not blocked. -/
def Truthful (p : Task) : Prop := p.sigpending = true ↔
  ∃ sig, 1 ≤ sig ∧ sig ≤ NSIG ∧ p.signal.sigismember sig = true ∧ p.blocked.sigismember sig = false

def pend (p : Task) : SigSet × SigSet × Bool := (p.signal, p.blocked, p.sigpending)

theorem Truthful.congr (h : p.Truthful) (heq : p'.pend = p.pend) : p'.Truthful := by
  have hsignal : p'.signal = p.signal := congrArg (·.1) heq
  have hblocked : p'.blocked = p.blocked := congrArg (·.2.1) heq
  have hpending : p'.sigpending = p.sigpending := congrArg (·.2.2) heq
  unfold Truthful
  rw [hsignal, hblocked, hpending]
  exact h

theorem truthful_recalcSigpending (p : Task) : p.recalcSigpending.Truthful := by
  unfold Truthful recalcSigpending
  rw [decide_eq_true_iff]
  constructor
  · intro hne
    by_contra hnone
    refine hne (BitVec.eq_of_getLsbD_eq fun i hi => ?_)
    have hsig : ¬ (p.signal.getLsbD i = true ∧ p.blocked.getLsbD i = false) :=
      fun h => hnone ⟨i + 1, Nat.le_add_left 1 i, hi, h⟩
    rw [BitVec.getLsbD_and, BitVec.getLsbD_not, decide_eq_true hi, Bool.true_and]
    cases hs : p.signal.getLsbD i
    · simp
    · cases hb : p.blocked.getLsbD i
      · exact absurd ⟨hs, hb⟩ hsig
      · simp
  · rintro ⟨sig, hpos, hle, hs, hb⟩ h0
    have hbit := congrArg (BitVec.getLsbD · (sig - 1)) h0
    have hlt : sig - 1 < 64 := Nat.sub_one_lt_of_le hpos hle
    unfold SigSet.sigismember at hs hb
    rw [BitVec.getLsbD_and, BitVec.getLsbD_not, decide_eq_true hlt, hs, hb] at hbit
    simp at hbit

theorem Truthful.cancel (h : p.Truthful) (sig : ℕ) : (p.cancel sig).Truthful := by
  unfold Task.cancel
  split_ifs
  · exact truthful_recalcSigpending _
  · exact truthful_recalcSigpending _
  · exact h

theorem truthful_cancel_of_jobControl (p : Task) (h : jobControl sig = true) : (p.cancel sig).Truthful := by
  have h := of_decide_eq_true h
  unfold Task.cancel
  split_ifs
  · exact truthful_recalcSigpending _
  · exact truthful_recalcSigpending _
  · omega

theorem cancel_of_not_jobControl (p : Task) (h : jobControl sig = false) : p.cancel sig = p := by
  have h := of_decide_eq_false h
  unfold Task.cancel
  rw [if_neg (by omega), if_neg (by omega)]

theorem sigismember_sigaddset {s : SigSet} {n : ℕ} (hpos : 1 ≤ sig) (hle : sig ≤ NSIG) (hn : 1 ≤ n) :
    (s.sigaddset sig).sigismember n = (s.sigismember n || decide (n = sig)) := by
  unfold SigSet.sigaddset SigSet.sigismember
  rw [BitVec.getLsbD_or, BitVec.getLsbD_twoPow]
  have hlt : sig - 1 < 64 := Nat.sub_one_lt_of_le hpos hle
  have heq : (sig - 1 = n - 1) = (n = sig) := by
    apply propext
    omega
  simp only [hlt, heq, decide_true, Bool.true_and]

theorem sigismember_sigdelset {s : SigSet} {n : ℕ} (hpos : 1 ≤ sig) (hn : 1 ≤ n) :
    (s.sigdelset sig).sigismember n = (s.sigismember n && !decide (n = sig)) := by
  unfold SigSet.sigdelset SigSet.sigismember
  rw [BitVec.getLsbD_and, BitVec.getLsbD_not, BitVec.getLsbD_twoPow]
  by_cases hlt : n - 1 < 64
  · have heq : (sig - 1 = n - 1) = (n = sig) := by
      apply propext
      omega
    by_cases hns : n = sig
    · simp [hns]
    · simp [hlt, heq, hns]
  · rw [BitVec.getLsbD_of_ge _ _ (not_lt.mp hlt)]
    simp

theorem mark_pend (h : p'.pend = p.pend) (sig : ℕ) : (p'.mark sig).pend = (p.mark sig).pend := by
  have hsignal : p'.signal = p.signal := congrArg (·.1) h
  have hblocked : p'.blocked = p.blocked := congrArg (·.2.1) h
  have hpending : p'.sigpending = p.sigpending := congrArg (·.2.2) h
  unfold pend mark
  rw [hsignal, hblocked, hpending]

theorem truthful_mark_of_unblocked (hpos : 1 ≤ sig) (hle : sig ≤ NSIG)
    (hb : p.blocked.sigismember sig = false) : (p.mark sig).Truthful := by
  unfold Truthful mark
  rw [hb, if_neg Bool.false_ne_true]
  refine ⟨fun _ => ⟨sig, hpos, hle, ?_, hb⟩, fun _ => rfl⟩
  rw [sigismember_sigaddset hpos hle hpos, decide_eq_true rfl, Bool.or_true]

theorem Truthful.mark (h : p.Truthful) (hpos : 1 ≤ sig) (hle : sig ≤ NSIG) : (p.mark sig).Truthful := by
  cases hb : p.blocked.sigismember sig with
  | false => exact truthful_mark_of_unblocked hpos hle hb
  | true =>
    unfold Truthful Task.mark
    rw [hb, if_pos rfl]
    refine h.trans ⟨?_, ?_⟩
    · rintro ⟨n, hn, hn', hs, hnb⟩
      refine ⟨n, hn, hn', ?_, hnb⟩
      rw [sigismember_sigaddset hpos hle hn, hs, Bool.true_or]
    · rintro ⟨n, hn, hn', hs, hnb⟩
      refine ⟨n, hn, hn', ?_, hnb⟩
      rw [sigismember_sigaddset hpos hle hn, Bool.or_eq_true] at hs
      obtain hs | hs := hs
      · exact hs
      · rw [of_decide_eq_true hs, hb] at hnb
        cases hnb

/-- A pending signal that only its being blocked keeps from the flag. -/
def Hidden (p : Task) (sig : ℕ) : Prop :=
  p.signal.sigismember sig = true ∧ p.blocked.sigismember sig = true ∧ p.sigpending = false

theorem Truthful.unblock_iff (h : p.Truthful) (hpos : 1 ≤ sig) (hle : sig ≤ NSIG) :
    Truthful { p with blocked := p.blocked.sigdelset sig } ↔ ¬ p.Hidden sig := by
  constructor
  · rintro h' ⟨hs, -, hp⟩
    have hset : p.sigpending = true := h'.mpr ⟨sig, hpos, hle, hs, by
      rw [sigismember_sigdelset hpos hpos, decide_eq_true rfl, Bool.not_true, Bool.and_false]⟩
    rw [hp] at hset
    exact Bool.false_ne_true hset
  · intro hnot
    constructor
    · intro hp
      obtain ⟨n, hn, hn', hs, hb⟩ := h.mp hp
      refine ⟨n, hn, hn', hs, ?_⟩
      rw [sigismember_sigdelset hpos hn, hb, Bool.false_and]
    · rintro ⟨n, hn, hn', hs, hb⟩
      dsimp only at hs hb ⊢
      by_contra hp
      have hp : p.sigpending = false := Bool.eq_false_iff.mpr hp
      rw [sigismember_sigdelset hpos hn, Bool.and_eq_false_iff, Bool.not_eq_false', decide_eq_true_iff] at hb
      obtain hb | rfl := hb
      · exact absurd (h.mpr ⟨n, hn, hn', hs, hb⟩) (Bool.eq_false_iff.mp hp)
      · cases hb : p.blocked.sigismember n with
        | false => exact absurd (h.mpr ⟨n, hn, hn', hs, hb⟩) (Bool.eq_false_iff.mp hp)
        | true => exact hnot ⟨hs, hb, hp⟩

end Task

variable {ι : Type*}

namespace World

section frame

variable {w w' w'' : World ι}

def Truthful (w : World ι) : Prop := ∀ t, (w.task t).Truthful

/-- The two sets and the flag of every task are the same. -/
def SamePend (w w' : World ι) : Prop := ∀ t, (w'.task t).pend = (w.task t).pend

theorem SamePend.trans (h : SamePend w w') (h' : SamePend w' w'') : SamePend w w'' :=
  fun t => (h' t).trans (h t)

theorem Truthful.congr (h : w.Truthful) (hs : SamePend w w') : w'.Truthful :=
  fun t => (h t).congr (hs t)

theorem samePend_freeEntries : ∀ (fuel : ℕ) {w w' : World ι} {q : Option Addr},
    w.freeEntries fuel q = some w' → SamePend w w'
  | 0, _, _, _, h => absurd h (by simp [freeEntries])
  | _ + 1, w, w', none, h => by
    cases h
    exact fun _ => rfl
  | fuel + 1, w, w', some q, h => samePend_freeEntries fuel (w := w.freeEntry q) h

end frame

variable [DecidableEq ι] {w w' : World ι} {t : ι} {p : Task}

theorem setTask_self (w : World ι) (t : ι) (p : Task) : (w.setTask t p).task t = p := by
  exact Function.update_self ..

variable {s : ι} {fuel h : ℕ}

theorem setTask_of_ne (h : s ≠ t) (w : World ι) (p : Task) : (w.setTask t p).task s = w.task s := by
  exact Function.update_of_ne h ..

theorem Truthful.setTask (h : w.Truthful) (hp : p.Truthful) : (w.setTask t p).Truthful := by
  intro s
  obtain rfl | hs := eq_or_ne s t
  · rw [setTask_self]
    exact hp
  · rw [setTask_of_ne hs]
    exact h s

/-! ### The queue

Nothing that the calls do to the queue concerns the flag. -/

theorem setTask_eq {β : Type*} {f : Task → β} (h : f p = f (w.task t)) (s : ι) :
    f ((w.setTask t p).task s) = f (w.task s) := by
  obtain rfl | hs := eq_or_ne s t
  · rw [setTask_self]
    exact h
  · rw [setTask_of_ne hs]

theorem samePend_setTask (h : p.pend = (w.task t).pend) : SamePend w (w.setTask t p) := setTask_eq h

theorem samePend_store (w : World ι) (t : ι) (loc p : Option Addr) : SamePend w (w.store t loc p) := by
  cases loc with
  | none => exact samePend_setTask rfl
  | some q => exact fun _ => rfl

theorem samePend_setTail (w : World ι) (t : ι) (loc : Option Addr) : SamePend w (w.setTail t loc) :=
  samePend_setTask rfl

theorem samePend_enqueue (w : World ι) (t : ι) (q : Addr) (info : Siginfo) :
    SamePend w (w.enqueue t q info) := by
  intro s
  exact ((samePend_store _ t _ _).trans (samePend_setTail _ t _)) s

theorem samePend_unqueue (w : World ι) (t : ι) (pp : Option Addr) (q : Addr) :
    SamePend w (w.unqueue t pp q) := by
  intro s
  have hstore := samePend_store w t pp (w.next q)
  unfold unqueue
  split_ifs
  · exact (hstore.trans (samePend_setTail _ t _)) s
  · exact hstore s

theorem samePend_discardEntries (t : ι) (sig : ℕ) : ∀ (fuel : ℕ) {w w' : World ι} {pp : Option Addr},
    w.discardEntries t sig fuel pp = some w' → SamePend w w'
  | 0, _, _, _, h => absurd h (by simp [discardEntries])
  | fuel + 1, w, w', pp, h => by
    unfold discardEntries at h
    split at h
    · cases h
      exact fun _ => rfl
    · split_ifs at h
      · exact samePend_discardEntries t sig fuel h
      · exact (samePend_store w t pp _).trans fun s => samePend_discardEntries t sig fuel h s

/-! ### Sending -/

/-- `send_sig_info` comes to the end, where the signal is marked as pending. -/
def marks (w : World ι) (t : ι) (sig : ℕ) (info : InfoArg) (q : Option Addr) (low : ℤ) : Prop :=
  w.ignoredSignal sig t = false ∧
    if sig < SIGRTMIN then (w.task t).signal.sigismember sig = false
    else (w.newEntry q).isSome ∨ 0 ≤ info.code low

variable {current : ι} {sig : ℕ} {info : InfoArg} {q : Option Addr} {low : ℤ}

theorem deliver_of_not_marks (h : ¬ w.marks t sig info q low) :
    (w.deliver current t sig info q low).2 = w := by
  unfold marks at h
  unfold deliver
  cases hign : w.ignoredSignal sig t with
  | true => rfl
  | false =>
    rw [not_and] at h
    have h := h hign
    rw [if_neg Bool.false_ne_true]
    by_cases hrt : sig < SIGRTMIN
    · rw [if_pos hrt] at h ⊢
      rw [if_pos (Bool.not_eq_false _ ▸ h)]
    · rw [if_neg hrt] at h ⊢
      rw [not_or, Option.not_isSome_iff_eq_none, not_le] at h
      rw [h.1]
      rw [if_pos h.2]

theorem deliver_of_marks (h : w.marks t sig info q low) :
    SamePend (w.setTask t ((w.task t).mark sig)) (w.deliver current t sig info q low).2 := by
  obtain ⟨hign, h⟩ := h
  unfold deliver
  rw [hign, if_neg Bool.false_ne_true]
  by_cases hrt : sig < SIGRTMIN
  · rw [if_pos hrt] at h ⊢
    rw [h, if_neg Bool.false_ne_true]
    exact fun _ => rfl
  rw [if_neg hrt] at h ⊢
  cases hq : w.newEntry q with
  | none =>
    rw [hq] at h
    rw [if_neg (not_lt.mpr (h.resolve_left (by simp)))]
    exact fun _ => rfl
  | some a =>
    have hsame := samePend_enqueue w t a (info.fill sig (w.task current))
    intro s
    obtain rfl | hs := eq_or_ne s t
    · rw [setTask_self, setTask_self]
      exact Task.mark_pend (hsame s) sig
    · rw [setTask_of_ne hs, setTask_of_ne hs]
      exact hsame s

theorem Truthful.deliver (h : w.Truthful) (hpos : 1 ≤ sig) (hle : sig ≤ NSIG) :
    (w.deliver current t sig info q low).2.Truthful := by
  by_cases hm : w.marks t sig info q low
  · exact (h.setTask ((h t).mark hpos hle)).congr (deliver_of_marks hm)
  · rw [deliver_of_not_marks hm]
    exact h

theorem Truthful.sendSigInfo (h : w.Truthful) (current t : ι) (sig : ℤ) (info : InfoArg)
    (q : Option Addr) (low : ℤ) : (w.sendSigInfo current t sig info q low).2.Truthful := by
  unfold World.sendSigInfo
  split
  · exact h
  case isFalse hrange =>
    split
    · exact h
    · split
      · exact h
      case isFalse hzero =>
        refine (h.setTask ((h t).cancel _)).deliver ?_ ?_ <;> omega

/-! ### Forcing -/

/-- `send_sig_info` gets to a place where it looks at the flag. -/
def recalculates (w : World ι) (current t : ι) (sig : ℕ) (info : InfoArg) (q : Option Addr) (low : ℤ) :
    Prop :=
  refused (w.task current) (w.task t) sig info = false ∧
    (Task.jobControl sig = true ∨ SIGRTMIN ≤ sig ∧ ((w.newEntry q).isSome ∨ 0 ≤ info.code low))

theorem unblock_self (w : World ι) (t : ι) (n h : ℕ) :
    (w.unblock t n h).task t = { w.task t with blocked := (w.task t).blocked.sigdelset n } := by
  exact setTask_self ..

theorem unblock_of_ne (hs : s ≠ t) (w : World ι) (n h : ℕ) : (w.unblock t n h).task s = w.task s := by
  exact setTask_of_ne hs ..

theorem refused_unblock (w : World ι) (current t : ι) (n h : ℕ) (sig : ℤ) (info : InfoArg) :
    refused ((w.unblock t n h).task current) ((w.unblock t n h).task t) sig info =
      refused (w.task current) (w.task t) sig info := by
  rw [unblock_self]
  obtain rfl | hc := eq_or_ne current t
  · rw [unblock_self]
    rfl
  · rw [unblock_of_ne hc]
    rfl

theorem Truthful.unblock_iff (hw : w.Truthful) (hpos : 1 ≤ sig) (hle : sig ≤ NSIG) (h : ℕ) :
    (w.unblock t sig h).Truthful ↔ ¬ (w.task t).Hidden sig := by
  rw [← (hw t).unblock_iff hpos hle]
  constructor
  · intro h'
    have ht := h' t
    rwa [unblock_self] at ht
  · intro ht s
    obtain rfl | hs := eq_or_ne s t
    · rw [unblock_self]
      exact ht
    · rw [unblock_of_ne hs]
      exact hw s

section

variable (hsig : (w.task t).sig = some h)
include hsig

theorem ignoredSignal_unblock (hrt : SIGRTMIN ≤ sig) : (w.unblock t sig h).ignoredSignal sig t = false := by
  have hact : (w.unblock t sig h).action h sig ≠ .ign := by
    unfold unblock
    dsimp only
    split_ifs with hign
    · rw [Function.update_self, Function.update_self]
      simp
    · exact hign
  unfold ignoredSignal
  dsimp only
  split
  · rfl
  rw [unblock_self]
  rw [hsig]
  dsimp only
  split
  · refine decide_eq_false ?_
    rintro (rfl | rfl | rfl | rfl) <;> exact absurd hrt (by decide)
  case h_2 heq => exact absurd heq hact
  · rfl

theorem forceSigInfo_of_refused (hle : sig ≤ NSIG)
    (href : refused (w.task current) (w.task t) sig info = true) :
    (w.forceSigInfo current t sig info q low).2 = w.unblock t sig h := by
  unfold forceSigInfo
  rw [hsig]
  dsimp only
  unfold sendSigInfo
  rw [if_neg (by omega), refused_unblock, href, if_pos rfl]

theorem forceSigInfo_of_permitted (hpos : 1 ≤ sig)
    (hle : sig ≤ NSIG) (hperm : refused (w.task current) (w.task t) sig info = false) :
    w.forceSigInfo current t sig info q low =
      ((w.unblock t sig h).setTask t (((w.unblock t sig h).task t).cancel sig)).deliver
        current t sig info q low := by
  have hzero : ¬ ((sig : ℤ) = 0 ∨ ((w.unblock t sig h).task t).sig = none) := by
    rw [unblock_self]
    rw [hsig]
    simp
    omega
  unfold forceSigInfo
  rw [hsig]
  dsimp only
  unfold sendSigInfo
  rw [if_neg (by omega), refused_unblock, hperm, if_neg Bool.false_ne_true, if_neg hzero, Int.toNat_natCast]

end

theorem setTask_cancel (hjob : Task.jobControl sig = false) : w.setTask t ((w.task t).cancel sig) = w := by
  rw [Task.cancel_of_not_jobControl _ hjob]
  unfold setTask
  rw [Function.update_eq_self]

theorem forceSigInfo_of_hidden (hsig : (w.task t).sig = some h) (hpos : 1 ≤ sig)
    (hle : sig ≤ NSIG) (hhidden : (w.task t).Hidden sig)
    (hrecalc : ¬ w.recalculates current t sig info q low) :
    (w.forceSigInfo current t sig info q low).2 = w.unblock t sig h := by
  cases hperm : refused (w.task current) (w.task t) sig info with
  | true => exact forceSigInfo_of_refused hsig hle hperm
  | false =>
    unfold recalculates at hrecalc
    rw [not_and] at hrecalc
    have hrecalc := hrecalc hperm
    rw [not_or, Bool.not_eq_true] at hrecalc
    obtain ⟨hjob, hrt⟩ := hrecalc
    rw [forceSigInfo_of_permitted hsig hpos hle hperm, setTask_cancel hjob]
    refine deliver_of_not_marks fun hmarks => ?_
    have hmarks := hmarks.2
    split_ifs at hmarks with hlow
    · rw [unblock_self] at hmarks
      exact Bool.false_ne_true (hmarks.symm.trans hhidden.1)
    · exact hrt ⟨not_lt.mp hlow, hmarks⟩

section

variable (hw : w.Truthful) (hsig : (w.task t).sig = some h) (hpos : 1 ≤ sig) (hle : sig ≤ NSIG)
include hw hsig hpos hle

theorem Truthful.forceSigInfo_of_recalculates (hrecalc : w.recalculates current t sig info q low) :
    (w.forceSigInfo current t sig info q low).2.Truthful := by
  obtain ⟨hperm, hrecalc⟩ := hrecalc
  have hothers : ∀ (p : Task), p.Truthful → ((w.unblock t sig h).setTask t p).Truthful := by
    intro p hp s
    obtain rfl | hs := eq_or_ne s t
    · rw [setTask_self]
      exact hp
    · rw [setTask_of_ne hs, unblock_of_ne hs]
      exact hw s
  rw [forceSigInfo_of_permitted hsig hpos hle hperm]
  cases hjob : Task.jobControl sig with
  | true => exact (hothers _ (Task.truthful_cancel_of_jobControl _ hjob)).deliver hpos hle
  | false =>
    obtain ⟨hrt, hentry⟩ := hrecalc.resolve_left (by rw [hjob]; exact Bool.false_ne_true)
    rw [setTask_cancel hjob]
    have hmarks : (w.unblock t sig h).marks t sig info q low := by
      refine ⟨ignoredSignal_unblock hsig hrt, ?_⟩
      rw [if_neg (not_lt.mpr hrt)]
      exact hentry
    refine (hothers _ (Task.truthful_mark_of_unblocked hpos hle ?_)).congr (deliver_of_marks hmarks)
    rw [unblock_self]
    rw [Task.sigismember_sigdelset hpos hpos, decide_eq_true rfl, Bool.not_true, Bool.and_false]

/-- `force_sig_info` tells the truth unless the signal was pending, blocked and alone, and
`send_sig_info` does not look at the flag. -/
theorem forceSigInfo_truthful_iff
    : (w.forceSigInfo current t sig info q low).2.Truthful ↔
      ¬ (w.task t).Hidden sig ∨ w.recalculates current t sig info q low := by
  constructor
  · intro htruth
    by_contra hnot
    rw [not_or, not_not] at hnot
    rw [forceSigInfo_of_hidden hsig hpos hle hnot.1 hnot.2] at htruth
    exact (hw.unblock_iff hpos hle h).mp htruth hnot.1
  · rintro (hvis | hrecalc)
    · unfold forceSigInfo
      rw [hsig]
      exact ((hw.unblock_iff hpos hle h).mpr hvis).sendSigInfo current t sig info q low
    · exact hw.forceSigInfo_of_recalculates hsig hpos hle hrecalc

end

/-! ### The other calls -/

theorem Truthful.dequeueSignal {mask : Mask} {r : Option Delivery × World ι} (h : w.Truthful)
    (hr : w.dequeueSignal current mask fuel = some r) : r.2.Truthful := by
  have hforget : ∀ (w' : World ι) n, SamePend w w' →
      (w'.setTask current ((w'.task current).forget n)).Truthful := fun w' n hs =>
    (h.congr hs).setTask (Task.truthful_recalcSigpending _)
  unfold World.dequeueSignal at hr
  dsimp only at hr
  split at hr
  case isTrue hzero =>
    cases hr
    split
    case isTrue hc =>
      -- the mask is `blocked`, so there is no signal for the flag
      refine h.setTask ?_
      have hrecalc := (w.task current).truthful_recalcSigpending
      unfold Task.recalcSigpending at hrecalc
      obtain ⟨rfl, -⟩ := hc
      unfold Mask.set at hzero
      rw [hzero] at hrecalc
      exact hrecalc.congr rfl
    · exact h
  · split at hr
    · cases hr
      exact hforget w _ fun _ => rfl
    split at hr
    · cases hr
    split at hr
    · cases hr
      exact hforget w _ fun _ => rfl
    case h_2 a ha =>
      have hsame := fun pp => samePend_unqueue w current pp a
      split at hr
      · cases hr
      · cases hr
        split_ifs
        · exact hforget _ _ (hsame _)
        · exact (h.congr (hsame _)).setTask (Task.truthful_recalcSigpending _)

theorem Truthful.sysRtSigprocmask (h : w.Truthful) (how : ℤ) (set : Option (Option SigSet))
    (oset : Option Bool) (sizeOk : Bool) :
    (w.sysRtSigprocmask current how set oset sizeOk).2.Truthful := by
  unfold World.sysRtSigprocmask
  dsimp only
  split
  · exact h
  · split
    · exact h
    · exact h
    · exact h.setTask (Task.truthful_recalcSigpending _)

theorem Truthful.sysSigprocmask (h : w.Truthful) (how : ℤ) (set : Option (Option (BitVec 32)))
    (oset : Option Bool) : (w.sysSigprocmask current how set oset).2.Truthful := by
  unfold World.sysSigprocmask
  dsimp only
  split
  · exact h
  · exact h
  · exact h.setTask (Task.truthful_recalcSigpending _)

theorem Truthful.doSigaction {n : ℤ} {act : Option Handler} {r : ℤ × World ι}
    (hw : w.Truthful) (hr : w.doSigaction current h n act fuel = some r) : r.2.Truthful := by
  unfold World.doSigaction at hr
  split at hr
  · cases hr
    exact hw
  split at hr
  · cases hr
    exact hw
  dsimp only at hr
  split at hr
  · obtain ⟨w', hw', rfl⟩ := Option.map_eq_some_iff.mp hr
    have hsame : SamePend w w' := by
      split at hw'
      · exact fun s => samePend_discardEntries current _ fuel hw' s
      · obtain rfl := Option.some.inj hw'
        exact fun _ => rfl
    exact (hw.congr hsame).setTask (Task.truthful_recalcSigpending _)
  · cases hr
    exact hw

theorem Truthful.flushSignals (h : w.Truthful) (hw' : w.flushSignals t fuel = some w') : w'.Truthful := by
  refine (h.setTask ?_).congr (samePend_freeEntries fuel hw')
  refine ⟨nofun, ?_⟩
  rintro ⟨sig, -, -, hs, -⟩
  unfold SigSet.sigismember at hs
  rw [BitVec.ofNat_eq_ofNat, BitVec.getLsbD_zero] at hs
  cases hs

end World

/-! ### Runs -/

variable [DecidableEq ι]

/-- A forced signal was not hidden, or `send_sig_info` looks at the flag. -/
def KeepsTruth (w : World ι) : Op ι → Prop
  | .force current t sig info q low => (w.task t).sig = none ∨ ¬ (w.task t).Hidden sig ∨
      w.recalculates current t sig info q low
  | _ => True

theorem step_truthful_iff {w w' : World ι} {op : Op ι} (h : w.Truthful) (hs : step w op = some w') :
    w'.Truthful ↔ KeepsTruth w op := by
  cases op with
  | send current t sig info q low =>
    obtain ⟨-, rfl⟩ := of_guard hs
    exact iff_of_true (h.sendSigInfo current t sig info q low) trivial
  | force current t sig info q low =>
    obtain ⟨hc, rfl⟩ := of_guard hs
    unfold KeepsTruth
    cases hsig : (w.task t).sig with
    | none =>
      refine iff_of_true ?_ (.inl hsig)
      unfold World.forceSigInfo
      rw [hsig]
      exact h
    | some a =>
      dsimp only
      rw [World.forceSigInfo_truthful_iff h hsig hc.2.1 hc.2.2, hsig]
      simp
  | dequeue current mask fuel =>
    obtain ⟨r, hr, rfl⟩ := Option.map_eq_some_iff.mp hs
    exact iff_of_true (h.dequeueSignal hr) trivial
  | rtSigprocmask current how set oset sizeOk =>
    cases hs
    exact iff_of_true (h.sysRtSigprocmask how set oset sizeOk) trivial
  | sigprocmask current how set oset =>
    cases hs
    exact iff_of_true (h.sysSigprocmask how set oset) trivial
  | sigaction current sig act fuel =>
    obtain ⟨a, -, hs⟩ := Option.bind_eq_some_iff.mp hs
    obtain ⟨r, hr, rfl⟩ := Option.map_eq_some_iff.mp hs
    exact iff_of_true (h.doSigaction hr) trivial
  | flush t fuel => exact iff_of_true (h.flushSignals hs) trivial

/-- **The pending flag.**  In every run whose calls meet the condition the flag of every task tells the
truth in every state, and a call keeps that exactly if it meets the condition. -/
theorem truthful_iff_keepsTruth {w₀ w w' : World ι} {op : Op ι} (h₀ : w₀.Truthful)
    (hr : ReachesBy step KeepsTruth w₀ w) (hs : step w op = some w') :
    w.Truthful ∧ (w'.Truthful ↔ KeepsTruth w op) := by
  have hw : w.Truthful := hr.invariant h₀ fun _ _ _ h hk hs => (step_truthful_iff h hs).mpr hk
  exact ⟨hw, step_truthful_iff hw hs⟩

/-- One task of root, nothing pending, and the default actions. -/
def quiet : World Unit where
  task _ := ⟨some 0, 0, 0, false, none, none, false, 1, 0, 0, 0, 1, false⟩
  action _ _ := .dfl
  next _ := none
  info _ := ⟨0, 0, 0, 0, 0, 0⟩
  live _ := false
  nrQueuedSignals := 0
  maxQueuedSignals := 1024

theorem truthful_quiet : quiet.Truthful := by
  have hpend : (quiet.task ()).pend = (quiet.task ()).recalcSigpending.pend := by decide
  exact fun _ => (Task.truthful_recalcSigpending _).congr hpend

theorem truthful_iff_keepsTruth_quiet : ∃ w, step quiet (.send () () 11 .kernel none 0) = some w ∧
    w.Truthful := by
  obtain ⟨w, hw⟩ : ∃ w, step quiet (.send () () 11 .kernel none 0) = some w := ⟨_, rfl⟩
  exact ⟨w, hw, (truthful_iff_keepsTruth truthful_quiet (.refl quiet) hw).2.mpr trivial⟩

/-- `SIGSEGV` is blocked and sent; then it is forced by a fault.  It is pending and not blocked, and the
flag is clear. -/
theorem forced_signal_hidden : ∃ w, Reaches step quiet w ∧ (w.task ()).sigpending = false ∧
    (w.task ()).signal.sigismember 11 = true ∧ (w.task ()).blocked.sigismember 11 = false :=
  Reaches.exists_of_exec [.rtSigprocmask () World.SIG_BLOCK (some (some (BitVec.twoPow 64 10))) none true,
    .send () () 11 .kernel none 0, .force () () 11 .kernel none 0] (by decide +kernel)

/-! ### The two calls that change the mask -/

/-- Neither `SIGKILL` nor `SIGSTOP` is in the set. -/
def SigSet.Clean (s : SigSet) : Prop := s.sigismember SIGKILL = false ∧ s.sigismember SIGSTOP = false

theorem SigSet.clean_iff (s : SigSet) :
    s.Clean ↔ (s.setWidth 32).getLsbD 8 = false ∧ (s.setWidth 32).getLsbD 18 = false := by
  simp [SigSet.Clean, SigSet.sigismember]

namespace World

/-- A call that returned `-EINVAL` has left the mask and the flag, and after a success the mask is clean. -/
def Atomic (w : World ι) (current : ι) (r : ℤ × World ι) : Prop :=
  (r.1 = -EINVAL → (r.2.task current).blocked = (w.task current).blocked ∧
    (r.2.task current).sigpending = (w.task current).sigpending) ∧
  (r.1 = 0 → (r.2.task current).blocked.Clean)

/-- The old mask is clean if it is kept, and an unknown `how` comes without a set, or with the one that is blocked. -/
def keepsMask (p : Task) (how : ℤ) (set : Option (Option SigSet)) (oset : Option Bool) : Prop :=
  match set with
  | none => oset ≠ some false → p.blocked.Clean
  | some none => True
  | some (some set) =>
    if how = SIG_BLOCK ∨ how = SIG_UNBLOCK then oset ≠ some false → p.blocked.Clean
    else if how = SIG_SETMASK then True
    else set.sigdelsetmask (sigmask SIGKILL ||| sigmask SIGSTOP) = p.blocked ∧
      p.recalcSigpending.sigpending = p.sigpending

theorem copyOut_iff (oset : Option Bool) : ((if oset = some false then -EFAULT else 0) = -EINVAL ↔ False) ∧
    ((if oset = some false then -EFAULT else 0) = 0 ↔ oset ≠ some false) := by
  split_ifs with h <;> simp [h]

/-- **`sigprocmask`.** The two calls have the same result, give the signals 1 to 32 the same mask and fail cleanly exactly if
the condition holds. -/
theorem sigprocmask_iff (w : World ι) (current : ι) (how : ℤ) (set : Option (Option SigSet)) (oset : Option Bool) :
    ((w.sysRtSigprocmask current how set oset true).1 =
        (w.sysSigprocmask current how (set.map (·.map (·.setWidth 32))) oset).1 ∧
      ((w.sysRtSigprocmask current how set oset true).2.task current).blocked.setWidth 32 =
        ((w.sysSigprocmask current how (set.map (·.map (·.setWidth 32))) oset).2.task current).blocked.setWidth 32 ∧
      w.Atomic current (w.sysRtSigprocmask current how set oset true) ∧
      w.Atomic current (w.sysSigprocmask current how (set.map (·.map (·.setWidth 32))) oset)) ↔
      keepsMask (w.task current) how set oset := by
  obtain ⟨hinval, hzero⟩ := copyOut_iff oset
  obtain _ | _ | set := set
  · simp [sysRtSigprocmask, sysSigprocmask, Atomic, keepsMask, hinval, hzero]
  · simp [sysRtSigprocmask, sysSigprocmask, Atomic, keepsMask]
  by_cases hk : how = SIG_BLOCK ∨ how = SIG_UNBLOCK ∨ how = SIG_SETMASK
  · -- both compute the new mask from the old one bit by bit
    obtain rfl | rfl | rfl := hk <;>
      simp [sysRtSigprocmask, sysSigprocmask, Atomic, keepsMask, hinval, hzero, setTask_self, Task.recalcSigpending,
        SigSet.clean_iff, SigSet.setLow, SigSet.sigaddsetmask, SigSet.sigdelsetmask, sigmask, BitVec.setWidth_and,
        BitVec.setWidth_or, BitVec.setWidth_not]
  · obtain ⟨h0, h1, h2⟩ : how ≠ SIG_BLOCK ∧ how ≠ SIG_UNBLOCK ∧ how ≠ SIG_SETMASK := by simpa [not_or] using hk
    simp only [sysRtSigprocmask, Bool.not_true, Bool.false_eq_true, ↓reduceIte, h0, h1, h2, or_self,
      Task.recalcSigpending, BitVec.ofNat_eq_ofNat, ne_eq, decide_not, sysSigprocmask, Option.map_some, setTask_self,
      Atomic, Bool.not_eq_eq_eq_not, forall_const, neg_eq_zero, OfNat.ofNat_ne_zero, IsEmpty.forall_iff, and_true,
      true_and, keepsMask]
    constructor
    · rintro ⟨-, ⟨hset, -⟩, hflag⟩
      exact ⟨hset, hflag⟩
    · rintro ⟨hset, hflag⟩
      rw [hset]
      exact ⟨rfl, ⟨rfl, hflag⟩, hflag⟩

/-- `-EINVAL` for an unknown `how`, but the mask is the new set. -/
theorem einval_sets_mask : (quiet.sysRtSigprocmask () 3 (some (some 1)) none true).1 = -EINVAL ∧
    ((quiet.sysRtSigprocmask () 3 (some (some 1)) none true).2.task ()).blocked = 1 ∧ (quiet.task ()).blocked = 0 := by
  decide

end World

end I370Linux.Signals
