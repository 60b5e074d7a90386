import I370Linux.Census
import I370Linux.Links
import I370Linux.SigPending

/-! # The queues of the real-time signals

The entries of the queue of a task are a chain behind the field `sigqueue`; the queues of all tasks share the
memory of the entries and their count (`Books`).  Entering an entry at the tail and taking one out of the
middle are operations on one chain that leave the others alone, and the loops over a queue are runs along
its chain. -/

namespace I370Linux.Signals

open Runs Links Function List

variable {ι : Type*}

namespace World

variable {w w' : World ι} {s t : ι} {p : Task} {loc x : Option Addr} {a : Addr} {e : ι → List Addr}
  {l l₁ l₂ : List Addr} {sig : ℕ}

/-! ### The loops that only read the links -/

theorem findEntry_spec : ∀ (fuel : ℕ) {l₁ l₂ : List Addr}, Chain (w.load t) (l₁ ++ l₂) →
    (l₂.length < fuel → (w.findEntry t sig fuel l₁.getLast?).isSome = true) ∧
    ∀ pp, w.findEntry t sig fuel l₁.getLast? = some pp →
      ∃ m₁ m₂, l₂ = m₁ ++ m₂ ∧ pp = (l₁ ++ m₁).getLast? ∧ (∀ a ∈ m₁, (w.info a).signo ≠ sig) ∧
        ∀ a, m₂.head? = some a → (w.info a).signo = sig
  | 0, _, _, _ => ⟨fun h => absurd h (Nat.not_lt_zero _), fun _ h => absurd h (by simp [findEntry])⟩
  | fuel + 1, l₁, [], hc => by
    unfold findEntry
    rw [hc.next_eq l₁ [] rfl]
    refine ⟨fun _ => rfl, fun pp h => ⟨[], [], rfl, ?_, by simp, by simp⟩⟩
    rw [append_nil]
    exact (Option.some.inj h).symm
  | fuel + 1, l₁, a :: l₂, hc => by
    unfold findEntry
    rw [hc.next_eq l₁ (a :: l₂) rfl, List.head?_cons]
    dsimp only
    split_ifs with hsig
    · refine ⟨fun _ => rfl, fun pp h => ⟨[], a :: l₂, rfl, ?_, by simp, fun b hb => ?_⟩⟩
      · rw [append_nil]
        exact (Option.some.inj h).symm
      · obtain rfl : a = b := by simpa using hb
        exact hsig
    · have hc' : Chain (w.load t) ((l₁ ++ [a]) ++ l₂) := by
        rw [← append_cons]
        exact hc
      have hlast : some a = (l₁ ++ [a]).getLast? := List.getLast?_concat.symm
      rw [hlast]
      obtain ⟨hsome, hspec⟩ := findEntry_spec fuel hc'
      refine ⟨fun h => hsome (Nat.lt_of_succ_lt_succ h), fun pp h => ?_⟩
      obtain ⟨m₁, m₂, rfl, rfl, hm₁, hm₂⟩ := hspec pp h
      refine ⟨a :: m₁, m₂, rfl, by rw [← append_cons], fun b hb => ?_, hm₂⟩
      obtain rfl | hb := mem_cons.mp hb
      · exact hsig
      · exact hm₁ b hb

theorem freeEntries_spec : ∀ (fuel : ℕ) {w : World ι} {q : Option Addr} {l : List Addr}, Linked w.next q l →
    (l.length < fuel → (w.freeEntries fuel q).isSome = true) ∧
    ∀ w', w.freeEntries fuel q = some w' → w'.task = w.task ∧ w'.next = w.next ∧ w'.info = w.info ∧
      w'.nrQueuedSignals = w.nrQueuedSignals - l.length ∧ ∀ a, a ∉ l → w'.live a = w.live a
  | 0, _, _, _, _ => ⟨fun h => absurd h (Nat.not_lt_zero _), fun _ h => absurd h (by simp [freeEntries])⟩
  | fuel + 1, w, none, [], _ => by
    refine ⟨fun _ => rfl, fun w' h => ?_⟩
    cases h
    exact ⟨rfl, rfl, rfl, by simp, fun _ _ => rfl⟩
  | fuel + 1, w, none, a :: l, hl => absurd hl.1 (by simp)
  | fuel + 1, w, some q, [], hl => absurd hl (by simp)
  | fuel + 1, w, some q, a :: l, hl => by
    obtain ⟨hqa, hl⟩ := hl
    cases hqa
    obtain ⟨hsome, hspec⟩ := freeEntries_spec fuel (w := w.freeEntry q) hl
    refine ⟨fun h => hsome (Nat.lt_of_succ_lt_succ h), fun w' h => ?_⟩
    obtain ⟨htask, hnext, hinfo, hnr, hlive⟩ := hspec w' h
    refine ⟨htask, hnext, hinfo, ?_, fun a ha => ?_⟩
    · rw [hnr]
      unfold freeEntry
      rw [length_cons]
      push_cast
      ring
    · rw [mem_cons, not_or] at ha
      rw [hlive a ha.2]
      exact update_of_ne ha.1 ..

variable [DecidableEq ι]

/-! ### Fields -/

theorem load_setTask (h : p.sigqueue = (w.task t).sigqueue) (s : ι) : (w.setTask t p).load s = w.load s := by
  funext x
  cases x with
  | none => exact setTask_eq h s
  | some a => rfl

theorem load_setTail (w : World ι) (t : ι) (loc : Option Addr) (s : ι) :
    (w.setTail t loc).load s = w.load s := by
  refine load_setTask ?_ s
  rfl

/-- The tasks are the same except for the heads of their queues. -/
structure SameRest (w w' : World ι) : Prop where
  tail : ∀ s, (w'.task s).sigqueueTail = (w.task s).sigqueueTail
  signal : ∀ s, (w'.task s).signal = (w.task s).signal

section

variable (w : World ι) (t : ι) (loc p : Option Addr)

theorem load_store : (w.store t loc p).load t = update (w.load t) loc p := by
  funext x
  obtain rfl | hx := eq_or_ne x loc
  · rw [update_self]
    cases x with
    | none =>
      unfold load store
      rw [setTask_self]
    | some a =>
      exact update_self ..
  · rw [update_of_ne hx]
    cases loc with
    | none =>
      cases x with
      | none => exact absurd rfl hx
      | some a => rfl
    | some q =>
      cases x with
      | none => rfl
      | some a =>
        exact update_of_ne (fun h => hx (congrArg some h)) ..

theorem sameRest_store : SameRest w (w.store t loc p) := by
  cases loc with
  | none => exact ⟨setTask_eq rfl, setTask_eq rfl⟩
  | some q => exact ⟨fun _ => rfl, fun _ => rfl⟩

theorem store_info : (w.store t loc p).info = w.info := by
  cases loc <;> rfl

theorem store_live : (w.store t loc p).live = w.live := by
  cases loc <;> rfl

end

theorem load_store_of_ne (hs : s ≠ t) (hx : ∀ a, x = some a → loc ≠ some a) (p : Option Addr) :
    (w.store t loc p).load s x = w.load s x := by
  cases loc with
  | none =>
    cases x with
    | none =>
      unfold load store
      rw [setTask_of_ne hs]
    | some a => rfl
  | some q =>
    cases x with
    | none => rfl
    | some a =>
      exact update_of_ne (fun h => hx a rfl (congrArg some h.symm)) ..

/-! ### The chains of all tasks -/

theorem mem_update {l : List Addr} (h : a ∈ update e t l s) : s = t ∧ a ∈ l ∨ s ≠ t ∧ a ∈ e s := by
  obtain rfl | hs := eq_or_ne s t
  · rw [update_self] at h
    exact .inl ⟨rfl, h⟩
  · rw [update_of_ne hs] at h
    exact .inr ⟨hs, h⟩

/-- The entries of the queue of each task: chains without a common entry, all in use, and counted. -/
structure Books [Fintype ι] (w : World ι) (e : ι → List Addr) : Prop where
  chain : ∀ t, Chain (w.load t) (e t)
  live : ∀ t, ∀ a ∈ e t, w.live a = true
  disjoint : ∀ s t a, a ∈ e s → a ∈ e t → s = t
  count : w.nrQueuedSignals = ∑ t, ((e t).length : ℤ)

variable [Fintype ι]

omit [DecidableEq ι] in
theorem Books.congr (h : Books w e) (hload : ∀ t, w'.load t = w.load t) (hlive : w'.live = w.live)
    (hcount : w'.nrQueuedSignals = w.nrQueuedSignals) : Books w' e where
  chain t := hload t ▸ h.chain t
  live t a ha := hlive ▸ h.live t a ha
  disjoint := h.disjoint
  count := hcount.trans h.count

theorem sum_length_update (e : ι → List Addr) (t : ι) (l : List Addr) :
    ∑ s, ((update e t l s).length : ℤ) = ∑ s, ((e s).length : ℤ) - (e t).length + l.length :=
  sum_update (fun l : List Addr => (l.length : ℤ)) e (Finset.mem_univ t) l

theorem Books.remove (h : Books w e) (he : e t = l₁ ++ a :: l₂) :
    Books ((w.store t l₁.getLast? (w.next a)).freeEntry a) (update e t (l₁ ++ l₂)) := by
  have hmem : a ∈ e t := he ▸ mem_append_right _ mem_cons_self
  have hchain : Chain (w.load t) (l₁ ++ a :: l₂) := he ▸ h.chain t
  have hnext : w.next a = l₂.head? := hchain.next_some
  have hsub : ∀ b ∈ l₁ ++ l₂, b ∈ e t ∧ b ≠ a := by
    intro b hb
    rw [he, mem_append, mem_cons]
    refine ⟨(mem_append.mp hb).imp id .inr, fun hba => ?_⟩
    exact (nodup_cons.mp (nodup_middle.mp hchain.nodup)).1 (hba ▸ hb)
  have hin : ∀ s, ∀ b ∈ update e t (l₁ ++ l₂) s, b ∈ e s ∧ b ≠ a := by
    intro s b hmem'
    obtain ⟨rfl, hb⟩ | ⟨hs, hb⟩ := mem_update hmem'
    · exact hsub b hb
    · exact ⟨hb, fun hba => hs (h.disjoint s t a (hba ▸ hb) hmem)⟩
  refine ⟨fun s => ?_, fun s b hb => ?_, fun s u b hs hu => ?_, ?_⟩
  · change Chain ((w.store t l₁.getLast? (w.next a)).load s) _
    obtain rfl | hs := eq_or_ne s t
    · rw [load_store, update_self, hnext]
      exact hchain.unlink
    rw [update_of_ne hs]
    refine (h.chain s).congr (load_store_of_ne hs (fun b hb => absurd hb (by simp)) _) fun b hb => ?_
    refine load_store_of_ne hs (fun c hc hlast => ?_) _
    cases hc
    have hl : b ∈ e t := he ▸ mem_append_left _ (mem_of_getLast? hlast)
    exact hs (h.disjoint s t b hb hl)
  · have hlive : (w.store t l₁.getLast? (w.next a)).live = w.live := by
      cases l₁.getLast? <;> rfl
    unfold freeEntry
    dsimp only
    rw [hlive, update_of_ne (hin s b hb).2]
    exact h.live s b (hin s b hb).1
  · exact h.disjoint s u b (hin s b hs).1 (hin u b hu).1
  · have hnr : (w.store t l₁.getLast? (w.next a)).nrQueuedSignals = w.nrQueuedSignals := by
      cases l₁.getLast? <;> rfl
    unfold freeEntry
    rw [hnr, sum_length_update, ← h.count, he]
    simp only [length_append, length_cons]
    push_cast
    ring

theorem Books.append (h : Books w e) (htail : (w.task t).sigqueueTail = (e t).getLast?)
    (hfree : w.live a = false) (info : Siginfo) :
    Books (w.enqueue t a info) (update e t (e t ++ [a])) := by
  have hnew : ∀ s, a ∉ e s := fun s hs => Bool.false_ne_true (hfree.symm.trans (h.live s a hs))
  set w₁ : World ι := { w with
    live := update w.live a true
    nrQueuedSignals := w.nrQueuedSignals + 1
    next := update w.next a none
    info := update w.info a info } with hw₁
  have hload₁ : ∀ s, w₁.load s = update (w.load s) (some a) none := by
    intro s
    funext x
    cases x with
    | none => rfl
    | some b =>
      obtain rfl | hb := eq_or_ne b a
      · rw [update_self]
        exact update_self ..
      · rw [update_of_ne fun h => hb (Option.some.inj h)]
        exact update_of_ne hb ..
  have henq : w.enqueue t a info = (w₁.store t (e t).getLast? (some a)).setTail t (some a) := by
    rw [← htail]
    rfl
  have hload : ∀ s, (w.enqueue t a info).load s = (w₁.store t (e t).getLast? (some a)).load s := by
    intro s
    rw [henq]
    exact load_setTail ..
  refine ⟨fun s => ?_, fun s b hb => ?_, fun s u b hs hu => ?_, ?_⟩
  · rw [hload s]
    obtain rfl | hs := eq_or_ne s t
    · rw [load_store, update_self, hload₁]
      have hchain : Chain (w.load s) (e s ++ []) := by
        rw [append_nil]
        exact h.chain s
      exact hchain.insert (a := a) (by rw [append_nil]; exact hnew s)
    · rw [update_of_ne hs]
      refine (h.chain s).congr (load_store_of_ne hs (fun b hb => absurd hb (by simp)) _) fun b hb => ?_
      rw [load_store_of_ne hs (fun c hc hlast => ?_), hload₁, update_of_ne]
      · exact fun hba => hnew s (Option.some.inj hba ▸ hb)
      · cases hc
        exact hs (h.disjoint s t b hb (mem_of_getLast? hlast))
  · have hlive : (w.enqueue t a info).live = update w.live a true := by
      rw [henq]
      cases (e t).getLast? <;> rfl
    rw [hlive]
    obtain rfl | hba := eq_or_ne b a
    · exact update_self ..
    rw [update_of_ne hba]
    obtain ⟨rfl, hb⟩ | ⟨-, hb⟩ := mem_update hb
    · obtain hb | hb := mem_append.mp hb
      · exact h.live s b hb
      · exact absurd (mem_singleton.mp hb) hba
    · exact h.live s b hb
  · have hin : ∀ s, b ∈ update e t (e t ++ [a]) s → b ∈ e s ∨ s = t ∧ b = a := by
      intro s hs
      obtain ⟨rfl, hb⟩ | ⟨-, hb⟩ := mem_update hs
      · exact (mem_append.mp hb).imp id fun hb => ⟨rfl, mem_singleton.mp hb⟩
      · exact .inl hb
    obtain hs | ⟨hst, hba⟩ := hin s hs
    · obtain hu | ⟨-, hba⟩ := hin u hu
      · exact h.disjoint s u b hs hu
      · exact absurd (hba ▸ hs) (hnew s)
    · obtain hu | ⟨hut, -⟩ := hin u hu
      · exact absurd (hba ▸ hu) (hnew u)
      · exact hst.trans hut.symm
  · have hnr : (w.enqueue t a info).nrQueuedSignals = w.nrQueuedSignals + 1 := by
      rw [henq]
      cases (e t).getLast? <;> rfl
    rw [hnr, sum_length_update, ← h.count, length_append, length_singleton]
    push_cast
    ring

/-! ### The loops that take entries out -/

/-- What the loop of `do_sigaction` leaves. -/
structure Discarded (w w' : World ι) (t : ι) (sig : ℕ) (e : ι → List Addr) (l₁ l₂ : List Addr) : Prop where
  books : Books w' (update e t (l₁ ++ l₂.filter fun a => (w.info a).signo ≠ sig))
  info : w'.info = w.info
  rest : SameRest w w'
  freed : ∀ a ∈ l₂, (w.info a).signo = sig → w'.live a = false
  dead : ∀ a, w.live a = false → w'.live a = false

theorem discardEntries_spec (t : ι) (sig : ℕ) : ∀ (fuel : ℕ) {w : World ι} {e : ι → List Addr} {l₁ l₂ : List Addr},
    Books w e → e t = l₁ ++ l₂ →
    (l₂.length < fuel → (w.discardEntries t sig fuel l₁.getLast?).isSome = true) ∧
    ∀ w', w.discardEntries t sig fuel l₁.getLast? = some w' → Discarded w w' t sig e l₁ l₂
  | 0, _, _, _, _, _, _ => ⟨fun h => absurd h (Nat.not_lt_zero _), fun _ h => absurd h (by simp [discardEntries])⟩
  | fuel + 1, w, e, l₁, [], hb, he => by
    have hc : Chain (w.load t) (l₁ ++ []) := he ▸ hb.chain t
    unfold discardEntries
    rw [hc.next_eq l₁ [] rfl]
    refine ⟨fun _ => rfl, fun w' h => ?_⟩
    cases h
    refine ⟨?_, rfl, ⟨fun _ => rfl, fun _ => rfl⟩, fun a ha => absurd ha not_mem_nil, fun _ => id⟩
    rw [filter_nil, ← he, update_eq_self]
    exact hb
  | fuel + 1, w, e, l₁, a :: l₂, hb, he => by
    have hc : Chain (w.load t) (l₁ ++ a :: l₂) := he ▸ hb.chain t
    unfold discardEntries
    rw [hc.next_eq l₁ (a :: l₂) rfl, List.head?_cons]
    dsimp only
    split_ifs with hsig
    · have hlast : some a = (l₁ ++ [a]).getLast? := List.getLast?_concat.symm
      rw [hlast]
      obtain ⟨hsome, hspec⟩ := discardEntries_spec t sig fuel hb (he.trans (append_cons l₁ a l₂))
      refine ⟨fun h => hsome (Nat.lt_of_succ_lt_succ h), fun w' h => ?_⟩
      have hrec := hspec w' h
      refine ⟨?_, hrec.info, hrec.rest, fun b hb' hbsig => ?_, hrec.dead⟩
      · rw [filter_cons_of_pos (by simpa using hsig), append_cons]
        exact hrec.books
      · obtain rfl | hb' := mem_cons.mp hb'
        · exact absurd hbsig hsig
        · exact hrec.freed b hb' hbsig
    · obtain ⟨hsome, hspec⟩ := discardEntries_spec t sig fuel (hb.remove he) (update_self ..)
      refine ⟨fun h => hsome (Nat.lt_of_succ_lt_succ h), fun w' h => ?_⟩
      have hrec := hspec w' h
      have hinfo : ((w.store t l₁.getLast? (w.next a)).freeEntry a).info = w.info := store_info ..
      refine ⟨?_, hrec.info.trans hinfo, ?_, fun b hb' hbsig => ?_, fun b hlive => hrec.dead b ?_⟩
      · rw [filter_cons_of_neg (by simpa using hsig)]
        have hbooks := hrec.books
        rw [update_idem, hinfo] at hbooks
        exact hbooks
      · have hstore := sameRest_store w t l₁.getLast? (w.next a)
        exact ⟨fun s => (hrec.rest.tail s).trans (hstore.tail s),
          fun s => (hrec.rest.signal s).trans (hstore.signal s)⟩
      · obtain rfl | hb' := mem_cons.mp hb'
        · exact hrec.dead b (update_self ..)
        · exact hrec.freed b hb' (by rw [hinfo]; exact hbsig)
      · unfold freeEntry
        dsimp only
        rw [store_live]
        obtain rfl | hba := eq_or_ne b a
        · exact update_self ..
        · rw [update_of_ne hba]
          exact hlive

end World

end I370Linux.Signals
