import I370Linux.Pipe

/-! # The stream through a pipe

As long as every copy goes through, what readers get is what writers have put in, in the order in which
they held the lock.  The holder of `PIPE_LOCK` is in one of the two copies, and there is at most one; the
holder of `i_atomic_write` is in a copy or waits for room.  `Rest` says this of all tasks but the one that is
running; the functions of `Pipe` are followed from `Rest` to `Rest`, and at the next sleep point the
invariant is whole again (`Rest.inv`). -/

namespace I370Linux.Pipe

open Runs CircularBuffer List

/-- The call holds `PIPE_LOCK`. -/
def Phase.holds : Phase → Bool
  | .readCopy .. | .writeCopy .. => true
  | _ => false

/-- The call holds `i_atomic_write`. -/
def Phase.owns : Phase → Bool
  | .writeWait .. | .writeCopy .. => true
  | _ => false

/-- The result is the number of bytes that went through, or an error if there are none; they are together in
the stream. -/
def Transferred (stream : List Byte) (c : Call) (r : Result) : Prop :=
  (match r with
    | .bytes n => n = c.moved.length
    | .error _ => c.moved = []) ∧
  (stream.drop c.since).take c.moved.length = c.moved

/-- A call to which the end of the stream belongs. -/
structure Appends (stream : List Byte) (c : Call) : Prop where
  since : c.since ≤ stream.length
  moved : stream.drop c.since = c.moved

/-- What a writer under way has done. -/
structure Writing {τ : Type*} (w : World τ) (c : Call) : Prop extends Appends w.accepted c where
  length : c.moved.length = c.done
  total : c.done + c.count = c.total
  small : c.done < 2 ^ 31

/-- What a reader under way has done. -/
structure Reading {τ : Type*} (w : World τ) (c : Call) : Prop extends Appends w.delivered c where
  length : c.moved.length = c.done
  room : c.done + w.len ≤ PIPE_BUF

def CallOk {τ : Type*} (w : World τ) : Phase → Prop
  | .idle => True
  | .readWait c | .atomicWait c => c.done = 0 ∧ c.moved = [] ∧ c.count = c.total
  | .readCopy c p left =>
    0 < left ∧ p + left ≤ PIPE_BUF ∧ Appends w.delivered c ∧ c.moved.length + left = c.done ∧
      c.done + w.len ≤ PIPE_BUF ∧
      w.accepted = w.delivered ++ ring PIPE_BUF w.base p left ++ ring PIPE_BUF w.base w.start w.len
  | .readDone c r => Transferred w.delivered c r
  | .writeWait c free =>
    Writing w c ∧ 0 < free ∧ (c.total ≤ PIPE_BUF → c.done = 0 ∧ free = c.count)
  | .writeCopy c p left =>
    0 < left ∧ p + left ≤ PIPE_BUF ∧ left ≤ w.len ∧ p = (w.start + (w.len - left)) % PIPE_BUF ∧
      Appends w.accepted c ∧ c.moved.length + left = c.done ∧ c.done + c.count = c.total ∧
      (c.total ≤ PIPE_BUF → c.count ≤ PIPE_BUF - w.len) ∧
      w.accepted = w.delivered ++ ring PIPE_BUF w.base w.start (w.len - left)
  | .writeDone c r => Transferred w.accepted c r ∧ (c.total ≤ PIPE_BUF → ∀ n, r = .bytes n → n = c.total)

/-- All tasks but `t`, which is running; it holds the lock or the semaphore as the two flags say. -/
structure Rest {τ : Type*} (w : World τ) (t : τ) (holds owns : Bool) : Prop where
  len_le : w.len ≤ PIPE_BUF
  start_lt : w.start < PIPE_BUF
  lock_le : w.lock ≤ 1
  held : holds = true → w.lock = 1
  locked : ∀ u, u ≠ t → (w.phase u).holds = true → holds = false ∧ w.lock = 1
  holder : w.lock = 1 → holds = true ∨ ∃ u, u ≠ t ∧ (w.phase u).holds = true
  one : ∀ u v, u ≠ t → v ≠ t → (w.phase u).holds = true → (w.phase v).holds = true → u = v
  owned : owns = true → w.atomic = false
  owner : ∀ u, u ≠ t → (w.phase u).owns = true → owns = false ∧ w.atomic = false
  sole : ∀ u v, u ≠ t → v ≠ t → (w.phase u).owns = true → (w.phase v).owns = true → u = v
  flow : w.lock = 0 → w.accepted = w.delivered ++ ring PIPE_BUF w.base w.start w.len
  calls : ∀ u, u ≠ t → CallOk w (w.phase u)

variable {τ : Type*} {w w' : World τ} {t : τ} {c : Call} {holds owns : Bool}

/-- The invariant of a pipe. -/
structure Inv (w : World τ) : Prop where
  len_le : w.len ≤ PIPE_BUF
  start_lt : w.start < PIPE_BUF
  stream : w.delivered <+: w.accepted
  flow : w.lock = 0 → w.accepted = w.delivered ++ ring PIPE_BUF w.base w.start w.len
  rest : ∀ t, Rest w t (w.phase t).holds (w.phase t).owns
  call : ∀ t, CallOk w (w.phase t)

/-! ### The call of another task -/

theorem Appends.transferred {stream : List Byte} (h : Appends stream c) {n : ℤ} (hn : n = c.moved.length) :
    Transferred stream c (.bytes n) := by
  refine ⟨hn, ?_⟩
  rw [h.moved, take_length]

theorem transferred_nil {stream : List Byte} (hc : c.moved = []) {r : Result} (hr : ∀ n, r = .bytes n → n = 0) :
    Transferred stream c r := by
  refine ⟨?_, by rw [hc]; rfl⟩
  cases r with
  | bytes n =>
    rw [hr n rfl, hc]
    rfl
  | error e => exact hc

theorem Transferred.append {stream : List Byte} {r : Result} (h : Transferred stream c r) (more : List Byte) :
    Transferred (stream ++ more) c r := by
  refine ⟨h.1, ?_⟩
  have hlen : c.moved.length ≤ (stream.drop c.since).length := by
    have := congrArg List.length h.2
    rw [length_take] at this
    omega
  rw [drop_append, take_append_of_le_length hlen]
  exact h.2

/-- A call without the lock stays as it is when the streams grow; that of a writer, when `accepted` does
not. -/
theorem CallOk.of_grows {p : Phase} (h : CallOk w p) (hh : p.holds = false)
    (ha : w.accepted <+: w'.accepted) (hd : w.delivered <+: w'.delivered)
    (ho : p.owns = true → w'.accepted = w.accepted) : CallOk w' p := by
  cases p with
  | idle => trivial
  | readWait c | atomicWait c => exact h
  | readCopy | writeCopy => cases hh
  | readDone c r =>
    obtain ⟨more, hd⟩ := hd
    rw [CallOk, ← hd]
    exact h.append more
  | writeDone c r =>
    obtain ⟨more, ha⟩ := ha
    refine ⟨?_, h.2⟩
    rw [← ha]
    exact h.1.append more
  | writeWait c free =>
    obtain ⟨hw, hfree⟩ := h
    refine ⟨⟨⟨?_, ?_⟩, hw.length, hw.total, hw.small⟩, hfree⟩
    · rw [ho rfl]
      exact hw.since
    · rw [ho rfl]
      exact hw.moved

theorem CallOk.stream {p : Phase} (h : CallOk w p) (hh : p.holds = true) : w.delivered <+: w.accepted := by
  cases p with
  | readCopy c p left =>
    obtain ⟨-, -, -, -, -, hflow⟩ := h
    rw [hflow, append_assoc]
    exact prefix_append ..
  | writeCopy c p left =>
    obtain ⟨-, -, -, -, -, -, -, -, hflow⟩ := h
    rw [hflow]
    exact prefix_append ..
  | idle | readWait | readDone | atomicWait | writeWait | writeDone => cases hh

/-! ### Steps of the task that is running -/

namespace Rest

variable {u : τ} {n : ℕ} {p : Phase}

theorem not_holds (h : Rest w t holds owns) (hf : holds = true ∨ w.lock = 0) (hu : u ≠ t) :
    (w.phase u).holds = false := by
  by_contra hh
  obtain ⟨hno, h1⟩ := h.locked u hu (by simpa using hh)
  obtain hf | h0 := hf
  · rw [hf] at hno
    cases hno
  · omega

theorem not_owns (h : Rest w t holds owns) (hf : owns = true ∨ w.atomic = true) (hu : u ≠ t) :
    (w.phase u).owns = false := by
  by_contra ho
  have := h.owner u hu (by simpa using ho)
  simp [this] at hf

theorem callOk_congr (h : CallOk w p) (hb : w'.base = w.base) (hs : w'.start = w.start)
    (hl : w'.len = w.len) (ha : w'.accepted = w.accepted) (hd : w'.delivered = w.delivered) : CallOk w' p := by
  cases w
  cases w'
  cases hb
  cases hs
  cases hl
  cases ha
  cases hd
  cases p with
  | writeWait c free =>
    obtain ⟨hw, hfree⟩ := h
    exact ⟨{ hw with }, hfree⟩
  | _ => exact h

/-- The streams and the page change under the lock; `accepted` only by the owner of the semaphore. -/
theorem change (h : Rest w t true owns) {b : ℕ → Byte} {s : ℕ} {a d : List Byte} (hlen : n ≤ PIPE_BUF)
    (hstart : s < PIPE_BUF) (ha : w.accepted <+: a) (hd : w.delivered <+: d) (ho : owns = false → a = w.accepted) :
    Rest { w with base := b, start := s, len := n, accepted := a, delivered := d } t true owns where
  len_le := hlen
  start_lt := hstart
  __ := h
  flow := by
    intro h0
    exact absurd (h.held rfl) (by simp [show w.lock = 0 from h0])
  calls := fun u hu => (h.calls u hu).of_grows (h.not_holds (.inl rfl) hu) ha hd
    fun hown => ho (h.owner u hu hown).1

theorem take (h : Rest w t false owns) (h0 : w.lock = 0) : Rest { w with lock := w.lock + 1 } t true owns := by
  refine ⟨h.len_le, h.start_lt, by simp [h0], fun _ => by simp [h0], fun u hu hh => ?_, fun _ => .inl rfl, h.one,
    h.owned, h.owner, h.sole, nofun, fun u hu => callOk_congr (h.calls u hu) rfl rfl rfl rfl rfl⟩
  rw [h.not_holds (.inr h0) hu] at hh
  cases hh

theorem drop (h : Rest w t true owns)
    (hflow : w.accepted = w.delivered ++ ring PIPE_BUF w.base w.start w.len) :
    Rest { w with lock := w.lock - 1 } t false owns := by
  have h1 := h.held rfl
  refine ⟨h.len_le, h.start_lt, by simp [h1], nofun, fun u hu hh => ?_, by simp [h1], h.one, h.owned, h.owner,
    h.sole, fun _ => hflow, fun u hu => callOk_congr (h.calls u hu) rfl rfl rfl rfl rfl⟩
  rw [h.not_holds (.inl rfl) hu] at hh
  cases hh

theorem down (h : Rest w t false false) (hfree : w.atomic = true) :
    Rest { w with atomic := false } t false true := by
  refine { h with
    owned := fun _ => rfl, owner := fun u hu ho => ?_
    calls := fun u hu => callOk_congr (h.calls u hu) rfl rfl rfl rfl rfl }
  rw [h.not_owns (.inr hfree) hu] at ho
  cases ho

theorem up (h : Rest w t false true) : Rest { w with atomic := true } t false false := by
  refine { h with
    owned := nofun, owner := fun u hu ho => ?_
    calls := fun u hu => callOk_congr (h.calls u hu) rfl rfl rfl rfl rfl }
  rw [h.not_owns (.inl rfl) hu] at ho
  cases ho

variable [DecidableEq τ]

theorem sole_setPhase {f : Phase → Bool} {b : Bool} (hp : f p = b)
    (hno : ∀ u, u ≠ t → f (w.phase u) = true → b = false)
    (hone : ∀ u v, u ≠ t → v ≠ t → f (w.phase u) = true → f (w.phase v) = true → u = v) :
    ∀ u v, f ((w.setPhase t p).phase u) = true → f ((w.setPhase t p).phase v) = true → u = v := by
  intro u v hu hv
  simp only [World.setPhase, Function.update_apply] at hu hv
  split_ifs at hu hv with hut hvt hvt
  · rw [hut, hvt]
  · exact absurd (hp.symm.trans hu) (by simp [hno v hvt hv])
  · exact absurd (hp.symm.trans hv) (by simp [hno u hut hu])
  · exact hone u v hut hvt hu hv

theorem inv (h : Rest w t holds owns) (hh : p.holds = holds) (ho : p.owns = owns)
    (hc : CallOk w p) : Inv (w.setPhase t p) := by
  have hself : (w.setPhase t p).phase t = p := Function.update_self ..
  have hother : ∀ u, u ≠ t → (w.setPhase t p).phase u = w.phase u := fun u hu => Function.update_of_ne hu ..
  have hcall : ∀ u, CallOk (w.setPhase t p) ((w.setPhase t p).phase u) := by
    intro u
    obtain rfl | hu := eq_or_ne u t
    · rw [hself]
      exact callOk_congr hc rfl rfl rfl rfl rfl
    · rw [hother u hu]
      exact callOk_congr (h.calls u hu) rfl rfl rfl rfl rfl
  -- the flags of any task
  have hholds : ∀ u, ((w.setPhase t p).phase u).holds = true → w.lock = 1 := by
    intro u hu
    obtain rfl | hut := eq_or_ne u t
    · rw [hself, hh] at hu
      exact h.held hu
    · rw [hother u hut] at hu
      exact (h.locked u hut hu).2
  have howns : ∀ u, ((w.setPhase t p).phase u).owns = true → w.atomic = false := by
    intro u hu
    obtain rfl | hut := eq_or_ne u t
    · rw [hself, ho] at hu
      exact h.owned hu
    · rw [hother u hut] at hu
      exact (h.owner u hut hu).2
  have hone := sole_setPhase (w := w) hh (fun u hu hf => (h.locked u hu hf).1) h.one
  have hsole := sole_setPhase (w := w) ho (fun u hu hf => (h.owner u hu hf).1) h.sole
  have hholder : w.lock = 1 → ∃ u, ((w.setPhase t p).phase u).holds = true := by
    intro h1
    obtain hh' | ⟨u, hu, hh'⟩ := h.holder h1
    · exact ⟨t, by rw [hself, hh, hh']⟩
    · exact ⟨u, by rw [hother u hu, hh']⟩
  have hstream : w.delivered <+: w.accepted := by
    by_cases h0 : w.lock = 0
    · exact ⟨_, (h.flow h0).symm⟩
    · have hle := h.lock_le
      obtain ⟨u, hu⟩ := hholder (by omega)
      exact (hcall u).stream hu
  refine ⟨h.len_le, h.start_lt, hstream, h.flow, fun v => ?_, hcall⟩
  refine ⟨h.len_le, h.start_lt, h.lock_le, hholds v, ?_, ?_, fun u u' _ _ => hone u u', howns v, ?_,
    fun u u' _ _ => hsole u u', h.flow, fun u _ => hcall u⟩
  · intro u hu hh'
    refine ⟨?_, hholds u hh'⟩
    by_contra hv
    exact hu (hone u v hh' (by simpa using hv))
  · intro h1
    obtain ⟨u, hu⟩ := hholder h1
    obtain rfl | huv := eq_or_ne u v
    · exact .inl hu
    · exact .inr ⟨u, huv, hu⟩
  · intro u hu ho'
    refine ⟨?_, howns u ho'⟩
    by_contra hv
    exact hu (hsole u v ho' (by simpa using hv))

/-! ### `pipe_read` from point to point -/

theorem ssize_of_lt (h : n < 2 ^ 31) : ssize n = n := by
  unfold ssize
  rw [BitVec.toInt_eq_toNat_cond, BitVec.toNat_ofNat, Nat.mod_eq_of_lt (by omega), if_pos (by omega)]

theorem readLoop (h : Rest w t true false) (hc : Reading w c)
    (hflow : w.accepted = w.delivered ++ ring PIPE_BUF w.base w.start w.len) : Inv (w.readLoop t c) := by
  have hstart := h.start_lt
  have hroom := hc.room
  unfold World.readLoop
  split
  case isTrue hmore =>
    generalize hchars : min (min (PIPE_BUF - w.start) c.count) w.len = chars
    have hsplit : ring PIPE_BUF w.base w.start w.len = ring PIPE_BUF w.base w.start chars ++
        ring PIPE_BUF w.base ((w.start + chars) % PIPE_BUF) (w.len - chars) := by
      rw [← ring_add]
      congr 1
      omega
    have hrest : Rest { w with start := (w.start + chars) % PIPE_BUF, len := w.len - chars } t true false := by
      have hle : w.len - chars ≤ PIPE_BUF := by omega
      exact h.change hle (Nat.mod_lt _ (by decide)) prefix_rfl prefix_rfl fun _ => rfl
    apply hrest.inv rfl rfl
    refine ⟨by omega, by omega, ⟨hc.since, hc.moved⟩, ?_, ?_, ?_⟩
    · rw [hc.length]
    · change c.done + chars + (w.len - chars) ≤ PIPE_BUF
      omega
    · rw [hflow, hsplit, append_assoc]
  case isFalse =>
    apply (h.drop hflow).inv rfl rfl
    by_cases hd : c.done = 0
    · have hmoved : c.moved = [] := eq_nil_of_length_eq_zero (hc.length.trans hd)
      rw [if_neg (not_not.mpr hd)]
      apply transferred_nil hmoved
      split <;> simp
    · rw [if_pos hd]
      have hsmall : c.done ≤ 4096 := le_trans (Nat.le_add_right ..) hroom
      have hbytes : ssize c.done = c.moved.length := by rw [hc.length, ssize_of_lt (by omega)]
      exact hc.toAppends.transferred hbytes

def Fresh (c : Call) : Prop := c.done = 0 ∧ c.moved = [] ∧ c.count = c.total

section

variable (h : Rest w t false false) (hc : Fresh c)
include h hc

theorem readDone_fresh {r : Result} (hr : ∀ n, r = .bytes n → n = 0) : Inv (w.setPhase t (.readDone c r)) :=
  h.inv rfl rfl (transferred_nil hc.2.1 hr)

theorem writeDone_fresh (e : Errno) : Inv (w.setPhase t (.writeDone c (.error e))) := by
  apply h.inv rfl rfl
  constructor
  · apply transferred_nil hc.2.1
    simp
  · simp

theorem readStart (h0 : w.lock = 0) : Inv (w.readStart t c) := by
  apply (h.take h0).readLoop _ (h.flow h0)
  refine ⟨⟨le_rfl, ?_⟩, ?_, ?_⟩
  · rw [drop_length, hc.2.1]
  · rw [hc.1, hc.2.1]
    rfl
  · rw [hc.1, Nat.zero_add]
    exact h.len_le

theorem readBlock (signal : Bool) : Inv (w.readBlock t c signal) := by
  unfold World.readBlock
  split
  case isTrue =>
    split_ifs
    · exact h.readDone_fresh hc (by simp)
    · exact h.readDone_fresh hc (by simp)
    · exact h.inv rfl rfl hc
  case isFalse hopen => exact h.readStart hc (by omega)

theorem pipeRead (signal : Bool) : Inv (w.pipeRead t c signal) := by
  unfold World.pipeRead
  split
  case isTrue =>
    split
    case isTrue => exact h.readDone_fresh hc (by simp)
    case isFalse h0 =>
      split
      case isTrue =>
        apply h.readDone_fresh hc
        split <;> simp
      case isFalse => exact h.readStart hc (by omega)
  case isFalse => exact h.readBlock hc signal

end

/-! ### `pipe_write` from point to point -/

theorem writeChunk (h : Rest w t true true) (hc : Writing w c) (hcount : 0 < c.count) (hfree : w.len < PIPE_BUF)
    (hwhole : c.total ≤ PIPE_BUF → c.count ≤ PIPE_BUF - w.len)
    (hflow : w.accepted = w.delivered ++ ring PIPE_BUF w.base w.start w.len) : Inv (w.writeChunk t c) := by
  have hstart := h.start_lt
  have hend := Nat.mod_lt (w.start + w.len) (show 0 < PIPE_BUF by decide)
  have htotal := hc.total
  unfold World.writeChunk
  dsimp only
  generalize hchars : min (min (PIPE_BUF - (w.start + w.len) % PIPE_BUF) c.count) (PIPE_BUF - w.len) = chars
  have hrest : Rest { w with len := w.len + chars } t true true := by
    have hle : w.len + chars ≤ PIPE_BUF := by omega
    exact h.change hle hstart prefix_rfl prefix_rfl fun _ => rfl
  apply hrest.inv rfl rfl
  refine ⟨by omega, by omega, Nat.le_add_left .., ?_, ⟨hc.since, hc.moved⟩, ?_, ?_, ?_, ?_⟩
  · rw [Nat.add_sub_cancel]
  · rw [hc.length]
  · change c.done + chars + (c.count - chars) = c.total
    omega
  · intro hsmall
    have := hwhole hsmall
    change c.count - chars ≤ PIPE_BUF - (w.len + chars)
    omega
  · rw [Nat.add_sub_cancel, hflow]

theorem writeEnd (h : Rest w t false true) (hc : Writing w c) {err : Option Errno}
    (hwhole : c.total ≤ PIPE_BUF → c.count = 0 ∨ c.done = 0 ∧ err ≠ none) : Inv (w.writeEnd t c err) := by
  have htotal := hc.total
  apply h.up.inv rfl rfl
  rw [ssize_of_lt hc.small]
  by_cases hd : c.done = 0
  · have hmoved : c.moved = [] := eq_nil_of_length_eq_zero (hc.length.trans hd)
    rw [if_neg (by simp [hd])]
    constructor
    · apply transferred_nil hmoved
      cases err <;> simp
    · intro hsmall n hn
      cases err with
      | none =>
        cases hn
        obtain hz | ⟨-, hne⟩ := hwhole hsmall
        · rw [hd, hz] at htotal
          exact_mod_cast htotal
        · exact absurd rfl hne
      | some e => cases hn
  · rw [if_pos (by exact_mod_cast hd)]
    constructor
    · apply hc.toAppends.transferred
      rw [hc.length]
    · intro hsmall n hn
      cases hn
      obtain hz | ⟨hz, -⟩ := hwhole hsmall
      · rw [← htotal, hz, Nat.add_zero]
      · exact absurd hz hd

theorem writeLoop (h : Rest w t false true) (hc : Writing w c) {free : ℕ} (hpos : c.count ≠ 0 → 0 < free)
    (hwhole : c.total ≤ PIPE_BUF → c.count = 0 ∨ c.done = 0 ∧ free = c.count) (signal : Bool) :
    Inv (w.writeLoop t c free signal) := by
  unfold World.writeLoop
  split
  case isTrue hz => exact h.writeEnd hc fun _ => .inl hz
  case isFalse hz =>
    have hdone : c.total ≤ PIPE_BUF → c.done = 0 ∧ free = c.count := fun hs => (hwhole hs).resolve_left hz
    have hfail : ∀ e, Inv (w.writeEnd t c (some e)) := fun e => h.writeEnd hc fun hs => .inr ⟨(hdone hs).1, nofun⟩
    split
    case isTrue =>
      split_ifs
      · exact hfail _
      · exact hfail _
      · exact hfail _
      · exact h.inv rfl rfl ⟨hc, hpos hz, hdone⟩
    case isFalse hroom =>
      have h0 : w.lock = 0 := by omega
      apply (h.take h0).writeChunk { hc with } (by omega) _ _ (h.flow h0)
      · change w.len < PIPE_BUF
        omega
      · intro hs
        change c.count ≤ PIPE_BUF - w.len
        omega

theorem writeNext (h : Rest w t true true) (hc : Writing w c)
    (hwhole : c.total ≤ PIPE_BUF → c.count ≤ PIPE_BUF - w.len)
    (hflow : w.accepted = w.delivered ++ ring PIPE_BUF w.base w.start w.len) (signal : Bool) :
    Inv (w.writeNext t c signal) := by
  unfold World.writeNext
  split
  case isTrue hmore => exact h.writeChunk hc hmore.1 (by omega) hwhole hflow
  case isFalse hend =>
    apply (h.drop hflow).writeLoop { hc with }
    · exact fun _ => Nat.one_pos
    · intro hs
      exact .inl (by omega)

theorem writeDown (h : Rest w t false false) (hc : Fresh c) (signal : Bool) : Inv (w.writeDown t c signal) := by
  unfold World.writeDown
  split
  case isTrue hfree =>
    apply (h.down hfree).writeLoop
    · refine ⟨⟨le_rfl, ?_⟩, ?_, ?_, ?_⟩
      · rw [drop_length, hc.2.1]
      · rw [hc.1, hc.2.1]
        rfl
      · rw [hc.1, hc.2.2, Nat.zero_add]
      · rw [hc.1]
        decide
    · intro hz
      change c.count ≠ 0 at hz
      split <;> omega
    · intro hs
      rw [← hc.2.2] at hs
      exact .inr ⟨hc.1, if_pos hs⟩
  case isFalse =>
    split
    case isTrue => exact h.writeDone_fresh hc _
    case isFalse => exact h.inv rfl rfl hc

theorem pipeWrite (h : Rest w t false false) (hc : Fresh c) (signal : Bool) : Inv (w.pipeWrite t c signal) := by
  unfold World.pipeWrite
  split
  case isTrue => exact h.writeDone_fresh hc _
  case isFalse => exact h.writeDown hc signal

end Rest

/-! ### Sleep points -/

theorem Inv.rest_of_phase (h : Inv w) {p : Phase} (hp : w.phase t = p) : Rest w t p.holds p.owns := by
  rw [← hp]
  exact h.rest t

theorem Inv.call_of_phase (h : Inv w) {p : Phase} (hp : w.phase t = p) : CallOk w p := by
  rw [← hp]
  exact h.call t

theorem Inv.rest_of_free (h : Inv w) (hp : (w.phase t).free = true) : Rest w t false false := by
  cases hc : w.phase t with
  | idle | readDone | writeDone => exact h.rest_of_phase hc
  | readWait | readCopy | atomicWait | writeWait | writeCopy =>
    rw [hc] at hp
    cases hp

theorem Inv.ends (h : Inv w) (readers writers : ℕ) : Inv { w with readers, writers } := by
  have hcall : ∀ t, CallOk { w with readers, writers } (w.phase t) := fun t =>
    Rest.callOk_congr (h.call t) rfl rfl rfl rfl rfl
  refine ⟨h.len_le, h.start_lt, h.stream, h.flow, fun t => ?_, hcall⟩
  have hr := h.rest t
  exact { hr with calls := fun u _ => hcall u }

theorem inv_boot (base : ℕ → Byte) : Inv (boot base : World τ) := by
  have hstart : 0 < PIPE_BUF := by decide
  refine ⟨Nat.zero_le _, hstart, List.nil_prefix, fun _ => rfl, fun t => ?_, fun _ => trivial⟩
  refine ⟨Nat.zero_le _, hstart, Nat.zero_le _, ?_, ?_, ?_, ?_, ?_, ?_, ?_, fun _ => rfl, fun _ _ => trivial⟩
  all_goals intros
  all_goals contradiction
/-- The stream of a pipe, and what its calls return. -/
structure Good (w : World τ) : Prop where
  len_le : w.len ≤ PIPE_BUF
  start_lt : w.start < PIPE_BUF
  /-- The readers have got, in the order of the lock, the first part of what the writers put in. -/
  stream : w.delivered <+: w.accepted
  /-- The rest is in the pipe. -/
  rest : w.lock = 0 → w.accepted = w.delivered ++ ring PIPE_BUF w.base w.start w.len
  reads : ∀ t c r, w.phase t = .readDone c r → Transferred w.delivered c r
  writes : ∀ t c r, w.phase t = .writeDone c r → Transferred w.accepted c r
  whole : ∀ t c n, w.phase t = .writeDone c (.bytes n) → c.total ≤ PIPE_BUF → n = c.total

theorem Inv.good (h : Inv w) : Good w where
  __ := h
  rest := h.flow
  reads := fun _ _ _ hp => h.call_of_phase hp
  writes := fun _ _ _ hp => (h.call_of_phase hp).1
  whole := fun _ _ n hp hs => (h.call_of_phase hp).2 hs n rfl

/-! ### The copies -/

theorem slice_eq_ring {p n : ℕ} (w : World τ) (h : p + n ≤ PIPE_BUF) : w.slice p n = ring PIPE_BUF w.base p n := by
  apply map_congr_left
  intro k hk
  have := mem_range.mp hk
  rw [Nat.mod_eq_of_lt (by omega)]

theorem Appends.append {stream : List Byte} (h : Appends stream c) (more : List Byte) :
    Appends (stream ++ more) { c with moved := c.moved ++ more } := by
  constructor
  · rw [length_append]
    exact Nat.le_add_right_of_le h.since
  · rw [drop_append_of_le_length h.since, h.moved]

variable [DecidableEq τ] {left n p : ℕ}

theorem Inv.copyOut (h : Inv w) (hp : w.phase t = .readCopy c p left) (hle : n ≤ left) :
    Inv (w.copyOut t c p left n) := by
  obtain ⟨-, hfit, happ, hlen, hroom, hflow⟩ := h.call_of_phase hp
  have hslice : w.slice p n = ring PIPE_BUF w.base p n := slice_eq_ring w (by omega)
  have hrest : Rest { w with delivered := w.delivered ++ w.slice p n } t true false :=
    (h.rest_of_phase hp).change h.len_le h.start_lt prefix_rfl ⟨_, rfl⟩ fun _ => rfl
  have hlength : (c.moved ++ w.slice p n).length = c.moved.length + n := by
    rw [length_append, hslice, length_ring]
  have hsplit : ring PIPE_BUF w.base p left = w.slice p n ++ ring PIPE_BUF w.base (p + n) (left - n) := by
    rw [hslice, ← ring_mod _ _ (p + n), ← ring_add]
    congr 1
    omega
  have hflow' : w.accepted = w.delivered ++ w.slice p n ++ ring PIPE_BUF w.base (p + n) (left - n) ++
      ring PIPE_BUF w.base w.start w.len := by
    rw [hflow, hsplit]
    simp only [append_assoc]
  unfold World.copyOut
  split
  case isTrue hlt =>
    apply hrest.inv rfl rfl
    refine ⟨by omega, by omega, happ.append _, ?_, hroom, hflow'⟩
    change (c.moved ++ w.slice p n).length + (left - n) = c.done
    omega
  case isFalse hlt =>
    apply hrest.readLoop
    · refine ⟨happ.append _, ?_, hroom⟩
      change (c.moved ++ w.slice p n).length = c.done
      omega
    · rw [show left - n = 0 by omega, ring_zero, append_nil] at hflow'
      exact hflow'

theorem Inv.copyIn (h : Inv w) (hp : w.phase t = .writeCopy c p left) {bytes : List Byte}
    (hpos : 0 < bytes.length) (hle : bytes.length ≤ left) (hsmall : c.done < 2 ^ 31) (signal : Bool) :
    Inv (w.copyIn t c p left bytes signal) := by
  obtain ⟨-, hfit, hlelen, hplace, happ, hlen, htotal, hwhole, hflow⟩ := h.call_of_phase hp
  have hbound := h.len_le
  have hrest : Rest { w with base := store w.base p bytes, accepted := w.accepted ++ bytes } t true true :=
    (h.rest_of_phase hp).change h.len_le h.start_lt ⟨_, rfl⟩ prefix_rfl nofun
  have hlength : (c.moved ++ bytes).length = c.moved.length + bytes.length := length_append
  have hflow' : w.accepted ++ bytes =
      w.delivered ++ ring PIPE_BUF (store w.base p bytes) w.start (w.len - left + bytes.length) := by
    rw [ring_store (by omega) h.start_lt hplace (by omega), hflow, append_assoc]
  unfold World.copyIn
  split
  case isTrue hlt =>
    have hnext : w.len - (left - bytes.length) = w.len - left + bytes.length := by omega
    apply hrest.inv rfl rfl
    refine ⟨by omega, by omega, ?_, ?_, happ.append _, ?_, htotal, hwhole, ?_⟩
    · exact (Nat.sub_le ..).trans hlelen
    · rw [hnext, ← Nat.add_assoc, ← Nat.mod_add_mod, ← hplace, Nat.mod_eq_of_lt (by omega)]
    · change (c.moved ++ bytes).length + (left - bytes.length) = c.done
      omega
    · rw [hnext, hflow']
  case isFalse hlt =>
    apply hrest.writeNext
    · refine ⟨happ.append _, ?_, htotal, hsmall⟩
      change (c.moved ++ bytes).length = c.done
      omega
    · exact hwhole
    · rw [show w.len - left + bytes.length = w.len by omega] at hflow'
      exact hflow'

/-! ### Every run -/

/-- The condition for a step: no copy stops short, and a writer copies only up to the largest `ssize_t`. -/
def copies (w : World τ) : Op τ → Bool
  | .fault .. => false
  | .copyIn t _ _ =>
    match w.phase t with
    | .writeCopy c _ _ => c.done < 2 ^ 31
    | _ => true
  | _ => true

theorem Inv.step (h : Inv w) {op : Op τ} (hc : copies w op = true) (hs : step w op = some w') : Inv w' := by
  have hnew : ∀ count nonblock, Rest.Fresh (.new count nonblock) := fun _ _ => ⟨rfl, rfl, rfl⟩
  cases op with
  | read t count nonblock signal =>
    obtain ⟨hf, rfl⟩ := of_guard hs
    exact (h.rest_of_free hf).pipeRead (hnew count nonblock) signal
  | write t count nonblock signal =>
    obtain ⟨hf, rfl⟩ := of_guard hs
    exact (h.rest_of_free hf).pipeWrite (hnew count nonblock) signal
  | wake t signal =>
    dsimp only [Pipe.step] at hs
    split at hs
    case h_1 c hp =>
      cases hs
      exact (h.rest_of_phase hp).readBlock (h.call_of_phase hp) signal
    case h_2 c hp =>
      cases hs
      exact (h.rest_of_phase hp).writeDown (h.call_of_phase hp) signal
    case h_3 c free hp =>
      cases hs
      obtain ⟨hw, hfree, hwhole⟩ := h.call_of_phase hp
      exact (h.rest_of_phase hp).writeLoop hw (fun _ => hfree) (fun hs => .inr (hwhole hs)) signal
    case h_4 => cases hs
  | copyOut t n =>
    dsimp only [Pipe.step] at hs
    split at hs
    case h_1 c p left hp =>
      obtain ⟨hn, rfl⟩ := of_guard hs
      exact h.copyOut hp hn.2
    case h_2 => cases hs
  | copyIn t bytes signal =>
    dsimp only [Pipe.step] at hs
    split at hs
    case h_1 c p left hp =>
      obtain ⟨hn, rfl⟩ := of_guard hs
      rw [copies, hp] at hc
      exact h.copyIn hp hn.1 hn.2 (of_decide_eq_true hc) signal
    case h_2 => cases hs
  | fault t signal => cases hc
  | ends readers writers =>
    cases hs
    exact h.ends readers writers

/-- **Pipes are streams** in every run in which the copies go through. -/
theorem good_of_copies (base : ℕ → Byte) (w : World τ)
    (hr : ReachesBy step (fun w op => copies w op = true) (boot base) w) : Good w := by
  apply Inv.good
  apply hr.invariant (inv_boot base)
  intro w op w' h hc hs
  exact h.step hc hs

/-- A byte goes through the pipe. -/
theorem good_of_copies_byte : ∃ w : World (Fin 2), w.delivered = [65] ∧
    w.phase 1 = .readDone ⟨false, 0, 1, 1, [65], 0⟩ (.bytes 1) ∧ Good w := by
  obtain ⟨w, hw, hdel, hphase⟩ : ∃ w : World (Fin 2), ReachesBy step (fun w op => copies w op = true) (boot fun _ => 0) w ∧
      w.delivered = [65] ∧ w.phase 1 = .readDone ⟨false, 0, 1, 1, [65], 0⟩ (.bytes 1) := ReachesBy.exists_of_exec
    [.write 0 1 false false, .copyIn 0 [65] false, .read 1 1 false false, .copyOut 1 1] (by decide +kernel)
  exact ⟨w, hdel, hphase, good_of_copies _ w hw⟩

/-- **Bytes that nobody wrote.**  A writer gives an address that is not accessible: the call returns 1 without
a byte accepted, and a reader gets what was in the page. -/
theorem fault_makes_bytes : ∃ w : World (Fin 2), Reaches step (boot fun _ => 0) w ∧
    w.phase 0 = .writeDone ⟨false, 0, 1, 1, [], 0⟩ (.bytes 1) ∧ w.delivered = [0] ∧ w.accepted = [] ∧ ¬ Good w := by
  obtain ⟨w, hw, hphase, hdel, hacc⟩ : ∃ w : World (Fin 2), Reaches step (boot fun _ => 0) w ∧
      w.phase 0 = .writeDone ⟨false, 0, 1, 1, [], 0⟩ (.bytes 1) ∧ w.delivered = [0] ∧ w.accepted = [] :=
    Reaches.exists_of_exec [.write 0 1 false false, .fault 0 false, .read 1 1 false false, .copyOut 1 1]
      (by decide +kernel)
  refine ⟨w, hw, hphase, hdel, hacc, fun hg => ?_⟩
  have hstream := hg.stream
  rw [hdel, hacc] at hstream
  exact absurd hstream (by decide)

end I370Linux.Pipe
