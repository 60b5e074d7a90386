import I370Linux.IpFragLists

/-! # What the reassembly returns

`ip_glue` copies a list of fragments that connect, one behind the other (`glueLoop_spec`).  Two things are said of it.
Against arbitrary fragments the `skb` is whole if no fragment is lost that `qp->len` counts on, and no last
fragment ends before the datagram begins (`whole_of_kept`).  For the fragments of one datagram it is the
datagram, unless a fragment lies inside the one before it (`returns_datagram`). -/

namespace I370Linux.IpFragment

open Runs List

variable {l : List Frag} {o e x : ℤ} {p : Packet} {q q' : Ipq} {a : Alloc} {w w' w₁ : World}

def Frag.Covers (f : Frag) (x : ℤ) : Prop := f.offset ≤ x ∧ x < f.endOff

/-- The byte for the place `x` of the datagram. -/
def Frag.byte (f : Frag) (x : ℤ) : Byte := f.data (f.ptr + (x - f.offset))

variable {count ihlen n : ℤ} {b : Buf} {alloc : Bool} {s : World × List Packet}

theorem glueLoop_spec (h : Laid l) (hc : connects o l = true) (ho : ∀ f ∈ l, o ≤ f.offset) {len c : ℤ}
    {b' : Buf} (hcount : count = ihlen + o) (hr : glueLoop ihlen len l count b = some (c, b')) :
    ∃ E, c = ihlen + E ∧ o ≤ E ∧
      (∀ f ∈ l, f.endOff ≤ E) ∧ (l ≠ [] → c % 2 ^ 32 ≤ len % 2 ^ 32 ∧ ∃ f ∈ l, f.endOff = E) ∧
      (∀ r ∈ b'.writes, r ∈ b.writes ∨ ihlen + o ≤ r.1 ∧ r.1 + r.2 ≤ c) ∧
      (∀ x < ihlen + o, b'.bytes x = b.bytes x) ∧
      ∀ x, o ≤ x → x < E → ∃ f ∈ l, f.Covers x ∧ b'.bytes (ihlen + x) = some (f.byte x) := by
  induction l generalizing o b count with
  | nil =>
    cases hr
    exact ⟨o, hcount, le_rfl, by simp, by simp, fun r hr => .inl hr, fun _ _ => rfl, fun x h₁ h₂ => by omega⟩
  | cons f l ih =>
    have hlen := (h.sizes f mem_cons_self).1
    simp only [connects, Bool.and_eq_true, Bool.not_eq_true', decide_eq_false_iff_not, not_lt] at hc
    obtain rfl : f.offset = o := le_antisymm hc.1 (ho f mem_cons_self)
    unfold glueLoop at hr
    split_ifs at hr with hbad
    rw [not_or, not_lt, not_lt] at hbad
    have hnext : count + f.len = ihlen + f.endOff := by omega
    rw [hnext] at hr hbad
    obtain ⟨E, rfl, hE, hends, hlast, hwrites, hlow, hbytes⟩ :=
      ih h.tail hc.2 (fun g hg => (rel_of_pairwise_cons h.sorted hg).2) rfl hr
    refine ⟨E, rfl, by omega, ?_, fun _ => ?_, fun r hr => ?_, fun x hx => ?_, fun x h₁ h₂ => ?_⟩
    · simpa using ⟨hE, hends⟩
    · obtain rfl | hl := eq_or_ne l []
      · have hcE : ihlen + f.endOff = ihlen + E := by
          exact (Prod.mk.inj (Option.some.inj hr)).1
        exact ⟨hcE ▸ hbad.2, f, by simp, by omega⟩
      · obtain ⟨hle, g, hg, hgE⟩ := hlast hl
        exact ⟨hle, g, by simp [hg], hgE⟩
    · obtain hr | hr := hwrites r hr
      · obtain rfl | hr := mem_cons.mp hr
        · exact .inr ⟨le_rfl, by dsimp only; omega⟩
        · exact .inl hr
      · exact .inr ⟨by omega, hr.2⟩
    · rw [hlow x (by omega)]
      simp only [Buf.memcpy]
      rw [if_neg (by omega)]
    · by_cases hx : x < f.endOff
      · refine ⟨f, mem_cons_self, ⟨h₁, hx⟩, ?_⟩
        rw [hlow _ (by omega)]
        simp only [Buf.memcpy]
        rw [if_pos (by omega), Frag.byte]
        congr 3
        omega
      · obtain ⟨g, hg, hgx⟩ := hbytes x (by omega) h₂
        exact ⟨g, mem_cons_of_mem f hg, hgx⟩

theorem receive_glued (h : (receive q p a).1 = .glued q' n b) : p.totLen + p.offset ≤ 65535 ∧
    q' = (q.remember p).add p true ∧ ipDone q' = true ∧ ipGlue q' a.glue = some (n, b) := by
  unfold receive at h
  dsimp only at h
  split_ifs at h with h1 h2 h3 h4
  rw [Bool.not_eq_false] at h3
  rw [h3] at h h4
  split at h
  · next g hg =>
    cases h
    exact ⟨by omega, rfl, h4, hg⟩
  · cases h

theorem ipDefrag_glued (h : (w.ipDefrag p a).1 = .glued q n b) :
    (receive (w.queueOf p) p a).1 = .glued q n b := by
  unfold World.ipDefrag at h
  unfold World.queueOf
  cases hf : w.ipFind p.key with
  | some q => rwa [hf] at h
  | none =>
    rw [hf] at h
    split_ifs at h
    exact h

/-! ### Arbitrary fragments -/

/-- **A datagram that is whole**: the copies stay inside the `skb`, the header is the one of the queue, the length is
that of the queue, and every byte was written. -/
structure Whole (q : Ipq) (n : ℤ) (b : Buf) : Prop where
  inside : ∀ r ∈ b.writes, 0 ≤ r.1 ∧ r.1 + r.2 ≤ q.ihlen + q.len
  header : ∀ x : ℤ, 0 ≤ x → x < q.ihlen → b.bytes x = some (q.iph x)
  totLen : n = q.ihlen + q.len ∧ n ≤ 65535
  written : ∀ x, 0 ≤ x → x < n → b.bytes x ≠ none

/-- Some fragment reaches the length that the last one has given. -/
def Ipq.Reached (q : Ipq) : Prop := q.len = 0 ∨ ∃ f ∈ q.fragments, q.len ≤ f.endOff

/-- What `StepKeeps` keeps of a queue. -/
structure Kept (q : Ipq) : Prop where
  laid : Laid q.fragments
  bound : ∀ f ∈ q.fragments, f.endOff ≤ 65535
  len : 0 ≤ q.len
  reached : q.Reached

theorem ipGlue_whole (h : Kept q) (hd : ipDone q = true)
    (hg : ipGlue q alloc = some (n, b)) : Whole q n b := by
  simp only [ipDone, Bool.and_eq_true, decide_eq_true_eq] at hd
  have hlen := h.len
  obtain ⟨f, hf, hfe⟩ := h.reached.resolve_left hd.1
  unfold ipGlue at hg
  split_ifs at hg with hbad
  push Not at hbad
  obtain ⟨⟨c, b'⟩, hr, heq⟩ := Option.map_eq_some_iff.mp hg
  cases heq
  obtain ⟨E, rfl, h0, hends, hlast, hwrites, hlow, hbytes⟩ :=
    glueLoop_spec h.laid hd.2 (fun g hg => (h.laid.sizes g hg).2) (add_zero (q.ihlen : ℤ)).symm hr
  obtain ⟨hle, g, hgl, rfl⟩ := hlast (ne_nil_of_mem hf)
  have hfE := hends f hf
  have hbound := h.bound g hgl
  have hE : g.endOff = q.len := by omega
  rw [hE] at hwrites hbytes
  rw [hE]
  rw [add_zero] at hwrites hlow
  refine ⟨fun r hr => ?_, fun x h1 h2 => ?_, ⟨by omega, by omega⟩, fun x h1 h2 => ?_⟩
  · obtain hr | hr := hwrites r hr
    · obtain rfl : r = (0, (q.ihlen : ℤ)) := by simpa [Buf.memcpy] using hr
      exact ⟨le_rfl, by dsimp only; omega⟩
    · exact ⟨by omega, hr.2⟩
  · rw [hlow x h2]
    simp [Buf.memcpy, h1, h2]
  · by_cases hx : x < q.ihlen
    · rw [hlow x hx]
      simp [Buf.memcpy, h1, hx]
    · obtain ⟨f, -, -, hb⟩ := hbytes (x - q.ihlen) (by omega) (by omega)
      rw [add_sub_cancel] at hb
      simp [hb]

theorem trimmed_of_mem (h : Laid l) {f : Frag} (hf : f ∈ l) :
    f.endOff ≤ e ∨ ∃ g ∈ trimmed e l, g.endOff = f.endOff ∧ g.offset ≤ max f.offset e := by
  induction l with
  | nil => cases hf
  | cons g l ih =>
    unfold trimmed
    split_ifs with ho he
    · exact .inr ⟨f, hf, rfl, le_max_left _ _⟩
    · obtain rfl | hf := mem_cons.mp hf
      · exact .inl he
      · exact ih h.tail hf
    · obtain rfl | hf := mem_cons.mp hf
      · exact .inr ⟨_, mem_cons_self, rfl, by simp [Frag.cut]⟩
      · exact .inr ⟨f, mem_cons_of_mem _ hf, rfl, le_max_left _ _⟩

theorem Kept.remember (h : Kept q) (p : Packet) : Kept (q.remember p) := by
  unfold Ipq.remember
  split
  · exact { h with }
  · exact h

theorem mem_trimmed_of_behind {f : Frag} (hf : f ∈ l) (hoff : e ≤ f.offset) : f ∈ trimmed e l := by
  induction l with
  | nil => cases hf
  | cons g l ih =>
    unfold trimmed
    split_ifs with ho he
    · exact hf
    all_goals
      obtain rfl | hf := mem_cons.mp hf
      · exact absurd hoff ho
    · exact ih hf
    · exact mem_cons_of_mem _ hf

/-- An entry that a new fragment leaves in the list, though it may lose bytes in front: one that starts before the fragment, or
ends behind it, or starts behind it. -/
def Frag.Stays (p : Packet) (f : Frag) : Prop := f.offset < p.offset ∨ p.endOff < f.endOff ∨ p.endOff ≤ f.offset

/-- The length with a new fragment is reached by an entry that stays. -/
def Ipq.StaysReached (q : Ipq) (p : Packet) : Prop :=
  (if p.mf then q.len else p.endOff) = 0 ∨
    ∃ f ∈ q.fragments, f.Stays p ∧ (if p.mf then q.len else p.endOff) ≤ f.endOff

/-- What has to hold of a fragment for its queue: a last one does not end before the datagram begins, and if there is no
storage for the fragment, an entry that stays reaches the length. -/
def Ipq.Keeps (q : Ipq) (p : Packet) (a : Alloc) : Prop :=
  (p.mf = false → 0 ≤ p.endOff) ∧ (a.frag = false → p.totLen + p.offset ≤ 65535 → q.StaysReached p)

theorem Laid.reached_add_false (hlaid : Laid q.fragments) (h : q.StaysReached p) : (q.add p false).Reached := by
  have heq := hlaid.insert_eq p false
  obtain h0 | ⟨f, hf, hstays, hlen⟩ := h
  · exact .inl h0
  suffices ∃ g ∈ (q.add p false).fragments, g.endOff = f.endOff by
    obtain ⟨g, hg, hge⟩ := this
    exact .inr ⟨g, hg, hlen.trans hge.ge⟩
  rw [← before_append_after q.fragments p.offset, mem_append] at hf
  obtain hf | hf := hf
  · exact ⟨f, by simp [Ipq.add, heq, hf], rfl⟩
  obtain hlt | hlt | hle := hstays
  · exact absurd hlt (hlaid.le_after hf).not_gt
  · obtain he | ⟨g, hg, hge, -⟩ := trimmed_of_mem (e := p.endOff) (hlaid.of_after p.offset) hf
    · omega
    · exact ⟨g, by simp [Ipq.add, heq, hg], hge⟩
  · exact ⟨f, by simp [Ipq.add, heq, mem_trimmed_of_behind hf hle], rfl⟩

theorem Kept.add (h : Kept q) (hsize : p.totLen + p.offset ≤ 65535) (hlast : p.mf = false → 0 ≤ p.endOff)
    (hfail : alloc = false → q.StaysReached p) : Kept (q.add p alloc) := by
  have heq := h.laid.insert_eq p alloc
  have hafter : ∀ f ∈ after q.fragments p.offset, f ∈ q.fragments := fun f hf => (dropWhile_sublist _).subset hf
  have hl := before_append_after q.fragments p.offset
  have hla := h.laid.of_after p.offset
  refine ⟨h.laid.of_insert p alloc, ?_, ?_, ?_⟩
  · intro f hf
    simp only [Ipq.add, heq, mem_append] at hf
    obtain (hf | hf) | hf := hf
    · exact h.bound f ((takeWhile_sublist _).subset hf)
    · cases alloc with
      | false => cases hf
      | true =>
        rw [mem_singleton.mp hf]
        simp only [Packet.frag, Packet.endOff]
        omega
    · obtain ⟨g, hg, -, hge⟩ := endOff_of_mem_trimmed hla hf
      rw [hge]
      exact h.bound g (hafter g hg)
  · have := h.len
    simp only [Ipq.add]
    split_ifs with hm
    · exact this
    · exact hlast (by simpa using hm)
  · cases alloc with
    | false => exact h.laid.reached_add_false (hfail rfl)
    | true =>
      have hnew : p.frag (overlap q.fragments p) ∈ (q.add p true).fragments := by simp [Ipq.add, heq]
      by_cases hm : p.mf = true
      · have hqlen : (q.add p true).len = q.len := by simp [Ipq.add, hm]
        obtain h0 | ⟨f, hf, hfe⟩ := h.reached
        · exact .inl (hqlen.trans h0)
        refine .inr ?_
        rw [hqlen]
        rw [← hl, mem_append] at hf
        obtain hf | hf := hf
        · exact ⟨f, by simp [Ipq.add, heq, hf], hfe⟩
        · obtain he | ⟨g, hg, hge, -⟩ := trimmed_of_mem (e := p.endOff) hla hf
          · exact ⟨_, hnew, hfe.trans he⟩
          · exact ⟨g, by simp [Ipq.add, heq, hg], hfe.trans hge.ge⟩
      · exact .inr ⟨_, hnew, by simp [Ipq.add, hm, Packet.frag]⟩

theorem kept_receive (h : Kept q) (hk : q.Keeps p a) (hq : q' ∈ (receive q p a).2.1) : Kept q' := by
  obtain ⟨-, q₁, rfl, rfl | ⟨hsize, rfl⟩⟩ := receive_queue hq
  · obtain ⟨h1, h2, h3, h4⟩ := h.remember p
    exact ⟨h1, h2, h3, h4⟩
  · have hkeep : a.frag = false → (q.remember p).StaysReached p := fun ha => by
      have := hk.2 ha hsize
      unfold Ipq.remember
      split <;> exact this
    obtain ⟨h1, h2, h3, h4⟩ := (h.remember p).add hsize hk.1 hkeep
    exact ⟨h1, h2, h3, h4⟩

/-- The condition on a step, for the queue that `ip_defrag` finds when `ip_evictor` has made room. -/
def StepKeeps (w : World) (x : Op × ℕ) : Prop := ∀ p a high low w₁, x.1 = .defrag p a high low →
  w.enter high low x.2 = some w₁ → (w₁.queueOf p).Keeps p a

theorem Sound.kept_queueOf (h : Sound Kept w) (p : Packet) : Kept (w.queueOf p) :=
  h.queueOf p ⟨laid_create p, by simp [ipCreate], le_rfl, .inl rfl⟩ fun _ h => { h with }

theorem kept_of_reaches (hr : ReachesBy step StepKeeps boot w) : Sound Kept w := by
  refine ReachesBy.invariant (I := Sound Kept) hr sound_boot ?_
  intro w x w' hw hc hs
  refine hw.step hs fun p a high low w₁ hx hw₁ hsound => ?_
  have hq := hsound.kept_queueOf p
  exact ⟨hq.laid, fun _ => kept_receive hq (hc p a high low w₁ hx hw₁)⟩

/-- **Hostile fragments.**  If every step meets the condition, a datagram that `ip_defrag` returns from a queue is
whole. -/
theorem whole_of_kept {high low : ℤ} {fuel : ℕ} (h0 : 0 ≤ low) (hr : ReachesBy step StepKeeps boot w)
    (hc : StepKeeps w (.defrag p a high low, fuel)) (hw : w.enter high low fuel = some w₁) {n : ℤ} {b : Buf}
    (hout : (w₁.ipDefrag p a).1 = .glued q n b) : Whole q n b := by
  have hq := ((kept_of_reaches hr).enter h0 hw).kept_queueOf p
  obtain ⟨hlast, -⟩ := hc p a high low w₁ rfl hw
  obtain ⟨hsize, rfl, hd, hg⟩ := receive_glued (ipDefrag_glued hout)
  exact ipGlue_whole ((hq.remember p).add hsize hlast (by simp)) hd hg

theorem stepKeeps_of_frag {h l : ℤ} {fuel : ℕ} (ha : a.frag = true) (hp : p.mf = false → 0 ≤ p.endOff) :
    StepKeeps w (.defrag p a h l, fuel) := by
  rintro _ _ _ _ _ ⟨⟩ -
  exact ⟨hp, fun h => by rw [ha] at h; cases h⟩

/-- Two fragments give a datagram of 36 bytes. -/
theorem whole_of_kept_two : ∃ w q n b, ReachesBy step StepKeeps boot w ∧
    (w.ipDefrag (sample 8 28 20 false) granted).1 = .glued q n b ∧ n = 36 ∧ Whole q n b := by
  have hr : ReachesBy step StepKeeps boot _ := (ReachesBy.refl _).tail
    (a := (.defrag (sample 0 28 20 true) granted 262144 196608, 0)) (stepKeeps_of_frag rfl (by decide)) rfl
  have hwhole := whole_of_kept (by decide) hr (p := sample 8 28 20 false) (a := granted)
    (show StepKeeps _ (_, 0) from stepKeeps_of_frag (h := 262144) (l := 196608) rfl (by decide)) rfl rfl
  exact ⟨_, _, _, _, hr, rfl, hwhole.totLen.1.trans (by decide), hwhole⟩

/-- **Datagrams that are not whole.** A last fragment whose header is longer than the packet makes the length of the datagram
-12. And if there is no storage for the last fragment the first one is returned as the datagram. -/
theorem glued_not_whole :
    (∃ w q n b, Reaches step boot w ∧ w.mem ≤ 262144 ∧ (w.ipDefrag (sample 0 36 20 true) granted).1 = .glued q n b ∧
      q.ihlen + q.len = -12 ∧ (0, 20) ∈ b.writes ∧ n = 36) ∧
    ∃ w q n b, Reaches step boot w ∧ w.mem ≤ 262144 ∧ (w.ipDefrag (sample 0 28 20 true) granted).1 = .glued q n b ∧
      q.ihlen + q.len = 36 ∧ n = 28 ∧ b.bytes 28 = none :=
  ⟨⟨_, _, _, _, .of_exec [(.defrag (sample 8 20 60 false) granted 262144 196608, 0)] _ _ rfl, by decide, rfl,
      by decide, by decide, by decide⟩,
    _, _, _, _, .of_exec [(.defrag (sample 8 28 20 false) { granted with frag := false } 262144 196608, 0)] _ _ rfl,
      by decide, rfl, by decide, by decide, by decide⟩

/-! ### The fragments of one datagram -/

def Packet.Covers (p : Packet) (x : ℤ) : Prop := p.offset ≤ x ∧ x < p.endOff

/-- A fragment of the datagram with the payload `D` of `N` bytes. -/
structure IsFragment (D : ℤ → Byte) (N : ℕ) (k : Key) (p : Packet) : Prop where
  key : p.key = k
  aligned : 8 ∣ p.offset
  pos : p.ihl < p.totLen
  le : p.endOff ≤ N
  last : p.mf = false ↔ p.endOff = N
  size : p.ihl + N ≤ 65535
  bytes : ∀ x, p.Covers x → p.data (x - p.offset) = D x

def Complete (N : ℕ) (seen : List Packet) : Prop := ∀ x : ℤ, 0 ≤ x → x < N → ∃ p ∈ seen, p.Covers x

/-- The queue holds the bytes of the packets seen. -/
structure Good (D : ℤ → Byte) (N : ℕ) (seen : List Packet) (q : Ipq) : Prop where
  laid : Laid q.fragments
  pos : ∀ f ∈ q.fragments, f.offset < f.endOff ∧ f.endOff ≤ N
  agree : ∀ f ∈ q.fragments, ∀ x, f.Covers x → f.byte x = D x
  covers : ∀ x, (∃ f ∈ q.fragments, f.Covers x) ↔ ∃ p ∈ seen, p.Covers x
  open_ : (∀ p ∈ seen, p.mf = true) → q.len = 0
  last : ∀ p ∈ seen, p.mf = false → q.len = N
  ihlen : q.ihlen + N ≤ 65535

/-- The fragment does not lie inside the one before it. -/
def Ipq.Proper (q : Ipq) (p : Packet) : Prop :=
  ∀ prev, (before q.fragments p.offset).getLast? = some prev → prev.endOff < p.endOff

variable {D : ℤ → Byte} {N : ℕ} {k : Key} {seen : List Packet}

theorem IsFragment.offset_lt (hp : IsFragment D N k p) : p.offset < p.endOff := by
  have := hp.pos
  unfold Packet.endOff
  omega

theorem overlap_covered (hp : p.offset < p.endOff) (hprop : q.Proper p) :
    p.offset + overlap q.fragments p < p.endOff ∧
      ∀ x : ℤ, p.offset ≤ x → x < p.offset + overlap q.fragments p → ∃ f ∈ before q.fragments p.offset, f.Covers x := by
  unfold overlap
  cases hl : (before q.fragments p.offset).getLast? with
  | none => exact ⟨by simpa using hp, fun x h₁ h₂ => by simp at h₂; omega⟩
  | some prev =>
    have hmem := mem_of_getLast? hl
    have hlt : prev.offset < p.offset := by simpa using all_eq_true.mp all_takeWhile prev hmem
    have hend := hprop prev hl
    dsimp only
    split_ifs with ho
    · exact ⟨by omega, fun x h₁ h₂ => ⟨prev, hmem, by omega, by omega⟩⟩
    · exact ⟨by omega, fun x h₁ h₂ => by omega⟩

theorem Good.remember (h : Good D N seen q) (hp : IsFragment D N k p) : Good D N seen (q.remember p) := by
  unfold Ipq.remember
  split
  · exact { h with ihlen := hp.size }
  · exact h

theorem Good.add (h : Good D N seen q) (hp : IsFragment D N k p) (hprop : q.Proper p) :
    Good D N (p :: seen) (q.add p true) := by
  have hfrag : (q.add p true).fragments = before q.fragments p.offset ++ p.frag (overlap q.fragments p) ::
      trimmed p.endOff (after q.fragments p.offset) := by simp [Ipq.add, h.laid.insert_eq]
  obtain ⟨hi, hover⟩ := overlap_covered hp.offset_lt hprop
  have h0 := (h.laid.overlap_spec p).1
  have hl := before_append_after q.fragments p.offset
  have hla := h.laid.of_after p.offset
  have hbefore : ∀ f ∈ before q.fragments p.offset, f ∈ q.fragments := fun f hf => (takeWhile_sublist _).subset hf
  have hafter : ∀ f ∈ after q.fragments p.offset, f ∈ q.fragments := fun f hf => (dropWhile_sublist _).subset hf
  -- what is left of the succeeding fragments has their bytes
  have htrim : ∀ g ∈ trimmed p.endOff (after q.fragments p.offset), ∃ f ∈ q.fragments, f.offset ≤ g.offset ∧
      g.offset < g.endOff ∧ g.endOff = f.endOff ∧ ∀ x, g.byte x = f.byte x := by
    intro g hg
    obtain ⟨-, f, hf, hle, rfl | ⟨hlt, rfl⟩⟩ := mem_trimmed hla hg
    · exact ⟨g, hafter g hf, hle, (h.pos g (hafter g hf)).1, rfl, fun _ => rfl⟩
    · refine ⟨f, hafter f hf, hle, by simp only [Frag.cut]; omega, rfl, fun x => ?_⟩
      simp only [Frag.byte, Frag.cut]
      congr 1
      omega
  refine ⟨h.laid.of_insert p true, ?_, ?_, fun x => ⟨?_, ?_⟩, fun hm => ?_, fun r hr hm => ?_, h.ihlen⟩
  · rw [hfrag]
    intro f hf
    obtain hf | hf := mem_append.mp hf
    · exact h.pos f (hbefore f hf)
    · obtain rfl | hf := mem_cons.mp hf
      · exact ⟨hi, hp.le⟩
      · obtain ⟨g, hg, -, hlt, hge, -⟩ := htrim f hf
        exact ⟨hlt, hge ▸ (h.pos g hg).2⟩
  · rw [hfrag]
    intro f hf x hx
    obtain hf | hf := mem_append.mp hf
    · exact h.agree f (hbefore f hf) x hx
    obtain rfl | hf := mem_cons.mp hf
    · rw [← hp.bytes x ⟨by simp only [Frag.Covers, Packet.frag] at hx; omega, hx.2⟩]
      simp only [Frag.byte, Packet.frag]
      congr 1
      omega
    · obtain ⟨g, hg, hle, -, hge, hb⟩ := htrim f hf
      rw [hb]
      exact h.agree g hg x ⟨hle.trans hx.1, hge ▸ hx.2⟩
  · rintro ⟨f, hf, hx⟩
    rw [hfrag] at hf
    have hold : ∀ g ∈ q.fragments, g.Covers x → ∃ r ∈ p :: seen, r.Covers x := fun g hg hgx => by
      obtain ⟨r, hr, hrx⟩ := (h.covers x).mp ⟨g, hg, hgx⟩
      exact ⟨r, mem_cons_of_mem p hr, hrx⟩
    obtain hf | hf := mem_append.mp hf
    · exact hold f (hbefore f hf) hx
    · obtain rfl | hf := mem_cons.mp hf
      · exact ⟨p, mem_cons_self, by simp only [Frag.Covers, Packet.frag] at hx; exact ⟨by omega, hx.2⟩⟩
      · obtain ⟨g, hg, hle, -, hge, -⟩ := htrim f hf
        exact hold g hg ⟨hle.trans hx.1, hge ▸ hx.2⟩
  · -- a place that the new fragment has lost is in the preceding one
    have hnew : p.Covers x → ∃ f ∈ (q.add p true).fragments, f.Covers x := by
      rintro ⟨h₁, h₂⟩
      rw [hfrag]
      by_cases hx : x < p.offset + overlap q.fragments p
      · obtain ⟨f, hf, hfx⟩ := hover x h₁ hx
        exact ⟨f, by simp [hf], hfx⟩
      · exact ⟨p.frag (overlap q.fragments p), by simp, not_lt.mp hx, h₂⟩
    rintro ⟨r, hr, hrx⟩
    obtain rfl | hr := mem_cons.mp hr
    · exact hnew hrx
    obtain ⟨f, hf, hfx⟩ := (h.covers x).mpr ⟨r, hr, hrx⟩
    rw [← hl, mem_append] at hf
    obtain hf | hf := hf
    · exact ⟨f, by simp [hfrag, hf], hfx⟩
    by_cases hx : x < p.endOff
    · exact hnew ⟨(h.laid.le_after hf).trans hfx.1, hx⟩
    obtain he | ⟨g, hg, hge, hgo⟩ := trimmed_of_mem (e := p.endOff) hla hf
    · have := hfx.2
      omega
    · refine ⟨g, by simp [hfrag, hg], ?_, hge ▸ hfx.2⟩
      have := hfx.1
      omega
  · rw [forall_mem_cons] at hm
    simp [Ipq.add, hm.1, h.open_ hm.2]
  · by_cases hpm : p.mf = true
    · obtain rfl | hr := mem_cons.mp hr
      · rw [hpm] at hm
        cases hm
      · simpa [Ipq.add, hpm] using h.last r hr hm
    · simpa [Ipq.add, hpm] using hp.last.mp (by simpa using hpm)

theorem connects_iff (h : Laid l) (hpos : ∀ f ∈ l, f.offset < f.endOff) (ho : ∀ f ∈ l, o ≤ f.offset) :
    connects o l = true ↔ ∀ x, o ≤ x → (∃ f ∈ l, x < f.endOff) → ∃ f ∈ l, f.Covers x := by
  induction l generalizing o with
  | nil => simp [connects]
  | cons f l ih =>
    have hf := hpos f mem_cons_self
    have hnext : ∀ g ∈ l, f.endOff ≤ g.offset := fun g hg => (rel_of_pairwise_cons h.sorted hg).2
    have hl := ih h.tail (fun g hg => hpos g (mem_cons_of_mem f hg)) hnext
    simp only [connects, Bool.and_eq_true, Bool.not_eq_true', decide_eq_false_iff_not, not_lt, hl]
    constructor
    · rintro ⟨hle, hrest⟩ x hx ⟨g, hg, hgx⟩
      by_cases hfx : x < f.endOff
      · exact ⟨f, mem_cons_self, hle.trans hx, hfx⟩
      · obtain rfl | hg := mem_cons.mp hg
        · omega
        · obtain ⟨g', hg', hx'⟩ := hrest x (by omega) ⟨g, hg, hgx⟩
          exact ⟨g', mem_cons_of_mem f hg', hx'⟩
    · refine fun hall => ⟨?_, fun x hx => ?_⟩
      · obtain ⟨g, hg, hgo, -⟩ := hall o le_rfl ⟨f, mem_cons_self, by have := ho f mem_cons_self; omega⟩
        obtain rfl | hg := mem_cons.mp hg
        · exact hgo
        · have := hnext g hg
          omega
      · rintro ⟨g, hg, hgx⟩
        have := ho f mem_cons_self
        obtain ⟨g', hg', hx'⟩ := hall x (by omega) ⟨g, mem_cons_of_mem f hg, hgx⟩
        obtain rfl | hg' := mem_cons.mp hg'
        · have := hx'.2
          omega
        · exact ⟨g', hg', hx'⟩

theorem Good.ipDone_iff (h : Good D N seen q) (hN : 0 < N) (hs : ∀ p ∈ seen, IsFragment D N k p) :
    ipDone q = true ↔ Complete N seen := by
  have hconn := connects_iff h.laid (fun f hf => (h.pos f hf).1) fun f hf => (h.laid.sizes f hf).2
  simp only [ipDone, Bool.and_eq_true, decide_eq_true_eq, hconn]
  constructor
  · rintro ⟨hlen, hall⟩ x h₁ h₂
    have : ∃ p ∈ seen, p.mf = false := by
      by_contra hno
      push Not at hno
      exact hlen (h.open_ fun p hp => by simpa using hno p hp)
    obtain ⟨p, hp, hm⟩ := this
    have hend := (hs p hp).last.mp hm
    have hlt := (hs p hp).offset_lt
    obtain ⟨f, hf, hfx⟩ := (h.covers (N - 1)).mpr ⟨p, hp, by omega, by omega⟩
    exact (h.covers x).mp (hall x h₁ ⟨f, hf, by have := hfx.2; omega⟩)
  · intro hall
    refine ⟨?_, fun x hx => ?_⟩
    · obtain ⟨p, hp, hpx⟩ := hall (N - 1) (by omega) (by omega)
      have hend : p.endOff = N := le_antisymm (hs p hp).le (by have := hpx.2; omega)
      have := h.last p hp ((hs p hp).last.mpr hend)
      omega
    · rintro ⟨f, hf, hfx⟩
      exact (h.covers x).mpr (hall x hx (hfx.trans_le (h.pos f hf).2))

theorem glueLoop_isSome (h : Laid l) (hc : connects o l = true) (ho : ∀ f ∈ l, o ≤ f.offset)
    (hpos : ∀ f ∈ l, f.offset < f.endOff ∧ f.endOff ≤ N) (h0 : 0 ≤ ihlen)
    (h0o : 0 ≤ o) (hN : ihlen + N ≤ 65535) (hcount : count = ihlen + o) :
    (glueLoop ihlen (ihlen + N) l count b).isSome := by
  induction l generalizing o b count with
  | nil => rfl
  | cons f l ih =>
    obtain ⟨hlen, -⟩ := h.sizes f mem_cons_self
    obtain ⟨hf, hfN⟩ := hpos f mem_cons_self
    simp only [connects, Bool.and_eq_true, Bool.not_eq_true', decide_eq_false_iff_not, not_lt] at hc
    obtain rfl : f.offset = o := le_antisymm hc.1 (ho f mem_cons_self)
    unfold glueLoop
    rw [if_neg (by omega)]
    exact ih h.tail hc.2 (fun g hg => (rel_of_pairwise_cons h.sorted hg).2)
      (fun g hg => hpos g (mem_cons_of_mem f hg)) (by omega) (by omega)

/-- What `ip_defrag` returns for the last fragment that was missing: the datagram. -/
def Returns (D : ℤ → Byte) (N : ℕ) (p : Packet) : Out → Prop
  | .null => False
  | .same => p.endOff = N ∧ ∀ x : ℤ, 0 ≤ x → x < N → p.data x = D x
  | .glued q n b => n = q.ihlen + N ∧ ∀ x : ℤ, 0 ≤ x → x < N → b.bytes (q.ihlen + x) = some (D x)

section

variable (h : Good D N seen q) (hN : 0 < N) (hs : ∀ p ∈ seen, IsFragment D N k p)
include h hN hs

theorem Good.ipGlue (hd : ipDone q = true) :
    ∃ g, ipGlue q true = some g ∧ Returns D N p (.glued q g.1 g.2) := by
  have hall := (h.ipDone_iff hN hs).mp hd
  simp only [ipDone, Bool.and_eq_true, decide_eq_true_eq] at hd
  have hlen : q.len = N := by
    obtain ⟨p, hp, hpx⟩ := hall (N - 1) (by omega) (by omega)
    exact h.last p hp ((hs p hp).last.mpr (le_antisymm (hs p hp).le (by have := hpx.2; omega)))
  have ho : ∀ f ∈ q.fragments, 0 ≤ f.offset := fun f hf => (h.laid.sizes f hf).2
  have hihlen := h.ihlen
  have hzero : (q.ihlen : ℤ) = q.ihlen + 0 := (add_zero _).symm
  obtain ⟨⟨c, b⟩, hr⟩ := Option.isSome_iff_exists.mp <| glueLoop_isSome (N := N)
    (b := (⟨fun _ => none, []⟩ : Buf).memcpy 0 q.ihlen q.iph) h.laid hd.2 ho h.pos (Int.natCast_nonneg q.ihlen) le_rfl
    (by omega) hzero
  obtain ⟨E, rfl, -, hends, hlast, -, -, hbytes⟩ := glueLoop_spec h.laid hd.2 ho hzero hr
  obtain ⟨f, hf, hfx⟩ := (h.covers (N - 1)).mpr (hall (N - 1) (by omega) (by omega))
  obtain ⟨-, g, hg, rfl⟩ := hlast (ne_nil_of_mem hf)
  have hE : g.endOff = N := by
    have := hends f hf
    have := hfx.2
    have := (h.pos g hg).2
    omega
  refine ⟨((q.ihlen + g.endOff) % 65536, b), ?_, ?_, fun x h₁ h₂ => ?_⟩
  · unfold IpFragment.ipGlue
    rw [if_neg (by simp; omega), hlen, hr]
    rfl
  · omega
  · obtain ⟨f', hf', hx, hb⟩ := hbytes x h₁ (by omega)
    rw [hb, h.agree f' hf' x hx]

theorem Good.receive (hp : IsFragment D N k p) (hprop : q.Proper p) :
    (Complete N (p :: seen) ∧ Returns D N p (receive q p granted).1) ∨
      ¬ Complete N (p :: seen) ∧ (receive q p granted).1 = .null ∧
        ∃ q', (receive q p granted).2.1 = some q' ∧ q'.key = q.key ∧ Good D N (p :: seen) q' := by
  have hq := (h.remember hp).add hp (p := p) (by simpa [Ipq.Proper] using hprop)
  have hs' : ∀ r ∈ p :: seen, IsFragment D N k r := forall_mem_cons.mpr ⟨hp, hs⟩
  have hdone := hq.ipDone_iff hN hs'
  have hsize : ¬ p.totLen + p.offset > 65535 := by
    have hle := hp.le
    have := hp.size
    unfold Packet.endOff at hle
    omega
  unfold IpFragment.receive
  rw [if_neg hsize, if_neg (show ¬ granted.frag = false from nofun)]
  split_ifs with h1 h2
  · have hend := hp.last.mp h1.2
    refine .inl ⟨fun x h₁ h₂ => ⟨p, mem_cons_self, by omega, by omega⟩, hend, fun x h₁ h₂ => ?_⟩
    have := hp.bytes x ⟨by omega, by omega⟩
    rwa [h1.1, Nat.cast_zero, sub_zero] at this
  · obtain ⟨g, hg, hret⟩ := hq.ipGlue (p := p) hN hs' h2
    dsimp only [granted]
    rw [hg]
    exact .inl ⟨hdone.mp h2, hret⟩
  · refine .inr ⟨fun hc => h2 (hdone.mpr hc), rfl, _, rfl, ?_, ?_⟩
    · simp only [Ipq.add, Ipq.remember]
      split <;> rfl
    · exact { hq with }

end

theorem find?_replace {L : List Ipq} (h : (L.find? fun q => q.key = k).isSome) (hk : q'.key = k) :
    (replace k (some q') L).find? (fun q => q.key = k) = some q' := by
  induction L with
  | nil => cases h
  | cons q L ih =>
    unfold replace
    by_cases hq : q.key = k
    · simp [hq, hk]
    · simp only [hq, List.find?_cons, decide_false, if_false] at h ⊢
      exact ih h

theorem ipDefrag_granted (w : World) (p : Packet) :
    (w.ipDefrag p granted).1 = (IpFragment.receive (w.queueOf p) p granted).1 ∧
      ∀ q', (IpFragment.receive (w.queueOf p) p granted).2.1 = some q' → q'.key = p.key →
        (w.ipDefrag p granted).2.ipFind p.key = some q' := by
  unfold World.ipDefrag World.queueOf
  cases hf : w.ipFind p.key with
  | some q =>
    refine ⟨rfl, fun q' hq' hk => ?_⟩
    rw [Option.elim_some] at hq'
    simp only [World.setBucket, World.ipFind, Function.update_self, hq']
    exact find?_replace (Option.isSome_iff_exists.mpr ⟨q, hf⟩) hk
  | none =>
    rw [Option.elim_none]
    split_ifs with h1
    · simp [IpFragment.receive, h1]
    · simp_all [granted]
    · refine ⟨rfl, fun q' hq' hk => ?_⟩
      simp [World.setBucket, World.ipFind, hq', hk]

/-- A fragment arrives, while the memory is below the threshold; with the fragments that have arrived. -/
def arrive (s : World × List Packet) (p : Packet) : Option (World × List Packet) :=
  some ((s.1.ipDefrag p granted).2, p :: s.2)

/-- The condition: a fragment of the datagram arrives while it is not complete, and does not lie inside the
fragment before it. -/
def Arrives (D : ℤ → Byte) (N : ℕ) (k : Key) (s : World × List Packet) (p : Packet) : Prop :=
  IsFragment D N k p ∧ ¬ Complete N s.2 ∧ (s.1.queueOf p).Proper p

/-- The list is sorted, the fragments are disjoint, and none is empty. -/
def Orderly (l : List Frag) : Prop :=
  l.Pairwise (fun f g => f.offset < g.offset ∧ f.endOff ≤ g.offset) ∧ ∀ f ∈ l, f.len = f.endOff - f.offset ∧ 0 < f.len

theorem Good.orderly (h : Good D N seen q) : Orderly q.fragments := by
  refine ⟨h.laid.sorted.imp_of_mem fun hf _ hfg => ⟨?_, hfg.2⟩, fun f hf => ?_⟩
  · exact (h.pos _ hf).1.trans_le hfg.2
  · have := (h.laid.sizes f hf).1
    have := (h.pos f hf).1
    exact ⟨by omega, by omega⟩

/-- The queue has what was seen. -/
structure Collects (D : ℤ → Byte) (N : ℕ) (k : Key) (s : World × List Packet) : Prop where
  seen : ∀ p ∈ s.2, IsFragment D N k p
  queue : ¬ Complete N s.2 → (s.2 = [] ∧ s.1.ipFind k = none) ∨ ∃ q, s.1.ipFind k = some q ∧ Good D N s.2 q

theorem Collects.queueOf (h : Collects D N k s) (hc : ¬ Complete N s.2)
    (hp : IsFragment D N k p) : Good D N s.2 (s.1.queueOf p) ∧ (s.1.queueOf p).key = k := by
  unfold World.queueOf
  rw [hp.key]
  obtain ⟨hnil, hnone⟩ | ⟨q, hq, hgood⟩ := h.queue hc
  · rw [hnone, hnil]
    exact ⟨⟨laid_create p, by simp [ipCreate], by simp [ipCreate], by simp [ipCreate], fun _ => rfl, by simp, hp.size⟩,
      hp.key⟩
  · rw [hq]
    exact ⟨{ hgood with }, by simpa using List.find?_some hq⟩

theorem Collects.arrive (h : Collects D N k s) (hN : 0 < N) (hc : Arrives D N k s p) :
    Collects D N k ((s.1.ipDefrag p granted).2, p :: s.2) := by
  obtain ⟨hp, hnot, hprop⟩ := hc
  obtain ⟨hgood, hkey⟩ := h.queueOf hnot hp
  refine ⟨forall_mem_cons.mpr ⟨hp, h.seen⟩, fun hn => .inr ?_⟩
  obtain ⟨hcomplete, -⟩ | ⟨-, -, q', hq', hk', hgood'⟩ := hgood.receive hN h.seen hp hprop
  · exact absurd hcomplete hn
  · rw [← hp.key]
    exact ⟨q', (ipDefrag_granted s.1 p).2 q' hq' (by rw [hk', hkey, hp.key]), hgood'⟩

/-- **The reassembly returns the datagram.** In every run of fragments none of which lies inside the fragment before it in
the list, the list is orderly; nothing is returned before the payload is covered, and then the datagram is. -/
theorem returns_datagram (hN : 0 < N) {w₀ : World} (h0 : w₀.ipFind k = none)
    (hr : ReachesBy arrive (Arrives D N k) (w₀, []) (w, seen)) (hc : Arrives D N k (w, seen) p) :
    (∀ q, w.ipFind k = some q → Orderly q.fragments) ∧
      (Complete N (p :: seen) → Returns D N p (w.ipDefrag p granted).1) ∧
      (¬ Complete N (p :: seen) → (w.ipDefrag p granted).1 = .null) := by
  have hcol : Collects D N k (w, seen) := by
    refine ReachesBy.invariant (I := Collects D N k) hr ⟨by simp, fun _ => .inl ⟨rfl, h0⟩⟩ ?_
    intro s p t hs hc ht
    cases ht
    exact hs.arrive hN hc
  obtain ⟨hp, hnot, hprop⟩ := hc
  refine ⟨fun q hq => ?_, ?_⟩
  · obtain ⟨-, hnone⟩ | ⟨q', hq', hgood⟩ := hcol.queue hnot
    · rw [hq] at hnone
      cases hnone
    · rw [hq] at hq'
      cases hq'
      exact hgood.orderly
  · rw [(ipDefrag_granted w p).1]
    obtain ⟨hyes, hret⟩ | ⟨hno, hnull, -⟩ := (hcol.queueOf hnot hp).1.receive hN hcol.seen hp hprop
    · exact ⟨fun _ => hret, fun hno => absurd hyes hno⟩
    · exact ⟨fun hyes => absurd hyes hno, fun _ => hnull⟩

theorem isFragment_sample {o n : ℕ} {mf : Bool}
    (h : 8 ∣ o ∧ 0 < n ∧ o + n ≤ N ∧ (mf = false ↔ o + n = N) ∧ 20 + N ≤ 65535) :
    IsFragment (BitVec.ofInt 8) N ⟨1, 2, 3, 17⟩ (sample o (20 + n) 20 mf) := by
  obtain ⟨h8, hn, hle, hm, hN⟩ := h
  have hend : (sample o (20 + n) 20 mf).endOff = o + n := by
    simp only [Packet.endOff, sample]
    omega
  refine ⟨rfl, h8, by simpa [sample] using hn, by omega, ?_, hN, fun x _ => ?_⟩
  · rw [hend, show (sample o (20 + n) 20 mf).mf = mf from rfl, hm]
    omega
  · simp [sample]

/-- Two fragments give the datagram. -/
theorem returns_datagram_two : ∃ w, arrive (boot, []) (sample 0 28 20 true) = some w ∧
    Returns (BitVec.ofInt 8) 16 (sample 8 28 20 false) (w.1.ipDefrag (sample 8 28 20 false) granted).1 := by
  have hno : ∀ ps : List Packet, (∀ p ∈ ps, p.endOff ≤ 8) → ¬ Complete 16 ps := by
    intro ps hps hc
    obtain ⟨p, hp, hx⟩ := hc 8 (by decide) (by decide)
    have := hps p hp
    have := hx.2
    omega
  have hfirst : Arrives (BitVec.ofInt 8) 16 ⟨1, 2, 3, 17⟩ (boot, []) (sample 0 28 20 true) :=
    ⟨isFragment_sample (n := 8) (by decide), hno _ (by simp), nofun⟩
  have hlast : Arrives (BitVec.ofInt 8) 16 ⟨1, 2, 3, 17⟩ ((boot.ipDefrag (sample 0 28 20 true) granted).2,
      [sample 0 28 20 true]) (sample 8 28 20 false) := by
    refine ⟨isFragment_sample (n := 8) (by decide), hno _ ?_, ?_⟩
    · intro p hp
      rw [mem_singleton.mp hp]
      decide
    · rintro prev ⟨⟩
      decide
  refine ⟨_, rfl, (returns_datagram (by decide) rfl ((ReachesBy.refl _).tail hfirst rfl) hlast).2.1 ?_⟩
  intro x h₁ h₂
  by_cases hx : x < 8
  · exact ⟨sample 0 28 20 true, by simp, h₁, hx⟩
  · exact ⟨sample 8 28 20 false, by simp, by simpa [sample] using hx, h₂⟩

/-- **A fragment inside another one** is put behind it with the length -8, and the last fragment does not complete the
datagram. -/
theorem contained_fragment_stalls :
    (∀ p ∈ [sample 0 44 20 true, sample 24 28 20 true, sample 8 28 20 true, sample 32 28 20 false],
      IsFragment (BitVec.ofInt 8) 40 ⟨1, 2, 3, 17⟩ p) ∧
    Complete 40 [sample 0 44 20 true, sample 24 28 20 true, sample 8 28 20 true, sample 32 28 20 false] ∧
    ∃ s, exec arrive (fun _ _ => true) (boot, []) [sample 0 44 20 true, sample 24 28 20 true, sample 8 28 20 true] =
        some s ∧ (s.1.ipDefrag (sample 32 28 20 false) granted).1 = .null ∧
      ∃ q, s.1.ipFind ⟨1, 2, 3, 17⟩ = some q ∧ q.fragments.map Frag.len = [24, -8, 8] := by
  refine ⟨?_, fun x h₁ h₂ => ?_, _, rfl, rfl, _, rfl, by decide⟩
  · simp only [forall_mem_cons]
    exact ⟨isFragment_sample (n := 24) (by decide), isFragment_sample (n := 8) (by decide),
      isFragment_sample (n := 8) (by decide),
      isFragment_sample (n := 8) (by decide), by simp⟩
  · obtain hx | hx := lt_or_ge x 24
    · exact ⟨sample 0 44 20 true, by simp, h₁, hx⟩
    · obtain hx' | hx' := lt_or_ge x 32
      · exact ⟨sample 24 28 20 true, by simp, hx, hx'⟩
      · exact ⟨sample 32 28 20 false, by simp, hx', h₂⟩

end I370Linux.IpFragment
