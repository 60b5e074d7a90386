import I370Linux.Census
import I370Linux.IpFragment

/-! # The lists and the memory of the reassembly

Whatever fragments arrive, the list of a datagram is sorted and every fragment ends before the next one begins
(`Laid`), though a fragment may be empty or end before it begins.  So the loop over the succeeding
fragments never meets one that it has cut (`trimLoop_eq`), and `ip_frag_mem` is what is charged for the
queues in the table (`Sound`). -/

namespace I370Linux.IpFragment

open Runs List

/-! ### The list of a datagram -/

/-- The fragments are in order, without overlap. -/
structure Laid (l : List Frag) : Prop where
  sorted : l.Pairwise fun f g => f.offset ≤ g.offset ∧ f.endOff ≤ g.offset
  sizes : ∀ f ∈ l, f.len = f.endOff - f.offset ∧ 0 ≤ f.offset

/-- What the loop over the succeeding fragments leaves of them. -/
def trimmed (e : ℤ) : List Frag → List Frag
  | [] => []
  | f :: l =>
    if f.offset ≥ e then f :: l
    else if f.endOff ≤ e then trimmed e l
    else f.cut (e - f.offset) :: l

variable {l l₁ l₂ : List Frag} {e : ℤ} {f g : Frag} {p : Packet}

theorem Laid.tail (h : Laid (f :: l)) : Laid l :=
  ⟨h.sorted.tail, fun g hg => h.sizes g (mem_cons_of_mem f hg)⟩

theorem laid_append : Laid (l₁ ++ l₂) ↔
    Laid l₁ ∧ Laid l₂ ∧ ∀ f ∈ l₁, ∀ g ∈ l₂, f.offset ≤ g.offset ∧ f.endOff ≤ g.offset := by
  constructor
  · intro h
    obtain ⟨h₁, h₂, h₃⟩ := pairwise_append.mp h.sorted
    exact ⟨⟨h₁, fun f hf => h.sizes f (by simp [hf])⟩, ⟨h₂, fun f hf => h.sizes f (by simp [hf])⟩, h₃⟩
  · rintro ⟨h₁, h₂, h₃⟩
    refine ⟨pairwise_append.mpr ⟨h₁.sorted, h₂.sorted, h₃⟩, fun f hf => ?_⟩
    obtain hf | hf := mem_append.mp hf
    · exact h₁.sizes f hf
    · exact h₂.sizes f hf

theorem charges_append : charges (l₁ ++ l₂) = charges l₁ + charges l₂ := by simp [charges]

theorem charges_cons : charges (f :: l) = f.charge + charges l := by simp [charges]

/-- The loop cuts off what the new fragment has, and loses nothing else. -/
theorem trimLoop_eq (h : Laid l) (freed : ℤ) :
    trimLoop e [] [] freed l = ([], trimmed e l, freed + (charges l - charges (trimmed e l))) := by
  induction l generalizing freed with
  | nil => simp [trimLoop, trimmed]
  | cons f l ih =>
    have hlen := (h.sizes f mem_cons_self).1
    unfold trimLoop trimmed
    by_cases ho : f.offset ≥ e
    · simp [ho]
    by_cases he : f.endOff ≤ e
    · have hcut : (f.cut (e - f.offset)).len ≤ 0 := by
        simp only [Frag.cut]
        omega
      simp only [ho, he, hcut, if_true, if_false, List.head?_nil, Option.getD_none, append_nil, ih h.tail,
        charges_cons]
      congr 2
      ring
    · have hcut : ¬ (f.cut (e - f.offset)).len ≤ 0 := by
        simp only [Frag.cut]
        omega
      simp only [ho, he, hcut, if_false, List.head?_nil, Option.getD_none, nil_append]
      -- the next fragment begins behind the end of this one
      have hstop : trimLoop e [] [f.cut (e - f.offset)] freed l = ([], f.cut (e - f.offset) :: l, freed) := by
        cases l with
        | nil => rfl
        | cons g l =>
          have hg := (rel_of_pairwise_cons h.sorted (mem_cons_self (a := g))).2
          have hge : g.offset ≥ e := by omega
          simp [trimLoop, hge]
      rw [hstop]
      simp [charges, Frag.charge, Frag.cut]

theorem mem_trimmed (h : Laid l) (hg : g ∈ trimmed e l) : e ≤ g.offset ∧
    ∃ f ∈ l, f.offset ≤ g.offset ∧ (g = f ∨ e < f.endOff ∧ g = f.cut (e - f.offset)) := by
  induction l with
  | nil => cases hg
  | cons f l ih =>
    unfold trimmed at hg
    split_ifs at hg with ho he
    · refine ⟨?_, g, hg, le_rfl, .inl rfl⟩
      obtain rfl | hg := mem_cons.mp hg
      · exact ho
      · exact ho.trans (rel_of_pairwise_cons h.sorted hg).1
    · obtain ⟨hle, f', hf', hrest⟩ := ih h.tail hg
      exact ⟨hle, f', mem_cons_of_mem f hf', hrest⟩
    · obtain rfl | hg := mem_cons.mp hg
      · refine ⟨by simp [Frag.cut], f, mem_cons_self, ?_, .inr ⟨by omega, rfl⟩⟩
        simp only [Frag.cut]
        omega
      · have hrel := (rel_of_pairwise_cons h.sorted hg).2
        exact ⟨by omega, g, mem_cons_of_mem f hg, le_rfl, .inl rfl⟩

theorem endOff_of_mem_trimmed (h : Laid l) (hg : g ∈ trimmed e l) : ∃ f ∈ l, f.offset ≤ g.offset ∧ g.endOff = f.endOff := by
  obtain ⟨-, f, hf, hle, rfl | ⟨-, rfl⟩⟩ := mem_trimmed h hg
  · exact ⟨g, hf, hle, rfl⟩
  · exact ⟨f, hf, hle, rfl⟩

theorem Laid.of_trimmed (h : Laid l) (e : ℤ) : Laid (trimmed e l) := by
  induction l with
  | nil => exact h
  | cons f l ih =>
    unfold trimmed
    split_ifs with ho he
    · exact h
    · exact ih h.tail
    · obtain ⟨hf, hl⟩ := pairwise_cons.mp h.sorted
      obtain ⟨hlen, h0⟩ := h.sizes f mem_cons_self
      refine ⟨pairwise_cons.mpr ⟨fun g hg => ?_, hl⟩, fun g hg => ?_⟩
      · have := hf g hg
        simp only [Frag.cut]
        omega
      · obtain rfl | hg := mem_cons.mp hg
        · simp only [Frag.cut]
          omega
        · exact h.tail.sizes g hg

def after (l : List Frag) (offset : ℤ) : List Frag := l.dropWhile fun f => f.offset < offset

theorem before_append_after (l : List Frag) (o : ℤ) : before l o ++ after l o = l := takeWhile_append_dropWhile

section

variable (h : Laid l)
include h

theorem Laid.of_after (o : ℤ) : Laid (after l o) := by
  rw [← before_append_after l o, laid_append] at h
  exact h.2.1

theorem Laid.le_after {o : ℤ} (hg : g ∈ after l o) : o ≤ g.offset := by
  induction l with
  | nil => cases hg
  | cons f l ih =>
    by_cases hf : f.offset < o
    · rw [after, dropWhile_cons_of_pos (by simpa using hf)] at hg
      exact ih h.tail hg
    rw [after, dropWhile_cons_of_neg (by simpa using hf)] at hg
    obtain rfl | hg := mem_cons.mp hg
    · omega
    · have := (rel_of_pairwise_cons h.sorted hg).1
      omega

/-- The new fragment begins behind the fragments before it, and not behind the others. -/
theorem Laid.overlap_spec (p : Packet) : 0 ≤ overlap l p ∧
    (∀ f ∈ before l p.offset, f.offset < p.offset ∧ f.endOff ≤ p.offset + overlap l p) ∧
    ∀ g ∈ after l p.offset, p.offset + overlap l p ≤ g.offset := by
  have hlt : ∀ f ∈ before l p.offset, f.offset < p.offset := by
    intro f hf
    simpa using all_eq_true.mp all_takeWhile f hf
  have hafter : ∀ g ∈ after l p.offset, (p.offset : ℤ) ≤ g.offset := fun g hg => h.le_after hg
  rw [← before_append_after l p.offset, laid_append] at h
  obtain ⟨hb, -, hba⟩ := h
  unfold overlap
  obtain hnil | ⟨k, prev, hk⟩ := eq_nil_or_concat (before l p.offset)
  · rw [hnil]
    simpa using hafter
  rw [concat_eq_append] at hk
  have hprev : prev ∈ before l p.offset := by simp [hk]
  have hend : ∀ f ∈ before l p.offset, f.endOff ≤ max (p.offset : ℤ) prev.endOff := by
    intro f hf
    rw [hk] at hf hb
    obtain hf | hf := mem_append.mp hf
    · have := ((laid_append.mp hb).2.2 f hf prev (by simp)).2
      have := hlt prev hprev
      omega
    · rw [mem_singleton.mp hf]
      omega
  rw [hk, List.getLast?_concat, ← hk]
  dsimp only
  split_ifs
  · refine ⟨by omega, fun f hf => ⟨hlt f hf, ?_⟩, fun g hg => ?_⟩
    · have := hend f hf
      omega
    · have := (hba prev hprev g hg).2
      omega
  · refine ⟨le_rfl, fun f hf => ⟨hlt f hf, ?_⟩, fun g hg => by simpa using hafter g hg⟩
    have := hend f hf
    omega

/-- **The list with a new fragment**, and what was freed for it. -/
theorem Laid.insert_eq (p : Packet) (alloc : Bool) : insert l p alloc =
    (before l p.offset ++ (if alloc then [p.frag (overlap l p)] else []) ++ trimmed p.endOff (after l p.offset),
      charges (after l p.offset) - charges (trimmed p.endOff (after l p.offset))) := by
  have hloop := trimLoop_eq (e := p.endOff) (h.of_after p.offset) 0
  unfold after at hloop ⊢
  unfold insert
  rw [hloop]
  cases alloc <;> simp

theorem Laid.of_insert (p : Packet) (alloc : Bool) : Laid (insert l p alloc).1 := by
  obtain ⟨h0, hbefore, hle⟩ := h.overlap_spec p
  rw [h.insert_eq]
  rw [← before_append_after l p.offset, laid_append] at h
  obtain ⟨hb, ha, hba⟩ := h
  have htrim : ∀ f ∈ before l p.offset, ∀ g ∈ trimmed p.endOff (after l p.offset),
      f.offset ≤ g.offset ∧ f.endOff ≤ g.offset := by
    intro f hf g hg
    obtain ⟨-, g', hg', hle', -⟩ := mem_trimmed ha hg
    have := hba f hf g' hg'
    omega
  cases alloc with
  | false => simpa using laid_append.mpr ⟨hb, ha.of_trimmed _, htrim⟩
  | true =>
    have hnew : Laid (p.frag (overlap l p) :: trimmed p.endOff (after l p.offset)) := by
      refine ⟨pairwise_cons.mpr ⟨fun g hg => ?_, (ha.of_trimmed _).sorted⟩, ?_⟩
      · obtain ⟨hg1, g', hg', hle', -⟩ := mem_trimmed ha hg
        have := hle g' hg'
        simp only [Packet.frag]
        omega
      · rw [forall_mem_cons]
        refine ⟨⟨rfl, ?_⟩, (ha.of_trimmed _).sizes⟩
        simp only [Packet.frag]
        omega
    simp only [if_true, append_assoc, singleton_append]
    refine laid_append.mpr ⟨hb, hnew, fun f hf => ?_⟩
    rw [forall_mem_cons]
    refine ⟨?_, htrim f hf⟩
    have := hbefore f hf
    simp only [Packet.frag]
    omega

theorem Laid.charges_insert (p : Packet) (alloc : Bool) : charges (insert l p alloc).1 =
    charges l - (insert l p alloc).2 + if alloc then (p.frag 0).charge else 0 := by
  have hl := congrArg charges (before_append_after l p.offset)
  have hnew : ∀ i, (p.frag i).charge = (p.frag 0).charge := fun _ => rfl
  rw [charges_append] at hl
  rw [h.insert_eq]
  cases alloc
  · simp [charges_append]
    omega
  · simp [charges_append, charges_cons, hnew (overlap l p)]
    omega

end

/-! ### A fragment for its queue -/

variable {q q' : Ipq} {a : Alloc}

@[simp] theorem remember_fragments (q : Ipq) (p : Packet) : (q.remember p).fragments = q.fragments := by
  unfold Ipq.remember
  split <;> rfl

/-- What is charged for the queue that a call leaves. -/
def chargeOf (r : Option Ipq) : ℤ := (r.toList.map Ipq.charge).sum

theorem charge_add (h : Laid q.fragments) (p : Packet) (alloc : Bool) : (q.add p alloc).charge =
    q.charge - (insert q.fragments p alloc).2 + if alloc then (p.frag 0).charge else 0 := by
  have := h.charges_insert p alloc
  simp only [Ipq.charge, Ipq.add]
  omega

/-- **The memory of one call**: the change is the difference of what is charged for the queue. -/
theorem receive_mem (h : Laid q.fragments) (p : Packet) (a : Alloc) :
    (receive q p a).2.2 = chargeOf (receive q p a).2.1 - q.charge := by
  have hrem : (q.remember p).charge = q.charge := by simp [Ipq.charge]
  have hadd := charge_add (q := q.remember p) (by simpa using h) p a.frag
  have hcharge : ∀ q : Ipq, ({ q with timer := true } : Ipq).charge = q.charge := fun _ => rfl
  unfold receive chargeOf
  dsimp only
  split_ifs with h1 h2 h3
  · simp
  · simp only [Option.toList_some, map_cons, map_nil, sum_cons, sum_nil, hcharge]
    omega
  · rw [if_neg (by simp [h3])] at hadd
    simp only [Option.toList_some, map_cons, map_nil, sum_cons, sum_nil, hcharge]
    omega
  · rw [if_pos (by simpa using h3)] at hadd
    simp only [Option.toList_none, map_nil, sum_nil]
    omega
  · rw [if_pos (by simpa using h3)] at hadd
    simp only [Option.toList_some, map_cons, map_nil, sum_cons, sum_nil, hcharge]
    omega

/-- The queue that a call leaves has its timer, and is the old one, with the fragment if it is not too large. -/
theorem receive_queue (hq : q' ∈ (receive q p a).2.1) : q'.timer = true ∧ ∃ q₁ : Ipq, q' = { q₁ with timer := true } ∧
    (q₁ = q.remember p ∨ p.totLen + p.offset ≤ 65535 ∧ q₁ = (q.remember p).add p a.frag) := by
  unfold receive at hq
  dsimp only at hq
  split_ifs at hq
  · cases hq
  · cases hq
    exact ⟨rfl, _, rfl, .inl rfl⟩
  · cases hq
    exact ⟨rfl, _, rfl, .inr ⟨by omega, rfl⟩⟩
  · cases hq
  · cases hq
    exact ⟨rfl, _, rfl, .inr ⟨by omega, rfl⟩⟩

/-! ### The table -/

variable {k : Key} {L : List Ipq} {low : ℤ}

theorem mem_replace {r : Option Ipq} {x : Ipq} (h : x ∈ replace k r L) : x ∈ L ∨ x ∈ r := by
  induction L with
  | nil => cases h
  | cons q L ih =>
    unfold replace at h
    split_ifs at h
    · obtain h | h := mem_append.mp h
      · exact .inr (by simpa using h)
      · exact .inl (mem_cons_of_mem q h)
    · obtain rfl | h := mem_cons.mp h
      · exact .inl mem_cons_self
      · exact (ih h).imp_left (mem_cons_of_mem q)

theorem charge_replace (h : L.find? (fun q => q.key = k) = some q) (r : Option Ipq) :
    ((replace k r L).map Ipq.charge).sum = (L.map Ipq.charge).sum + (chargeOf r - q.charge) := by
  induction L with
  | nil => cases h
  | cons x L ih =>
    unfold replace
    by_cases hx : x.key = k
    · rw [List.find?_cons_of_pos (by simpa using hx)] at h
      cases h
      simp [hx, chargeOf]
      ring
    · rw [List.find?_cons_of_neg (by simpa using hx)] at h
      simp [hx, ih h]
      ring

/-- `ip_frag_mem` is what is charged for the queues; every queue has its timer, and `P`. -/
structure Sound (P : Ipq → Prop) (w : World) : Prop where
  mem : w.mem = ∑ i, ((w.hash i).map Ipq.charge).sum
  queues : ∀ i, ∀ q ∈ w.hash i, q.timer = true ∧ P q

variable {P : Ipq → Prop} {w w' : World}

theorem Sound.setBucket (h : Sound P w) {i : Fin 64} {d : ℤ}
    (hd : d = (L.map Ipq.charge).sum - ((w.hash i).map Ipq.charge).sum) (hL : ∀ q ∈ L, q.timer = true ∧ P q) :
    Sound P (w.setBucket i L d) := by
  constructor
  · have hsum : ∑ j, ((Function.update w.hash i L j).map Ipq.charge).sum = _ :=
      sum_change (F := fun j => ((w.hash j).map Ipq.charge).sum) i fun j hj => by simp [hj]
    unfold World.setBucket
    rw [hsum, Function.update_self, h.mem, hd]
  · exact (Function.forall_update_iff w.hash fun _ L => ∀ q ∈ L, q.timer = true ∧ P q).mpr
      ⟨hL, fun j _ => h.queues j⟩

theorem Sound.expire (h : Sound P w) (hq : w.ipFind k = some q) :
    Sound P (w.setBucket (ipqhashfn k) (replace k none (w.hash (ipqhashfn k))) (-q.charge)) := by
  apply h.setBucket
  · rw [charge_replace hq]
    simp [chargeOf]
  · intro x hx
    obtain hx | hx := mem_replace hx
    · exact h.queues _ x hx
    · cases hx

/-- The queue that a fragment meets: its own, or a new one. -/
def World.queueOf (w : World) (p : Packet) : Ipq :=
  (w.ipFind p.key).elim (ipCreate p) fun q => { q with timer := false }

theorem Sound.queueOf (h : Sound P w) (p : Packet) (hnew : P (ipCreate p))
    (hold : ∀ q, P q → P { q with timer := false }) : P (w.queueOf p) := by
  unfold World.queueOf
  cases hf : w.ipFind p.key with
  | none => exact hnew
  | some q => exact hold q (h.queues _ q (mem_of_find?_eq_some hf)).2

theorem Sound.ipDefrag (h : Sound P w) (hlaid : Laid (w.queueOf p).fragments)
    (hP : ∀ q' ∈ (receive (w.queueOf p) p a).2.1, P q') : Sound P (w.ipDefrag p a).2 := by
  have hmem := receive_mem hlaid p a
  unfold World.ipDefrag World.queueOf at *
  cases hf : w.ipFind p.key with
  | some q =>
    rw [hf, Option.elim_some] at hmem hP
    apply h.setBucket
    · rw [charge_replace hf, hmem]
      simp [Ipq.charge]
    · intro x hx
      obtain hx | hx := mem_replace hx
      · exact h.queues _ x hx
      · exact ⟨(receive_queue hx).1, hP x hx⟩
  | none =>
    rw [hf, Option.elim_none] at hmem hP
    split_ifs
    · exact h
    · exact h
    · apply h.setBucket
      · rw [hmem]
        simp [chargeOf]
      · intro x hx
        obtain hx | hx := mem_append.mp hx
        · have hx : x ∈ (receive (ipCreate p) p a).2.1 := by simpa using hx
          exact ⟨(receive_queue hx).1, hP x hx⟩
        · exact h.queues _ x hx

/-! ### The evictor -/

theorem charge_pos (q : Ipq) : 0 < q.charge := by
  have : 0 ≤ charges q.fragments := sum_nonneg (by simp [Frag.charge]; omega)
  unfold Ipq.charge
  omega

/-- One turn over the buckets `is`: it lowers `ip_frag_mem` if it frees a queue. -/
theorem Sound.evictPass (h : Sound P w) {is : List (Fin 64)} {progress back progress' : Bool}
    (hr : World.evictPass low is w progress = (back, progress', w')) :
    Sound P w' ∧ (back = true → w'.mem ≤ low) ∧
      (progress' = false → progress = false ∧ (back = false → ∀ i ∈ is, low < w.mem ∧ w.hash i = [])) ∧
      w'.mem + progress'.toNat ≤ w.mem + progress.toNat := by
  induction is generalizing w progress with
  | nil =>
    cases hr
    simp [h]
  | cons i is ih =>
    unfold World.evictPass at hr
    split_ifs at hr with hm
    · cases hr
      simp [h, hm]
    cases hl : (w.hash i).getLast? with
    | none =>
      rw [hl] at hr
      obtain ⟨h1, h2, h3, h4⟩ := ih h hr
      refine ⟨h1, h2, fun hp => ⟨(h3 hp).1, fun hb => ?_⟩, h4⟩
      rw [forall_mem_cons]
      exact ⟨⟨by omega, by simpa using hl⟩, (h3 hp).2 hb⟩
    | some qp =>
      rw [hl] at hr
      have hw : Sound P (w.setBucket i (w.hash i).dropLast (-qp.charge)) := by
        apply h.setBucket
        · nth_rewrite 2 [← dropLast_append_getLast? qp hl]
          simp
        · exact fun q hq => h.queues i q (mem_of_mem_dropLast hq)
      obtain ⟨h1, h2, h3, h4⟩ := ih hw hr
      refine ⟨h1, h2, fun hp => absurd (h3 hp).1 (by simp), ?_⟩
      have := charge_pos qp
      simp only [World.setBucket, Bool.toNat_true] at h4
      omega

theorem Sound.ipEvictor (h : Sound P w) (h0 : 0 ≤ low) (fuel : ℕ) : w.ipEvictor low fuel ≠ some none ∧
      (∀ w', w.ipEvictor low fuel = some (some w') → Sound P w' ∧ w'.mem ≤ low) ∧
      (w.mem < fuel → w.ipEvictor low fuel ≠ none) := by
  induction fuel generalizing w with
  | zero =>
    refine ⟨nofun, nofun, fun hlt => ?_⟩
    have : 0 ≤ w.mem := by
      rw [h.mem]
      exact Finset.sum_nonneg fun i _ => sum_nonneg (by simpa using fun q _ => (charge_pos q).le)
    simp at hlt
    omega
  | succ fuel ih =>
    rcases hr : World.evictPass low (List.finRange 64) w false with ⟨back, progress, w₁⟩
    obtain ⟨h1, h2, h3, h4⟩ := h.evictPass hr
    unfold World.ipEvictor
    rw [hr]
    cases back with
    | true =>
      refine ⟨nofun, fun w' hw' => ?_, fun _ => nofun⟩
      cases hw'
      exact ⟨h1, h2 rfl⟩
    | false =>
      cases progress with
      | true =>
        obtain ⟨i1, i2, i3⟩ := ih h1
        refine ⟨i1, i2, fun hlt => i3 ?_⟩
        simp at h4 hlt
        omega
      | false =>
        -- nothing was freed, so that the table is empty, and so is the memory
        have hempty := (h3 rfl).2 rfl
        have hmem : w.mem = 0 := by
          rw [h.mem]
          exact Finset.sum_eq_zero fun i _ => by simp [(hempty i (mem_finRange i)).2]
        have := (hempty 0 (mem_finRange 0)).1
        omega

theorem Sound.enter (h : Sound P w) {high : ℤ} {fuel : ℕ} (h0 : 0 ≤ low) (hw : w.enter high low fuel = some w') :
    Sound P w' := by
  unfold World.enter at hw
  split_ifs at hw
  · exact ((h.ipEvictor h0 fuel).2.1 w' (Option.join_eq_some_iff.mp hw)).1
  · cases hw
    exact h

theorem Sound.step (h : Sound P w) {x : Op × ℕ} (hs : step w x = some w')
    (hP : ∀ p a high low w₁, x.1 = .defrag p a high low → w.enter high low x.2 = some w₁ → Sound P w₁ →
      Laid (w₁.queueOf p).fragments ∧ ∀ q' ∈ (receive (w₁.queueOf p) p a).2.1, P q') : Sound P w' := by
  obtain ⟨op, fuel⟩ := x
  cases op with
  | defrag p a high low =>
    unfold IpFragment.step at hs
    dsimp only at hs
    split_ifs at hs with h0
    obtain ⟨w₁, hw₁, rfl⟩ := Option.map_eq_some_iff.mp hs
    have hsound := h.enter h0 hw₁
    obtain ⟨hlaid, hq⟩ := hP p a high low w₁ rfl hw₁ hsound
    exact hsound.ipDefrag hlaid hq
  | expire k =>
    unfold IpFragment.step at hs
    dsimp only at hs
    split at hs
    · next hq =>
      cases hs
      exact h.expire hq
    · cases hs
  | evict low =>
    unfold IpFragment.step at hs
    dsimp only at hs
    split_ifs at hs with h0
    exact ((h.ipEvictor h0 fuel).2.1 w' (Option.join_eq_some_iff.mp hs)).1

theorem laid_receive (h : Laid q.fragments) (hq : q' ∈ (receive q p a).2.1) : Laid q'.fragments := by
  obtain ⟨-, q₁, rfl, rfl | ⟨-, rfl⟩⟩ := receive_queue hq
  · simpa using h
  · exact Laid.of_insert (by simpa using h) p a.frag

theorem laid_create (p : Packet) : Laid (ipCreate p).fragments := ⟨List.Pairwise.nil, by simp [ipCreate]⟩

theorem sound_boot : Sound P boot := ⟨by simp [boot], by simp [boot]⟩

theorem sound_of_reaches (hr : Reaches step boot w) : Sound (fun q => Laid q.fragments) w := by
  refine ReachesBy.invariant (I := Sound fun q => Laid q.fragments) hr sound_boot ?_
  intro w x w' hw _ hs
  refine hw.step hs fun p a _ _ w₁ _ _ hw₁ => ?_
  have hlaid := hw₁.queueOf p (laid_create p) fun _ h => h
  exact ⟨hlaid, fun _ => laid_receive hlaid⟩

/-- **The memory for fragments.** In every state that is reached, `ip_frag_mem` is what is charged for the queues, the
fragments and their `skb`s, and every queue has its timer; and the evictor returns, below the threshold and without a panic.
-/
theorem memory_of_reaches (hr : Reaches step boot w) :
    w.mem = ∑ i, ((w.hash i).map Ipq.charge).sum ∧ (∀ i, ∀ q ∈ w.hash i, q.timer = true) ∧
      ∀ low fuel, 0 ≤ low → w.ipEvictor low fuel ≠ some none ∧
        (w.mem < fuel → ∃ w', w.ipEvictor low fuel = some (some w') ∧ w'.mem ≤ low) := by
  have hw := sound_of_reaches hr
  refine ⟨hw.mem, fun i q hq => (hw.queues i q hq).1, fun low fuel h0 => ?_⟩
  obtain ⟨hpanic, hback, hsome⟩ := hw.ipEvictor h0 fuel
  refine ⟨hpanic, fun hlt => ?_⟩
  obtain ⟨r, hr⟩ := Option.ne_none_iff_exists'.mp (hsome hlt)
  cases r with
  | none => exact absurd hr hpanic
  | some w' => exact ⟨w', hr, (hback w' hr).2⟩

def granted : Alloc := ⟨true, true, true, true⟩

/-- A packet with the bytes of the datagram in which every byte is its place. -/
def sample (offset totLen ihl : ℕ) (mf : Bool) : Packet :=
  ⟨⟨1, 2, 3, 17⟩, offset, mf, totLen, ihl, fun _ => 0, fun i => BitVec.ofInt 8 (offset + i), 256⟩

theorem memory_of_reaches_first : ∃ w, step boot (.defrag (sample 0 28 20 true) granted 262144 196608, 1) = some w ∧
    w.mem = 404 ∧ ∃ w', w.ipEvictor 300 405 = some (some w') ∧ w'.mem ≤ 300 := by
  have hr : Reaches step boot _ := .of_exec [(.defrag (sample 0 28 20 true) granted 262144 196608, 1)] _ _ rfl
  exact ⟨_, rfl, by decide, ((memory_of_reaches hr).2.2 300 405 (by decide)).2 (by decide)⟩

end I370Linux.IpFragment
