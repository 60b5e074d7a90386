import Mathlib

/-! # Lists held in link fields

`Linked next p l` says that the links `next`, followed from `p` to the end marker `none`, visit the
nodes `l`.  The list of a chain is unique (`Linked.unique`), so no node is visited twice
(`Linked.nodup`); stores to the links of other nodes leave it alone (`Linked.congr`), and entering a
node at the head or behind a node of the chain enters it in the list.

`Chain f l` is the same for links of which the head field is one, so that a location in the chain is the
node before it; `Ring d l` says that links in both directions hold the list `l` between the two sides of
an end marker.  Taking a node out and entering one at a location are the operations on both. -/

namespace I370Linux.Links

open Function List

variable {α : Type*} {next next' : α → Option α} {p : Option α} {a b : α} {l l₁ l₂ : List α}

/-- The links followed from `p` visit the nodes of the list and end. -/
def Linked (next : α → Option α) : Option α → List α → Prop
  | p, [] => p = none
  | p, a :: l => p = some a ∧ Linked next (next a) l

@[simp]
theorem linked_nil : Linked next p [] ↔ p = none := Iff.rfl

@[simp]
theorem linked_cons : Linked next p (a :: l) ↔ p = some a ∧ Linked next (next a) l := Iff.rfl

theorem Linked.unique : ∀ {p : Option α} {l l' : List α}, Linked next p l → Linked next p l' → l = l'
  | _, [], [], _, _ => rfl
  | _, [], _ :: _, h, h' => by
    rw [linked_nil] at h
    rw [linked_cons, h] at h'
    exact absurd h'.1 (Option.some_ne_none _).symm
  | _, _ :: _, [], h, h' => by
    rw [linked_nil] at h'
    rw [linked_cons, h'] at h
    exact absurd h.1 (Option.some_ne_none _).symm
  | _, a :: l, b :: l', h, h' => by
    obtain ⟨rfl, h⟩ := h
    obtain ⟨hab, h'⟩ := h'
    cases hab
    rw [h.unique h']

theorem Linked.head? : ∀ {p : Option α} {l : List α}, Linked next p l → p = l.head?
  | _, [], h => h
  | _, _ :: _, h => h.1

theorem Linked.of_append : ∀ {p : Option α} {l₁ : List α}, Linked next p (l₁ ++ a :: l₂) →
    Linked next (some a) (a :: l₂)
  | _, [], h => by
    obtain ⟨rfl, h⟩ := h
    exact ⟨rfl, h⟩
  | _, _ :: _, h => h.2.of_append

theorem Linked.nodup : ∀ {p : Option α} {l : List α}, Linked next p l → l.Nodup
  | _, [], _ => nodup_nil
  | _, a :: l, h => by
    rw [nodup_cons]
    refine ⟨fun hmem => ?_, h.2.nodup⟩
    -- a second visit would start the same list again, behind a node more
    obtain ⟨l₁, l₂, rfl⟩ := append_of_mem hmem
    have hrest : Linked next (some a) (a :: l₂) := h.2.of_append
    obtain ⟨-, h⟩ := h
    have hlen := congrArg List.length ((show Linked next (some a) (a :: (l₁ ++ a :: l₂)) from
      ⟨rfl, h⟩).unique hrest)
    simp only [length_cons, length_append] at hlen
    omega

theorem Linked.congr : ∀ {p : Option α} {l : List α}, Linked next p l →
    (∀ a ∈ l, next' a = next a) → Linked next' p l
  | _, [], h, _ => h
  | _, a :: l, h, heq => by
    refine ⟨h.1, ?_⟩
    rw [heq a mem_cons_self]
    exact h.2.congr fun b hb => heq b (mem_cons_of_mem a hb)

section single

variable [DecidableEq α]

theorem Linked.update_of_notMem (h : Linked next p l) (ha : a ∉ l) (q : Option α) :
    Linked (update next a q) p l := by
  refine h.congr fun b hb => ?_
  apply update_of_ne
  rintro rfl
  exact ha hb

theorem Linked.push (h : Linked next p l) (hb : b ∉ l) : Linked (update next b p) (some b) (b :: l) := by
  refine ⟨rfl, ?_⟩
  rw [update_self]
  exact h.update_of_notMem hb p

theorem Linked.insert : ∀ {p : Option α} {l₁ : List α}, Linked next p (l₁ ++ a :: l₂) →
    b ∉ l₁ ++ a :: l₂ →
    Linked (update (update next b (next a)) a (some b)) p (l₁ ++ a :: b :: l₂)
  | p, [], h, hb => by
    obtain ⟨hp, h⟩ := h
    rw [nil_append, mem_cons, not_or] at hb
    have ha : a ∉ l₂ := (nodup_cons.mp (Linked.nodup (p := some a) ⟨rfl, h⟩)).1
    refine ⟨hp, ?_, ?_⟩
    · rw [update_self]
    · rw [update_of_ne hb.1, update_self]
      exact (h.update_of_notMem hb.2 _).update_of_notMem ha _
  | p, c :: l₁, h, hb => by
    obtain ⟨hp, h⟩ := h
    have hc := (nodup_cons.mp (Linked.nodup (p := some c) ⟨rfl, h⟩)).1
    rw [cons_append, mem_cons, not_or] at hb
    have hca : c ≠ a := by
      rintro rfl
      exact hc (mem_append_right _ mem_cons_self)
    refine ⟨hp, ?_⟩
    rw [update_of_ne hca, update_of_ne (Ne.symm hb.1)]
    exact h.insert hb.2

end single

section ring

variable {m₁ m₂ : List α} {q : Option α}

/-! ### Cuts of a list -/

theorem eq_nil_of_getLast? (hnd : (l₁ ++ m₁ ++ m₂).Nodup) (hlast : l₁.getLast? = (l₁ ++ m₁).getLast?) :
    m₁ = [] := by
  obtain rfl | ⟨c, b, rfl⟩ := eq_nil_or_concat' m₁
  · rfl
  · rw [← append_assoc, List.getLast?_concat] at hlast
    have hmem : b ∈ l₁ := mem_of_getLast? hlast
    rw [append_assoc, nodup_append] at hnd
    exact absurd rfl (hnd.2.2 b hmem b (by simp))

theorem cut_eq_of_getLast? (hnd : (l₁ ++ l₂).Nodup) (heq : l₁ ++ l₂ = m₁ ++ m₂)
    (hlast : l₁.getLast? = m₁.getLast?) : l₁ = m₁ := by
  obtain ⟨c, rfl, rfl⟩ | ⟨c, rfl, rfl⟩ := append_eq_append_iff.mp heq
  · rw [← append_assoc] at hnd
    rw [eq_nil_of_getLast? hnd hlast, append_nil]
  · rw [eq_nil_of_getLast? hnd hlast.symm, append_nil]

theorem exists_cut_insert (a : α) (heq : l₁ ++ l₂ = m₁ ++ m₂) (hne : l₁ ≠ m₁) :
    ∃ n₁ n₂, l₁ ++ a :: l₂ = n₁ ++ n₂ ∧ n₁.getLast? = m₁.getLast? ∧ n₂.head? = m₂.head? := by
  obtain ⟨c, rfl, rfl⟩ | ⟨c, rfl, rfl⟩ := append_eq_append_iff.mp heq
  · obtain rfl | ⟨c, b, rfl⟩ := eq_nil_or_concat' c
    · simp at hne
    · refine ⟨l₁ ++ a :: (c ++ [b]), m₂, by simp, ?_, rfl⟩
      rw [← append_assoc, List.getLast?_concat, ← cons_append, ← append_assoc, List.getLast?_concat]
  · cases c with
    | nil => simp at hne
    | cons b c => exact ⟨m₁, b :: c ++ a :: l₂, by simp, rfl, rfl⟩

theorem exists_cut_erase (heq : l₁ ++ a :: l₂ = m₁ ++ m₂) (hne : l₁ ≠ m₁) (hne' : l₁ ++ [a] ≠ m₁) :
    ∃ n₁ n₂, l₁ ++ l₂ = n₁ ++ n₂ ∧ l₁ ≠ n₁ ∧ n₁.getLast? = m₁.getLast? ∧ n₂.head? = m₂.head? := by
  obtain ⟨c, rfl, hc⟩ | ⟨c, rfl, rfl⟩ := append_eq_append_iff.mp heq
  · cases c with
    | nil => simp at hne
    | cons b c =>
      obtain ⟨rfl, rfl⟩ := List.cons.inj hc
      obtain rfl | ⟨c, b, rfl⟩ := eq_nil_or_concat' c
      · simp at hne'
      · refine ⟨l₁ ++ (c ++ [b]), m₂, by simp, by simp, ?_, rfl⟩
        rw [← append_assoc, List.getLast?_concat, ← cons_append, ← append_assoc, List.getLast?_concat]
  · cases c with
    | nil => simp at hne
    | cons b c => exact ⟨m₁, b :: c ++ l₂, by simp, by simp, rfl, rfl⟩

/-! ### Chains behind a head field -/

/-- Links with the head of the list as the link of `none`: at every cut of the list the link of the node
before it leads to the node behind it. -/
structure Chain (f : Option α → Option α) (l : List α) : Prop where
  nodup : l.Nodup
  next_eq : ∀ l₁ l₂, l = l₁ ++ l₂ → f l₁.getLast? = l₂.head?

variable {f f' : Option α → Option α}

theorem Chain.head (h : Chain f l) : f none = l.head? := h.next_eq [] l rfl

theorem Chain.next_some (h : Chain f (l₁ ++ a :: l₂)) : f (some a) = l₂.head? := by
  have hcut := h.next_eq (l₁ ++ [a]) l₂ (by simp)
  rwa [List.getLast?_concat] at hcut

theorem Chain.linked_of_cut (h : Chain f l) : ∀ l₁ l₂ : List α, l = l₁ ++ l₂ →
    Linked (fun a => f (some a)) (f l₁.getLast?) l₂
  | l₁, [], hl => h.next_eq l₁ [] hl
  | l₁, a :: l₂, hl => by
    refine ⟨h.next_eq l₁ (a :: l₂) hl, ?_⟩
    have hrest := h.linked_of_cut (l₁ ++ [a]) l₂ (by simp [hl])
    rwa [List.getLast?_concat] at hrest

theorem Chain.unique (h : Chain f l₁) (h' : Chain f l₂) : l₁ = l₂ :=
  (h.linked_of_cut [] l₁ rfl).unique (h'.linked_of_cut [] l₂ rfl)

theorem Chain.of_empty (h : f none = none) : Chain f [] where
  nodup := nodup_nil
  next_eq l₁ l₂ hl := by
    obtain ⟨rfl, rfl⟩ := append_eq_nil_iff.mp hl.symm
    exact h

theorem Chain.tail (h : Chain f (a :: l)) (hnone : f' none = f (some a))
    (hsome : ∀ b ∈ l, f' (some b) = f (some b)) : Chain f' l := by
  refine ⟨h.nodup.of_cons, fun l₁ l₂ hl => ?_⟩
  have hcut := h.next_eq (a :: l₁) l₂ (by rw [hl, cons_append])
  cases hlast : l₁.getLast? with
  | none =>
    obtain rfl := List.getLast?_eq_none_iff.mp hlast
    rw [hnone]
    exact hcut
  | some b =>
    rw [List.getLast?_cons, hlast, Option.getD_some] at hcut
    rw [hsome b (hl ▸ mem_append_left _ (mem_of_getLast? hlast))]
    exact hcut

theorem Chain.congr (h : Chain f l) (hnone : f' none = f none) (hsome : ∀ a ∈ l, f' (some a) = f (some a)) :
    Chain f' l := by
  refine ⟨h.nodup, fun l₁ l₂ hl => ?_⟩
  rw [← h.next_eq l₁ l₂ hl]
  cases hlast : l₁.getLast? with
  | none => exact hnone
  | some a =>
    exact hsome a (hl ▸ mem_append_left _ (mem_of_getLast? hlast))

section update

variable [DecidableEq α]

theorem Chain.unlink (h : Chain f (l₁ ++ a :: l₂)) : Chain (update f l₁.getLast? l₂.head?) (l₁ ++ l₂) := by
  have hnd : (l₁ ++ l₂).Nodup := (nodup_middle.mp h.nodup).of_cons
  refine ⟨hnd, fun m₁ m₂ hm => ?_⟩
  obtain rfl | hcut := eq_or_ne l₁ m₁
  · rw [update_self, append_cancel_left hm]
  · rw [update_of_ne fun heq => hcut (cut_eq_of_getLast? hnd hm heq.symm)]
    obtain ⟨n₁, n₂, hn, hlast, hhead⟩ := exists_cut_insert a hm hcut
    rw [← hlast, ← hhead]
    exact h.next_eq n₁ n₂ hn

theorem Chain.insert (h : Chain f (l₁ ++ l₂)) (ha : a ∉ l₁ ++ l₂) :
    Chain (update (update f (some a) l₂.head?) l₁.getLast? (some a)) (l₁ ++ a :: l₂) := by
  have hnd : (l₁ ++ a :: l₂).Nodup := nodup_middle.mpr (nodup_cons.mpr ⟨ha, h.nodup⟩)
  -- the node entered is not before a cut of the old list
  have hlast : ∀ n₁ n₂, l₁ ++ l₂ = n₁ ++ n₂ → n₁.getLast? ≠ some a := by
    intro n₁ n₂ hn heq
    exact ha (hn ▸ mem_append_left _ (mem_of_getLast? heq))
  refine ⟨hnd, fun m₁ m₂ hm => ?_⟩
  obtain rfl | hcut := eq_or_ne l₁ m₁
  · rw [update_self, ← append_cancel_left hm, List.head?_cons]
  by_cases hcut' : l₁ ++ [a] = m₁
  · subst hcut'
    rw [append_cons] at hm
    rw [List.getLast?_concat, update_of_ne (hlast l₁ l₂ rfl).symm, update_self, ← append_cancel_left hm]
  · obtain ⟨n₁, n₂, hn, hne, hnl, hnh⟩ := exists_cut_erase hm hcut hcut'
    rw [← hnl, ← hnh, update_of_ne fun heq =>
      hne (cut_eq_of_getLast? h.nodup hn heq.symm), update_of_ne (hlast n₁ n₂ hn)]
    exact h.next_eq n₁ n₂ hn

end update

/-! ### Doubly linked rings -/

/-- Links in both directions between nodes and an end marker `none`, which closes the ring: its
`next` is the first node and its `prev` the last. -/
structure DLinks (α : Type*) where
  next : Option α → Option α
  prev : Option α → Option α

/-- The nodes of the ring, from the one behind the end marker to the one before it: at every cut of
the list the links lead across it in both directions. -/
structure Ring (d : DLinks α) (l : List α) : Prop where
  nodup : l.Nodup
  next_eq : ∀ l₁ l₂, l = l₁ ++ l₂ → d.next l₁.getLast? = l₂.head?
  prev_eq : ∀ l₁ l₂, l = l₁ ++ l₂ → d.prev l₂.head? = l₁.getLast?

variable {d : DLinks α}

theorem Ring.chain (h : Ring d l) : Chain d.next l := ⟨h.nodup, h.next_eq⟩

theorem Ring.notMem (h : Ring d (l₁ ++ a :: l₂)) : a ∉ l₁ ++ l₂ := (nodup_cons.mp (nodup_middle.mp h.nodup)).1

theorem cut_reverse (hl : l.reverse = l₁ ++ l₂) : l = l₂.reverse ++ l₁.reverse := by
  rw [← reverse_append, ← hl, reverse_reverse]

theorem Ring.chain_reverse (h : Ring d l) : Chain d.prev l.reverse := by
  refine ⟨nodup_reverse.mpr h.nodup, fun l₁ l₂ hl => ?_⟩
  have hprev := h.prev_eq l₂.reverse l₁.reverse (cut_reverse hl)
  rwa [List.head?_reverse, List.getLast?_reverse] at hprev

theorem Ring.of_chains (h : Chain d.next l) (h' : Chain d.prev l.reverse) : Ring d l := by
  refine ⟨h.nodup, h.next_eq, fun l₁ l₂ hl => ?_⟩
  have hprev := h'.next_eq l₂.reverse l₁.reverse (by rw [hl, reverse_append])
  rwa [List.head?_reverse, List.getLast?_reverse] at hprev

theorem Ring.next_some (h : Ring d (l₁ ++ a :: l₂)) : d.next (some a) = l₂.head? := h.chain.next_some

theorem Ring.prev_some (h : Ring d (l₁ ++ a :: l₂)) : d.prev (some a) = l₁.getLast? :=
  h.prev_eq l₁ (a :: l₂) rfl

theorem Ring.next_none (h : Ring d l) : d.next none = l.head? := h.chain.head

theorem Ring.prev_none (h : Ring d l) : d.prev none = l.getLast? := h.prev_eq l [] (by simp)

theorem Ring.unique (h : Ring d l₁) (h' : Ring d l₂) : l₁ = l₂ := h.chain.unique h'.chain

theorem Ring.congr {d' : DLinks α} (h : Ring d l)
    (hd : ∀ q, (∀ a, q = some a → a ∈ l) → d'.next q = d.next q ∧ d'.prev q = d.prev q) : Ring d' l := by
  have hmem : ∀ a ∈ l, ∀ b, some a = some b → b ∈ l := by
    intro a ha b hab
    rwa [← Option.some.inj hab]
  apply Ring.of_chains
  · apply h.chain.congr (hd none (by simp)).1
    intro a ha
    exact (hd (some a) (hmem a ha)).1
  · apply h.chain_reverse.congr (hd none (by simp)).2
    intro a ha
    exact (hd (some a) (hmem a (mem_reverse.mp ha))).2

theorem Ring.of_empty (hn : d.next none = none) (hp : d.prev none = none) : Ring d [] where
  nodup := nodup_nil
  next_eq l₁ l₂ hl := by
    obtain ⟨rfl, rfl⟩ := append_eq_nil_iff.mp hl.symm
    exact hn
  prev_eq l₁ l₂ hl := by
    obtain ⟨rfl, rfl⟩ := append_eq_nil_iff.mp hl.symm
    exact hp

/-- Follow links from `p` to the first node that is `good`, giving up at the end marker and at a node
where the search is to `stop`; `none` when the fuel does not suffice. -/
def seek (step : α → Option α) (good stop : α → Bool) : ℕ → Option α → Option (Option α)
  | 0, _ => none
  | _ + 1, none => some none
  | n + 1, some a =>
    if stop a then some none else if good a then some (some a) else seek step good stop n (step a)

variable {step : α → Option α} {good stop : α → Bool}

theorem seek_found {S : α → Prop} (hstep : ∀ a b, S a → step a = some b → S b) :
    ∀ (n : ℕ) (p : Option α), (∀ b, p = some b → S b) → seek step good stop n p = some (some a) →
      S a ∧ good a = true ∧ stop a = false
  | 0, _, _, h => by simp [seek] at h
  | _ + 1, none, _, h => by simp [seek] at h
  | n + 1, some b, hp, h => by
    unfold seek at h
    split_ifs at h with hs hg
    · simp at h
    · obtain rfl : b = a := by simpa using h
      exact ⟨hp b rfl, hg, by simpa using hs⟩
    · exact seek_found hstep n (step b) (fun c hc => hstep b c (hp b rfl) hc) h

theorem seek_isSome : ∀ {n : ℕ} {p : Option α} {l : List α}, Linked step p l → l.length < n →
    (seek step good stop n p).isSome = true
  | 0, _, _, _, hn => absurd hn (Nat.not_lt_zero _)
  | _ + 1, none, _, _, _ => rfl
  | n + 1, some a, [], h, _ => absurd h (Option.some_ne_none a)
  | n + 1, some a, b :: l, h, hn => by
    obtain ⟨hab, h⟩ := h
    cases hab
    unfold seek
    split_ifs
    · rfl
    · rfl
    · exact seek_isSome h (Nat.lt_of_succ_lt_succ hn)

variable [DecidableEq α]

/-- Take a node out of the ring: its neighbours are linked to each other. -/
def DLinks.unlink (d : DLinks α) (a : α) : DLinks α where
  next := update d.next (d.prev (some a)) (d.next (some a))
  prev := update d.prev (d.next (some a)) (d.prev (some a))

/-- Enter a node before `q`. -/
def DLinks.insertBefore (d : DLinks α) (q : Option α) (a : α) : DLinks α where
  next := update (update d.next (some a) q) (d.prev q) (some a)
  prev := update (update d.prev (some a) (d.prev q)) q (some a)

theorem Ring.unlink (h : Ring d (l₁ ++ a :: l₂)) : Ring (d.unlink a) (l₁ ++ l₂) := by
  have hnext := h.chain.unlink
  have hprev := h.chain_reverse
  rw [reverse_append, reverse_cons, append_assoc, singleton_append] at hprev
  have hprev := hprev.unlink
  rw [List.getLast?_reverse, List.head?_reverse, ← reverse_append] at hprev
  refine Ring.of_chains ?_ ?_
  · unfold DLinks.unlink
    rw [h.prev_some, h.next_some]
    exact hnext
  · unfold DLinks.unlink
    rw [h.prev_some, h.next_some]
    exact hprev

theorem Ring.insertBefore (h : Ring d (l₁ ++ l₂)) (ha : a ∉ l₁ ++ l₂) (hq : q = l₂.head?) :
    Ring (d.insertBefore q a) (l₁ ++ a :: l₂) := by
  have hq' : d.prev q = l₁.getLast? := hq ▸ h.prev_eq l₁ l₂ rfl
  have hnext := h.chain.insert ha
  have hprev := h.chain_reverse
  rw [← mem_reverse] at ha
  rw [reverse_append] at hprev ha
  have hprev := hprev.insert ha
  rw [List.getLast?_reverse, List.head?_reverse] at hprev
  refine Ring.of_chains ?_ ?_
  · unfold DLinks.insertBefore
    rw [hq', hq]
    exact hnext
  · unfold DLinks.insertBefore
    rw [hq', hq, reverse_append, reverse_cons, append_assoc, singleton_append]
    exact hprev

theorem Ring.insertFirst (h : Ring d l) (ha : a ∉ l) (hq : q = l.head?) :
    Ring (d.insertBefore q a) (a :: l) := by
  have h' : Ring d ([] ++ l) := h
  exact h'.insertBefore ha hq

end ring

end I370Linux.Links
