import I370Linux.FamilyTree

/-! # Lists of children

`Siblings w q l` says that the children of `q` are the list `l`: `p_cptr` and the fields `p_osptr` lead
through it, and each `p_ysptr` leads back.  `Kin w S` puts the lists of all tasks together with the ring
of `next_task`: every task of the set `S` is once on the ring, and once on the list of its `p_pptr`.
`REMOVE_LINKS` takes a task out of `S`, `SET_LINKS` enters one, and the loop of `exit_notify` empties the
list of a task. -/

namespace I370Linux.FamilyTree

open Links Function List

variable {ι : Type*}

namespace World

/-- The links of the list of children of `q`, from the youngest on. -/
def elder (w : World ι) (q : Option ι) : Option ι → Option ι
  | none => w.cptr q
  | some a => w.osptr a

structure Siblings (w : World ι) (q : Option ι) (l : List ι) : Prop where
  chain : Chain (w.elder q) l
  younger : ∀ l₁ b l₂, l = l₁ ++ b :: l₂ → w.ysptr b = l₁.getLast?

theorem Siblings.cptr_eq {w : World ι} {q : Option ι} {l : List ι} (h : w.Siblings q l) : w.cptr q = l.head? :=
  h.chain.head

/-- The list of `exit_notify`, which does not clear the field `p_ysptr` of the next child. -/
structure Row (w : World ι) (q : Option ι) (l : List ι) : Prop where
  chain : Chain (w.elder q) l
  younger : ∀ l₁ a b l₂, l = l₁ ++ a :: b :: l₂ → w.ysptr b = some a

variable {w w' : World ι} {q : Option ι} {l l₁ l₂ : List ι} {a b p : ι}

theorem Siblings.row (h : w.Siblings q l) : w.Row q l := by
  refine ⟨h.chain, fun l₁ a b l₂ hl => ?_⟩
  have hprev := h.younger (l₁ ++ [a]) b l₂ (by rw [hl, append_assoc, singleton_append])
  rwa [List.getLast?_concat] at hprev

theorem Siblings.of_nil (h : w.cptr q = none) : w.Siblings q [] :=
  ⟨Chain.of_empty h, fun _ _ _ hl => absurd hl.symm (by simp)⟩

theorem elder_congr (hq : w'.cptr q = w.cptr q) (ho : ∀ a ∈ l, w'.osptr a = w.osptr a)
    (h : Chain (w.elder q) l) : Chain (w'.elder q) l := h.congr hq ho

theorem Siblings.congr (h : w.Siblings q l) (hq : w'.cptr q = w.cptr q)
    (ha : ∀ a ∈ l, w'.osptr a = w.osptr a ∧ w'.ysptr a = w.ysptr a) : w'.Siblings q l := by
  refine ⟨elder_congr hq (fun a hm => (ha a hm).1) h.chain, fun l₁ b l₂ hl => ?_⟩
  rw [(ha b (by simp [hl])).2]
  exact h.younger l₁ b l₂ hl

/-- The list as a ring, closed by its two ends. -/
def kin (w : World ι) (q : Option ι) (l : List ι) : DLinks ι where
  next := w.elder q
  prev
    | none => l.getLast?
    | some b => w.ysptr b

theorem Siblings.ring (h : w.Siblings q l) : Ring (w.kin q l) l := by
  refine ⟨h.chain.nodup, h.chain.next_eq, fun l₁ l₂ hl => ?_⟩
  cases l₂ with
  | nil =>
    rw [append_nil] at hl
    exact congrArg List.getLast? hl
  | cons b l₂ => exact h.younger l₁ b l₂ hl

theorem Siblings.of_ring (h : Ring (w.kin q l) l) : w.Siblings q l :=
  ⟨h.chain, fun l₁ b l₂ hl => h.prev_eq l₁ (b :: l₂) hl⟩

theorem Row.tail [DecidableEq ι] (h : w.Row q (a :: l)) (hcptr : w'.cptr q = w.osptr a)
    (ho : ∀ b ∈ l, w'.osptr b = w.osptr b ∧ w'.ysptr b = w.ysptr b) : w'.Row q l := by
  refine ⟨h.chain.tail hcptr fun b hb => (ho b hb).1, fun l₁ b c l₂ hl => ?_⟩
  rw [(ho c (by simp [hl])).2]
  exact h.younger (a :: l₁) b c l₂ (by rw [hl, cons_append])

section Edit

variable [DecidableEq ι]

/-! ### The edits of one list -/

theorem update_eq_ite {α : Type*} (f : ι → α) (a : ι) (v : α) (b : ι) :
    update f a v b = if some a = some b then v else f b :=
  (update_apply ..).trans (if_congr (eq_comm.trans (Option.some_inj).symm) rfl rfl)

theorem ysptr_setYounger (w : World ι) (o y : Option ι) (b : ι) :
    (w.setYounger o y).ysptr b = if o = some b then y else w.ysptr b := by
  unfold setYounger
  cases o with
  | none => rw [if_neg (Option.some_ne_none b).symm]
  | some o => exact update_eq_ite w.ysptr o y b

theorem setYounger_eq (w : World ι) (o y : Option ι) :
    w.setYounger o y = { w with ysptr := (w.setYounger o y).ysptr } := by
  cases o <;> rfl

/-- What the second half of `REMOVE_LINKS` does to the fields. -/
structure Unlinked (w : World ι) (p : ι) (w' : World ι) : Prop where
  osptr : ∀ b, w'.osptr b = if w.ysptr p = some b then w.osptr p else w.osptr b
  ysptr : ∀ b, w'.ysptr b = if w.osptr p = some b then w.ysptr p else w.ysptr b
  cptr : ∀ q, w'.cptr q = if w.ysptr p = none ∧ q = w.pptr p then w.osptr p else w.cptr q
  rest : w' = { w with osptr := w'.osptr, ysptr := w'.ysptr, cptr := w'.cptr }

theorem unlinked_unlinkSibling (hp : w.osptr p ≠ some p) : w.Unlinked p (w.unlinkSibling p) := by
  have hyp : (w.setYounger (w.osptr p) (w.ysptr p)).ysptr p = w.ysptr p := by
    rw [ysptr_setYounger, if_neg hp]
  have hyounger := ysptr_setYounger w (w.osptr p) (w.ysptr p)
  unfold unlinkSibling
  dsimp only
  rw [hyp, setYounger_eq]
  split
  case h_1 y hy =>
    refine ⟨fun b => ?_, hyounger, fun q => ?_, rfl⟩
    · rw [hy]
      exact update_eq_ite ..
    · rw [hy, if_neg fun h => Option.some_ne_none y h.1]
  case h_2 hy =>
    refine ⟨fun b => ?_, hyounger, fun q => ?_, rfl⟩
    · rw [hy, if_neg (Option.some_ne_none b).symm]
    · rw [if_congr (and_iff_right hy) rfl rfl]
      exact update_apply ..

/-- What the second half of `SET_LINKS` does to the fields. -/
structure Entered (w : World ι) (p : ι) (w' : World ι) : Prop where
  osptr : ∀ b, w'.osptr b = if b = p then w.cptr (w.pptr p) else w.osptr b
  ysptr : ∀ b, w'.ysptr b = if w.cptr (w.pptr p) = some b then some p else
    if b = p then none else w.ysptr b
  cptr : ∀ q, w'.cptr q = if q = w.pptr p then some p else w.cptr q
  rest : w' = { w with osptr := w'.osptr, ysptr := w'.ysptr, cptr := w'.cptr }

theorem entered_linkSibling (w : World ι) (p : ι) : w.Entered p (w.linkSibling p) := by
  set v := { w with
    ysptr := update w.ysptr p none
    osptr := update w.osptr p (w.cptr (w.pptr p)) } with hv
  have hyounger := ysptr_setYounger v (w.cptr (w.pptr p)) (some p)
  have heq : w.linkSibling p = { v with
      ysptr := (v.setYounger (w.cptr (w.pptr p)) (some p)).ysptr
      cptr := update w.cptr (w.pptr p) (some p) } := by
    unfold linkSibling
    dsimp only
    rw [← hv, update_self, setYounger_eq]
  rw [heq]
  refine ⟨fun b => update_apply .., fun b => ?_, fun q => update_apply .., rfl⟩
  rw [hyounger]
  congr 1
  exact update_apply ..

theorem Siblings.unlink (h : w.Siblings (w.pptr p) (l₁ ++ p :: l₂)) (hw : w.Unlinked p w') :
    w'.Siblings (w.pptr p) (l₁ ++ l₂) := by
  have hring := h.ring.unlink
  apply Siblings.of_ring
  apply hring.congr
  intro q hq
  have hlast := hring.prev_none
  constructor
  · change w'.elder (w.pptr p) q = update (w.elder (w.pptr p)) (w.ysptr p) (w.osptr p) q
    cases q with
    | none =>
      rw [update_apply, if_congr eq_comm rfl rfl]
      exact (hw.cptr _).trans (if_congr (and_iff_left rfl) rfl rfl)
    | some b =>
      rw [update_apply, if_congr eq_comm rfl rfl]
      exact hw.osptr b
  · cases q with
    | none => exact hlast.symm
    | some b =>
      change w'.ysptr b = update (w.kin (w.pptr p) _).prev (w.osptr p) (w.ysptr p) (some b)
      rw [update_apply, if_congr eq_comm rfl rfl]
      exact hw.ysptr b

theorem Siblings.enter (h : w.Siblings (w.pptr p) l) (hp : p ∉ l) (hw : w.Entered p w') :
    w'.Siblings (w.pptr p) (p :: l) := by
  have hins := h.ring.insertFirst hp h.cptr_eq
  have hprev : (w.kin (w.pptr p) l).prev (w.cptr (w.pptr p)) = none := by
    rw [h.cptr_eq]
    exact h.ring.prev_eq [] l rfl
  have hlast := hins.prev_none
  apply Siblings.of_ring
  apply hins.congr
  intro q hq
  unfold DLinks.insertBefore at hlast ⊢
  dsimp only at hlast ⊢
  rw [hprev] at hlast ⊢
  constructor
  · cases q with
    | none =>
      rw [update_self]
      change w'.cptr _ = _
      rw [hw.cptr, if_pos rfl]
    | some b =>
      rw [update_of_ne (Option.some_ne_none b), update_apply]
      exact (hw.osptr b).trans (if_congr Option.some_inj.symm rfl rfl)
  · cases q with
    | none => exact hlast.symm
    | some b =>
      rw [update_apply, update_apply]
      exact (hw.ysptr b).trans (if_congr eq_comm rfl (if_congr Option.some_inj.symm rfl rfl))

end Edit

/-! ### All lists -/

/-- Every task of `S` is once on the ring `order` and once on the list of its parent. -/
structure Kin (w : World ι) (S : Set ι) (order : List ι) (kids : Option ι → List ι) : Prop where
  ring : Ring w.links order
  mem_order : ∀ a, a ∈ order ↔ a ∈ S
  siblings : ∀ q, w.Siblings q (kids q)
  mem_kids : ∀ q a, a ∈ kids q ↔ a ∈ S ∧ w.pptr a = q

variable {S : Set ι} {order : List ι} {kids : Option ι → List ι} {t : ι}

theorem Kin.mem_parent (h : w.Kin S order kids) (hp : p ∈ S) : p ∈ kids (w.pptr p) :=
  (h.mem_kids _ p).mpr ⟨hp, rfl⟩

theorem Kin.congr (h : w.Kin S order kids) (hl : w'.links = w.links) (hc : w'.cptr = w.cptr)
    (ha : ∀ a ∈ S, w'.osptr a = w.osptr a ∧ w'.ysptr a = w.ysptr a ∧ w'.pptr a = w.pptr a) :
    w'.Kin S order kids := by
  refine ⟨hl ▸ h.ring, h.mem_order, fun q => ?_, fun q a => ?_⟩
  · apply (h.siblings q).congr (by rw [hc])
    intro a hm
    have hS := ((h.mem_kids q a).mp hm).1
    exact ⟨(ha a hS).1, (ha a hS).2.1⟩
  · rw [h.mem_kids]
    refine and_congr_right fun hS => ?_
    rw [(ha a hS).2.2]

theorem Kin.osptr_ne (h : w.Kin S order kids) (hp : p ∈ S) : w.osptr p ≠ some p := by
  obtain ⟨k₁, k₂, hk⟩ := append_of_mem (h.mem_parent hp)
  have hsib : w.Siblings (w.pptr p) (k₁ ++ p :: k₂) := hk ▸ h.siblings (w.pptr p)
  have hos : w.osptr p = k₂.head? := hsib.chain.next_some
  rw [hos]
  intro hh
  have hnd := nodup_cons.mp (nodup_middle.mp hsib.chain.nodup)
  exact hnd.1 (mem_append_right k₁ (mem_of_head? hh))

section All

variable [DecidableEq ι]

theorem Kin.removeLinks (h : w.Kin S order kids) (hp : p ∈ S) :
    ∃ order' kids', (w.removeLinks p).Kin (S \ {p}) order' kids' := by
  obtain ⟨o₁, o₂, ho⟩ := append_of_mem ((h.mem_order p).mpr hp)
  obtain ⟨k₁, k₂, hk⟩ := append_of_mem (h.mem_parent hp)
  have hsib : w.Siblings (w.pptr p) (k₁ ++ p :: k₂) := hk ▸ h.siblings (w.pptr p)
  have hnd := nodup_cons.mp (nodup_middle.mp hsib.chain.nodup)
  have hring : Ring w.links (o₁ ++ p :: o₂) := ho ▸ h.ring
  have hos : w.osptr p = k₂.head? := hsib.chain.next_some
  have hys : w.ysptr p = k₁.getLast? := hsib.younger k₁ p k₂ rfl
  set v := { w with links := w.links.unlink p }
  have hun : v.Unlinked p (v.unlinkSibling p) := unlinked_unlinkSibling (w := v) (h.osptr_ne hp)
  -- the neighbours of the task have the same parent
  have hpar : ∀ q a, a ∈ kids q → q ≠ w.pptr p → w.osptr p ≠ some a ∧ w.ysptr p ≠ some a := by
    intro q a ha hq
    have hnot : a ∉ k₁ ++ p :: k₂ := by
      intro hm
      rw [← hk] at hm
      exact hq (((h.mem_kids q a).mp ha).2.symm.trans ((h.mem_kids _ a).mp hm).2)
    constructor
    · intro hh
      rw [hos] at hh
      exact hnot (mem_append_right _ (mem_cons_of_mem p (mem_of_head? hh)))
    · intro hh
      rw [hys] at hh
      exact hnot (mem_append_left _ (mem_of_getLast? hh))
  have hpptr : (w.removeLinks p).pptr = w.pptr := (congrArg World.pptr hun.rest).trans rfl
  have hlinks : (w.removeLinks p).links = w.links.unlink p := (congrArg World.links hun.rest).trans rfl
  refine ⟨o₁ ++ o₂, update kids (w.pptr p) (k₁ ++ k₂), ?_, fun a => ?_, fun q => ?_, fun q a => ?_⟩
  · rw [hlinks]
    exact hring.unlink
  · have hm := h.mem_order a
    rw [ho, mem_append, mem_cons] at hm
    rw [mem_append, Set.mem_sdiff, Set.mem_singleton_iff, ← hm]
    have hne : a ∈ o₁ ∨ a ∈ o₂ → a ≠ p := by
      rintro hor rfl
      exact hring.notMem (mem_append.mpr hor)
    tauto
  · by_cases hq : q = w.pptr p
    · subst hq
      rw [update_self]
      have hsibv : v.Siblings (v.pptr p) (k₁ ++ p :: k₂) := hsib.congr rfl fun _ _ => ⟨rfl, rfl⟩
      exact hsibv.unlink hun
    · rw [update_of_ne hq]
      apply (h.siblings q).congr
      · refine (hun.cptr q).trans (if_neg fun hh => hq hh.2)
      · intro a ha
        exact ⟨(hun.osptr a).trans (if_neg (hpar q a ha hq).2),
          (hun.ysptr a).trans (if_neg (hpar q a ha hq).1)⟩
  · rw [hpptr, Set.mem_sdiff, Set.mem_singleton_iff]
    by_cases hq : q = w.pptr p
    · subst hq
      have hm := h.mem_kids (w.pptr p) a
      rw [hk, mem_append, mem_cons] at hm
      rw [update_self, mem_append]
      have hne : a ∈ k₁ ∨ a ∈ k₂ → a ≠ p := by
        rintro hor rfl
        exact hnd.1 (mem_append.mpr hor)
      tauto
    · rw [update_of_ne hq, h.mem_kids]
      have hne : w.pptr a = q → a ≠ p := by
        rintro rfl rfl
        exact hq rfl
      tauto

theorem Kin.setLinks (h : w.Kin S order kids) (hp : p ∉ S) :
    ∃ order' kids', (w.setLinks p).Kin (insert p S) order' kids' := by
  have hpo : p ∉ order := fun hm => hp ((h.mem_order p).mp hm)
  have hpk : ∀ q, p ∉ kids q := fun q hm => hp ((h.mem_kids q p).mp hm).1
  set v := { w with links := w.links.insertBefore none p }
  have hen : v.Entered p (v.linkSibling p) := entered_linkSibling v p
  have hpptr : (w.setLinks p).pptr = w.pptr := (congrArg World.pptr hen.rest).trans rfl
  have hlinks : (w.setLinks p).links = w.links.insertBefore none p := (congrArg World.links hen.rest).trans rfl
  refine ⟨order ++ [p], update kids (w.pptr p) (p :: kids (w.pptr p)), ?_, fun a => ?_,
    fun q => ?_, fun q a => ?_⟩
  · rw [hlinks]
    have hring : Ring w.links (order ++ []) := by
      rw [append_nil]
      exact h.ring
    exact hring.insertBefore (by rwa [append_nil]) rfl
  · rw [mem_append, mem_singleton, h.mem_order, Set.mem_insert_iff]
    tauto
  · by_cases hq : q = w.pptr p
    · subst hq
      rw [update_self]
      have hsibv : v.Siblings (v.pptr p) (kids (w.pptr p)) := (h.siblings _).congr rfl fun _ _ => ⟨rfl, rfl⟩
      exact hsibv.enter (hpk _) hen
    · rw [update_of_ne hq]
      apply (h.siblings q).congr
      · exact (hen.cptr q).trans (if_neg hq)
      · intro a ha
        have hap : a ≠ p := by
          rintro rfl
          exact hpk q ha
        have hca : w.cptr (w.pptr p) ≠ some a := by
          rw [(h.siblings _).cptr_eq]
          intro hh
          exact hq (((h.mem_kids q a).mp ha).2.symm.trans ((h.mem_kids _ a).mp (mem_of_head? hh)).2)
        exact ⟨(hen.osptr a).trans (if_neg hap), (hen.ysptr a).trans ((if_neg hca).trans (if_neg hap))⟩
  · rw [hpptr, Set.mem_insert_iff]
    by_cases hq : q = w.pptr p
    · subst hq
      rw [update_self, mem_cons, h.mem_kids]
      tauto
    rw [update_of_ne hq, h.mem_kids]
    have hpp : a = p → w.pptr a ≠ q := by
      rintro rfl hh
      exact hq hh.symm
    tauto

/-! ### The loop of `exit_notify` -/

/-- The loop of `exit_notify` of `t` with the children `rest` to come. -/
structure Passing (w : World ι) (S : Set ι) (t : ι) (order : List ι) (kids : Option ι → List ι)
    (rest : List ι) : Prop where
  ring : Ring w.links order
  mem_order : ∀ a, a ∈ order ↔ a ∈ S
  siblings : ∀ q, q ≠ some t → w.Siblings q (kids q)
  mem_kids : ∀ q a, q ≠ some t → (a ∈ kids q ↔ a ∈ S ∧ w.pptr a = q)
  row : w.Row (some t) rest
  mem_rest : ∀ a, a ∈ rest ↔ a ∈ S ∧ w.pptr a = some t

variable {rest : List ι}

omit [DecidableEq ι] in
theorem Kin.passing (h : w.Kin S order kids) (t : ι) : w.Passing S t order kids (kids (some t)) :=
  ⟨h.ring, h.mem_order, fun q _ => h.siblings q, fun q a _ => h.mem_kids q a, (h.siblings _).row,
    h.mem_kids (some t)⟩

theorem Passing.kin (h : w.Passing S t order kids []) : w.Kin S order (update kids (some t) []) := by
  have hnil : w.Siblings (some t) [] := .of_nil h.row.chain.head
  refine ⟨h.ring, h.mem_order, fun q => ?_, fun q a => ?_⟩
  · by_cases hq : q = some t
    · subst hq
      rw [update_self]
      exact hnil
    · rw [update_of_ne hq]
      exact h.siblings q hq
  · by_cases hq : q = some t
    · subst hq
      rw [update_self]
      exact h.mem_rest a
    · rw [update_of_ne hq]
      exact h.mem_kids q a hq

theorem passChild_eq (w : World ι) (t a : ι) : w.passChild t a = { w with
    osptr := (w.passChild t a).osptr
    ysptr := (w.passChild t a).ysptr
    cptr := (w.passChild t a).cptr
    pptr := update w.pptr a (w.opptr a) } :=
  (entered_linkSibling { w with
    cptr := update w.cptr (some t) (w.osptr a)
    pptr := update w.pptr a (w.opptr a) } a).rest

theorem Passing.pass (h : w.Passing S t order kids (a :: rest)) (ha : w.opptr a ≠ some t) :
    ∃ kids', (w.passChild t a).Passing S t order kids' rest := by
  obtain ⟨haS, hat⟩ := (h.mem_rest a).mp mem_cons_self
  have hnd := nodup_cons.mp h.row.chain.nodup
  set q' := w.opptr a
  set v := { w with
    cptr := update w.cptr (some t) (w.osptr a)
    pptr := update w.pptr a (w.opptr a) } with hv
  have hen : v.Entered a (w.passChild t a) := entered_linkSibling v a
  have hvp : v.pptr a = q' := update_self ..
  have hvc : ∀ q, q ≠ some t → v.cptr q = w.cptr q := fun q hq => update_of_ne hq ..
  have hpptr : (w.passChild t a).pptr = update w.pptr a q' :=
    (congrArg World.pptr (passChild_eq w t a)).trans rfl
  have hlinks : (w.passChild t a).links = w.links := (congrArg World.links (passChild_eq w t a)).trans rfl
  have hak : a ∉ kids q' := by
    intro hm
    exact ha (((h.mem_kids q' a ha).mp hm).2.symm.trans hat)
  -- the fields of the tasks on other lists
  have hframe : ∀ b, b ≠ a → w.cptr q' ≠ some b →
      (w.passChild t a).osptr b = w.osptr b ∧ (w.passChild t a).ysptr b = w.ysptr b := by
    intro b hb hc
    refine ⟨(hen.osptr b).trans (if_neg hb), (hen.ysptr b).trans ?_⟩
    rw [hvp, hvc q' ha, if_neg hc]
    exact if_neg hb
  have hcptr : ∀ q, q ≠ q' → (w.passChild t a).cptr q = v.cptr q := by
    intro q hq
    rw [hen.cptr, hvp]
    exact if_neg hq
  refine ⟨update kids q' (a :: kids q'), hlinks ▸ h.ring, h.mem_order, fun q hq => ?_,
    fun q b hq => ?_, ?_, fun b => ?_⟩
  · by_cases hqq : q = q'
    · rw [hqq, update_self]
      have hsib : v.Siblings (v.pptr a) (kids q') := by
        rw [hvp]
        exact (h.siblings q' ha).congr (hvc q' ha) fun _ _ => ⟨rfl, rfl⟩
      have hent := hsib.enter hak hen
      rwa [hvp] at hent
    · rw [update_of_ne hqq]
      apply (h.siblings q hq).congr ((hcptr q hqq).trans (hvc q hq))
      intro b hb
      apply hframe
      · rintro rfl
        exact hq (((h.mem_kids q b hq).mp hb).2.symm.trans hat)
      · rw [(h.siblings q' ha).cptr_eq]
        intro hh
        exact hqq (((h.mem_kids q b hq).mp hb).2.symm.trans ((h.mem_kids q' b ha).mp (mem_of_head? hh)).2)
  · rw [hpptr]
    obtain rfl | hb := eq_or_ne b a
    · rw [update_self]
      by_cases hqq : q = q'
      · rw [hqq, update_self]
        exact iff_of_true mem_cons_self ⟨haS, rfl⟩
      · rw [update_of_ne hqq, h.mem_kids q b hq, hat]
        exact iff_of_false (fun hh => hq hh.2.symm) fun hh => hqq hh.2.symm
    · rw [update_of_ne hb]
      by_cases hqq : q = q'
      · rw [hqq, update_self, mem_cons, or_iff_right hb]
        exact h.mem_kids q' b ha
      · rw [update_of_ne hqq]
        exact h.mem_kids q b hq
  · apply h.row.tail
    · rw [hcptr _ ha.symm]
      exact update_self ..
    · intro b hb
      apply hframe
      · rintro rfl
        exact hnd.1 hb
      · rw [(h.siblings q' ha).cptr_eq]
        intro hh
        exact ha (((h.mem_kids q' b ha).mp (mem_of_head? hh)).2.symm.trans
          ((h.mem_rest b).mp (mem_cons_of_mem a hb)).2)
  · rw [hpptr]
    have hm := h.mem_rest b
    rw [mem_cons] at hm
    obtain rfl | hb := eq_or_ne b a
    · rw [update_self]
      exact iff_of_false hnd.1 fun hh => ha hh.2
    · rw [update_of_ne hb, ← hm, or_iff_right hb]

end All

end World

end I370Linux.FamilyTree
