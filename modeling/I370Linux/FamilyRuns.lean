import I370Linux.Census
import I370Linux.FamilyKin

/-! # The family tree over runs

`Sound` is the state between the calls: the lists and the ring (`Kin`), the hash of the pids, and no
pointer to a parent that is a zombie, except for `child_reaper`; so a zombie that is reaped leaves no
pointer to it.  `KeepsTree` is the condition on the calls, and `tree_of_keepsTree` says what holds in
every state of a run whose calls meet it. -/

namespace I370Linux.FamilyTree

open Runs Links Function List
open Option (map_eq_some_iff some_ne_none)

variable {ι : Type*}

namespace World

variable {w w' : World ι} {S : Set ι} {order rest : List ι} {kids : Option ι → List ι} {t p a : ι}
  {father : ι} {l : List ι} {q : Option ι} {fuel pid : ℕ}

/-! ### The state between the calls -/

/-- A parent: `init_task`, or a task in use that has not exited unless it is `child_reaper`. -/
def Parent (w : World ι) (q : Option ι) : Prop :=
  ∀ b, q = some b → w.used b = true ∧ (w.zombie b = true → w.childReaper = some b)

/-- The invariant of the process table. -/
structure Sound (w : World ι) : Prop where
  kin : ∃ order kids, w.Kin {a | w.used a = true} order kids
  hash_nodup : ∀ h, (w.hash h).Nodup
  mem_hash : ∀ h a, a ∈ w.hash h ↔ w.used a = true ∧ pidHashfn (w.pid a) = h
  pid_inj : ∀ a b, w.used a = true → w.used b = true → w.pid a = w.pid b → a = b
  pptr : ∀ a, w.used a = true → w.Parent (w.pptr a)
  opptr : ∀ a, w.used a = true → w.Parent (w.opptr a)
  reaper : ∀ r, w.childReaper = some r → w.used r = true ∧ w.opptr r = none
  waiting : ∀ t p, w.waiting t = some p → w.used t = true ∧ w.zombie t = false ∧
    w.used p = true ∧ w.zombie p = true ∧ w.pptr p = some t

/-- The family tree: the ring and the lists of children, the hash, and the parents, none of which is
reaped. -/
structure Tree (w : World ι) : Prop where
  kin : ∃ order kids, w.Kin {a | w.used a = true} order kids
  found : ∀ n a, w.findTaskByPid n = some a ↔ w.used a = true ∧ w.pid a = n
  parents : ∀ a b, w.used a = true → w.pptr a = some b ∨ w.opptr a = some b → w.used b = true

theorem Sound.tree (h : w.Sound) : w.Tree := by
  refine ⟨h.kin, fun n a => ?_, fun a b ha hb => ?_⟩
  · unfold findTaskByPid
    constructor
    · intro hf
      have hpid : w.pid a = n := by
        have hp := List.find?_some hf
        exact of_decide_eq_true hp
      exact ⟨((h.mem_hash _ a).mp (mem_of_find?_eq_some hf)).1, hpid⟩
    · rintro ⟨ha, rfl⟩
      have hmem : a ∈ w.hash (pidHashfn (w.pid a)) := (h.mem_hash _ a).mpr ⟨ha, rfl⟩
      obtain ⟨b, hb⟩ : ∃ b, (w.hash (pidHashfn (w.pid a))).find? (fun b => w.pid b = w.pid a) = some b :=
        Option.isSome_iff_exists.mp (List.find?_isSome.mpr ⟨a, hmem, decide_eq_true rfl⟩)
      have hpid : w.pid b = w.pid a := by
        have hp := List.find?_some hb
        exact of_decide_eq_true hp
      rw [hb, h.pid_inj b a ((h.mem_hash _ b).mp (mem_of_find?_eq_some hb)).1 ha hpid]
  · exact hb.elim (fun hb => (h.pptr a ha b hb).1) fun hb => (h.opptr a ha b hb).1

theorem Sound.ne_unused (h : w.Sound) (hp : w.used p = false) (ha : w.used a = true) :
    w.pptr a ≠ some p ∧ w.opptr a ≠ some p := by
  constructor <;> intro he
  · have hu := (h.pptr a ha p he).1
    rw [hp] at hu
    cases hu
  · have hu := (h.opptr a ha p he).1
    rw [hp] at hu
    cases hu

theorem Parent.mono {q : Option ι} (h : w.Parent q) (hu : ∀ b, q = some b → w.used b = true → w'.used b = true)
    (hz : ∀ b, q = some b → w'.zombie b = true → w.zombie b = true ∨ w'.childReaper = some b)
    (hr : w'.childReaper = w.childReaper) : w'.Parent q := by
  intro b hb
  obtain ⟨hused, hzombie⟩ := h b hb
  refine ⟨hu b hb hused, fun hz' => ?_⟩
  obtain hzb | hrb := hz b hb hz'
  · rw [hr]
    exact hzombie hzb
  · exact hrb

/-- Only the links to the kin differ. -/
structure Relinked (w w' : World ι) : Prop where
  opptr : w'.opptr = w.opptr
  pid : w'.pid = w.pid
  hash : w'.hash = w.hash
  zombie : w'.zombie = w.zombie
  childReaper : w'.childReaper = w.childReaper
  used : w'.used = w.used
  waiting : w'.waiting = w.waiting

theorem Relinked.trans {v : World ι} (h : w.Relinked v) (h' : v.Relinked w') : w.Relinked w' :=
  ⟨h'.opptr.trans h.opptr, h'.pid.trans h.pid, h'.hash.trans h.hash, h'.zombie.trans h.zombie,
    h'.childReaper.trans h.childReaper, h'.used.trans h.used, h'.waiting.trans h.waiting⟩

/-- A zombie in the list of a task that is not `child_reaper` has left no pointers. -/
theorem Sound.ne_zombie (h : w.Sound) (hz : w.zombie p = true) (hr : w.childReaper ≠ some p)
    (ha : w.used a = true) : w.pptr a ≠ some p ∧ w.opptr a ≠ some p :=
  ⟨fun he => hr ((h.pptr a ha p he).2 hz), fun he => hr ((h.opptr a ha p he).2 hz)⟩

theorem Siblings.osptr_mem {b : ι} (h : w.Siblings q l) (ha : a ∈ l) (hb : w.osptr a = some b) : b ∈ l := by
  obtain ⟨l₁, l₂, rfl⟩ := append_of_mem ha
  have hos : w.osptr a = l₂.head? := h.chain.next_some
  rw [hos] at hb
  exact mem_append_right l₁ (mem_cons_of_mem a (mem_of_head? hb))

theorem Sound.init (h : w.Sound) (ht : w.used t = true) (hn : w.childReaper = none) (ho : w.opptr t = none) :
    { w with childReaper := some t }.Sound := by
  obtain ⟨order, kids, hkin⟩ := h.kin
  have hparent : ∀ q, w.Parent q → { w with childReaper := some t }.Parent q := by
    intro q hq b hb
    obtain ⟨hu, hz⟩ := hq b hb
    refine ⟨hu, fun hzb => ?_⟩
    have hr := hz hzb
    rw [hn] at hr
    cases hr
  refine ⟨⟨order, kids, hkin.congr rfl rfl fun _ _ => ⟨rfl, rfl, rfl⟩⟩, h.hash_nodup, h.mem_hash, h.pid_inj,
    fun a ha => hparent _ (h.pptr a ha), fun a ha => hparent _ (h.opptr a ha), fun r hr => ?_, h.waiting⟩
  obtain rfl : t = r := Option.some.inj hr
  exact ⟨ht, ho⟩

theorem Passing.cptr_eq (h : w.Passing S t order kids rest) : w.cptr (some t) = rest.head? :=
  h.row.chain.head
variable [DecidableEq ι]

/-! ### The loops of `exit_notify` -/

/-- What `forget_original_parent` leaves behind for the tasks `l`. -/
def forgotten (w : World ι) (father : ι) (l : List ι) : World ι :=
  { w with opptr := fun a => if a ∈ l ∧ w.opptr a = some father then w.childReaper else w.opptr a }

theorem forgotten_forgotten (ha : a ∉ l) :
    (w.forgotten father [a]).forgotten father l = w.forgotten father (a :: l) := by
  unfold forgotten
  congr 1
  funext b
  obtain rfl | hb := eq_or_ne b a
  · simp [ha]
  · simp [hb]

theorem forgotten_singleton (w : World ι) (father a : ι) : (if w.opptr a = some father then
    { w with opptr := update w.opptr a w.childReaper } else w) = w.forgotten father [a] := by
  unfold forgotten
  split
  case isTrue hf =>
    congr 1
    funext b
    rw [update_apply]
    refine if_congr ⟨?_, fun h => mem_singleton.mp h.1⟩ rfl rfl
    rintro rfl
    exact ⟨mem_singleton_self b, hf⟩
  case isFalse hf =>
    refine congrArg (fun f => { w with opptr := f }) (funext fun b => (if_neg ?_).symm)
    rintro ⟨hb, h⟩
    exact hf (mem_singleton.mp hb ▸ h)

theorem forgetOriginalParent_eq (l : List ι) : ∀ (fuel : ℕ) (w : World ι) (q : Option ι),
    Linked (fun a => w.links.next (some a)) q l → l.Nodup → w.forgetOriginalParent father fuel q =
      if l.length < fuel then some (w.forgotten father l) else none := by
  induction l with
  | nil =>
    intro fuel w q hq _
    obtain rfl : q = none := hq
    cases fuel with
    | zero => rfl
    | succ fuel => simp [forgetOriginalParent, forgotten]
  | cons a l ih =>
    intro fuel w q hq hnd
    obtain ⟨rfl, hq⟩ := hq
    have hnd := nodup_cons.mp hnd
    cases fuel with
    | zero => rfl
    | succ fuel =>
      unfold forgetOriginalParent
      have hrest := ih fuel (w.forgotten father [a]) ((w.forgotten father [a]).links.next (some a)) hq hnd.2
      rw [forgotten_singleton, ← forgotten_forgotten hnd.1, hrest, length_cons]
      simp only [Nat.add_lt_add_iff_right]

/-- What the loop of `exit_notify` does, apart from the lists. -/
structure Passed (w : World ι) (S : Set ι) (t : ι) (w' : World ι) : Prop where
  rest : w' = { w with osptr := w'.osptr, ysptr := w'.ysptr, cptr := w'.cptr, pptr := w'.pptr }
  pptr : ∀ a ∈ S, w'.pptr a = if w.pptr a = some t then w.opptr a else w.pptr a

theorem Passing.run (fuel : ℕ) : ∀ {w : World ι} {kids : Option ι → List ι} {rest : List ι},
    w.Passing S t order kids rest → (∀ a ∈ rest, w.opptr a ≠ some t) →
    (rest.length < fuel → (w.passChildren t fuel).isSome) ∧
    ∀ w', w.passChildren t fuel = some w' → (∃ kids', w'.Kin S order kids') ∧ w.Passed S t w' := by
  induction fuel with
  | zero => exact fun _ _ => ⟨fun h => absurd h (Nat.not_lt_zero _), fun _ h => absurd h.symm (some_ne_none _)⟩
  | succ fuel ih =>
    intro w kids rest h hne
    unfold passChildren
    rw [h.cptr_eq]
    cases rest with
    | nil =>
      refine ⟨fun _ => rfl, fun w' hw' => ?_⟩
      obtain rfl : w = w' := Option.some.inj hw'
      refine ⟨⟨_, h.kin⟩, rfl, fun a ha => ?_⟩
      rw [if_neg]
      intro hp
      exact absurd ((h.mem_rest a).mpr ⟨ha, hp⟩) not_mem_nil
    | cons a rest =>
      have hat := ((h.mem_rest a).mp mem_cons_self).2
      have hne' := hne a mem_cons_self
      obtain ⟨kids', hpass⟩ := h.pass hne'
      have heq := passChild_eq w t a
      have hopptr : (w.passChild t a).opptr = w.opptr := (congrArg World.opptr heq).trans rfl
      obtain ⟨hsome, hspec⟩ := ih hpass fun b hb => by
        rw [hopptr]
        exact hne b (mem_cons_of_mem a hb)
      refine ⟨fun hlt => hsome (Nat.lt_of_succ_lt_succ hlt), fun w' hw' => ?_⟩
      obtain ⟨hkin, hpassed⟩ := hspec w' hw'
      refine ⟨hkin, ?_, fun b hb => ?_⟩
      · rw [heq] at hpassed
        exact hpassed.rest
      · have hpptr : (w.passChild t a).pptr = update w.pptr a (w.opptr a) :=
          (congrArg World.pptr heq).trans rfl
        rw [hpassed.pptr b hb, hpptr, hopptr]
        obtain rfl | hba := eq_or_ne b a
        · rw [update_self, if_neg hne', if_pos hat]
        · rw [update_of_ne hba]

/-- A child whose original parent is the task itself comes back to the front of the list. -/
theorem Passing.repass (h : w.Passing S t order kids (a :: rest)) (ha : w.opptr a = some t) :
    (w.passChild t a).Passing S t order kids (a :: rest) := by
  obtain ⟨haS, hat⟩ := (h.mem_rest a).mp mem_cons_self
  have hnd := nodup_cons.mp h.row.chain.nodup
  set v := { w with
    cptr := update w.cptr (some t) (w.osptr a)
    pptr := update w.pptr a (w.opptr a) } with hv
  have hen : v.Entered a (w.passChild t a) := entered_linkSibling v a
  have hvp : v.pptr a = some t := (update_self ..).trans ha
  have hvc : v.cptr (some t) = w.osptr a := update_self ..
  have hos : w.osptr a = rest.head? := h.row.chain.next_eq [a] rest rfl
  have hpptr : (w.passChild t a).pptr = w.pptr := by
    refine (congrArg World.pptr (passChild_eq w t a)).trans ?_
    rw [ha, ← hat]
    exact update_eq_self a w.pptr
  have hlinks : (w.passChild t a).links = w.links := (congrArg World.links (passChild_eq w t a)).trans rfl
  have hosptr : ∀ b, (w.passChild t a).osptr b = w.osptr b := by
    intro b
    rw [hen.osptr, hvp, hvc]
    by_cases hb : b = a
    · rw [if_pos hb, hb]
    · exact if_neg hb
  have hysptr : ∀ b, rest.head? ≠ some b → b ≠ a → (w.passChild t a).ysptr b = w.ysptr b := by
    intro b hb hba
    rw [hen.ysptr, hvp, hvc, hos, if_neg hb]
    exact if_neg hba
  have hother : ∀ q, q ≠ some t → (w.passChild t a).cptr q = w.cptr q := by
    intro q hq
    rw [hen.cptr, hvp, if_neg hq]
    exact update_of_ne hq ..
  have hcptr : (w.passChild t a).cptr (some t) = some a := by
    rw [hen.cptr, hvp, if_pos rfl]
  refine ⟨hlinks ▸ h.ring, h.mem_order, fun q hq => ?_, fun q b hq => ?_, ⟨?_, ?_⟩, fun b => ?_⟩
  · apply (h.siblings q hq).congr (hother q hq)
    intro b hb
    have hbt := ((h.mem_kids q b hq).mp hb).2
    refine ⟨hosptr b, hysptr b (fun hh => ?_) fun hba => ?_⟩
    · have hbr := ((h.mem_rest b).mp (mem_cons_of_mem a (mem_of_head? hh))).2
      exact hq (hbt.symm.trans hbr)
    · rw [hba] at hbt
      exact hq (hbt.symm.trans hat)
  · rw [hpptr]
    exact h.mem_kids q b hq
  · apply elder_congr (w := w) _ (fun b _ => hosptr b) h.row.chain
    rw [hcptr]
    exact h.row.chain.head.symm
  · intro l₁ b c l₂ hl
    cases l₁ with
    | nil =>
      obtain ⟨rfl, hrest⟩ := List.cons.inj hl
      have hhead : rest.head? = some c := by
        rw [hrest]
        rfl
      rw [hen.ysptr, hvp, hvc, hos, if_pos hhead]
    | cons d l₁ =>
      obtain ⟨rfl, hrest⟩ : a = d ∧ rest = l₁ ++ b :: c :: l₂ := List.cons.inj hl
      rw [hysptr c, h.row.younger (a :: l₁) b c l₂ hl]
      · -- the second child is not behind another one
        rw [hrest] at hnd ⊢
        intro hh
        have hnd' := hnd.2
        cases l₁ with
        | nil | cons e l₁ =>
          rw [Option.some.inj hh] at hnd'
          simp at hnd'
      · rintro rfl
        exact hnd.1 (by rw [hrest]; simp)
  · rw [hpptr]
    exact h.mem_rest b

theorem Passing.stuck (fuel : ℕ) : ∀ {w : World ι} {kids : Option ι → List ι} {rest : List ι},
    w.Passing S t order kids rest → a ∈ rest → w.opptr a = some t → w.passChildren t fuel = none := by
  induction fuel with
  | zero => exact fun _ _ _ => rfl
  | succ fuel ih =>
    intro w kids rest h ha hopp
    cases rest with
    | nil => cases ha
    | cons b rest =>
      have hopptr : (w.passChild t b).opptr = w.opptr := (congrArg World.opptr (passChild_eq w t b)).trans rfl
      unfold passChildren
      rw [h.cptr_eq]
      by_cases hb : w.opptr b = some t
      · exact ih (h.repass hb) ha (by rw [hopptr]; exact hopp)
      obtain ⟨kids', hpass⟩ := h.pass hb
      have hab : a ≠ b := by
        rintro rfl
        exact hb hopp
      exact ih hpass ((mem_cons.mp ha).resolve_left hab) (by rw [hopptr]; exact hopp)

/-! ### The calls -/

/-- The task goes from the list of its parent to that of another. -/
def moveTo (w : World ι) (p : ι) (q : Option ι) : World ι :=
  let w := w.removeLinks p
  { w with pptr := update w.pptr p q }.setLinks p

theorem relinked_removeLinks (hp : w.osptr p ≠ some p) :
    w.Relinked (w.removeLinks p) ∧ (w.removeLinks p).pptr = w.pptr := by
  have hrest := (unlinked_unlinkSibling (w := { w with links := w.links.unlink p }) hp).rest
  refine ⟨?_, (congrArg World.pptr hrest).trans rfl⟩
  unfold removeLinks
  rw [hrest]
  exact ⟨rfl, rfl, rfl, rfl, rfl, rfl, rfl⟩

theorem relinked_setLinks (w : World ι) (p : ι) :
    w.Relinked (w.setLinks p) ∧ (w.setLinks p).pptr = w.pptr := by
  have hrest := (entered_linkSibling { w with links := w.links.insertBefore none p } p).rest
  refine ⟨?_, (congrArg World.pptr hrest).trans rfl⟩
  unfold setLinks
  rw [hrest]
  exact ⟨rfl, rfl, rfl, rfl, rfl, rfl, rfl⟩

theorem Kin.moveTo (h : w.Kin S order kids) (hp : p ∈ S) (q : Option ι) :
    (∃ order' kids', (w.moveTo p q).Kin S order' kids') ∧ w.Relinked (w.moveTo p q) ∧
      (w.moveTo p q).pptr = update w.pptr p q := by
  obtain ⟨o₁, k₁, hkin⟩ := h.removeLinks hp
  obtain ⟨hrel, hpptr⟩ := relinked_removeLinks (h.osptr_ne hp)
  set v := { w.removeLinks p with pptr := update (w.removeLinks p).pptr p q } with hv
  have hset : v.Kin (S \ {p}) o₁ k₁ := by
    refine hkin.congr rfl rfl fun a ha => ⟨rfl, rfl, update_of_ne ?_ ..⟩
    exact ha.2
  obtain ⟨o₂, k₂, hkin'⟩ := hset.setLinks fun hm => hm.2 rfl
  obtain ⟨hrel', hpptr'⟩ := relinked_setLinks v p
  rw [Set.insert_sdiff_self_of_mem hp] at hkin'
  refine ⟨⟨o₂, k₂, hkin'⟩, ?_, ?_⟩
  · have hrelv : w.Relinked v := { hrel with }
    exact hrelv.trans hrel'
  · refine hpptr'.trans ?_
    rw [hv]
    rw [hpptr]

section

variable (h : w.Sound) (hp : w.used p = true) (hwait : ∀ u, w.waiting u ≠ some p)
include h hp hwait

theorem Sound.moveTo (hq : w.Parent q) : (w.moveTo p q).Sound := by
  obtain ⟨order, kids, hkin⟩ := h.kin
  obtain ⟨⟨order', kids', hkin'⟩, hrel, hpptr⟩ := hkin.moveTo hp q
  have hparent : ∀ r, w.Parent r → (w.moveTo p q).Parent r := by
    intro r hr b hb
    rw [hrel.used, hrel.zombie, hrel.childReaper]
    exact hr b hb
  refine ⟨⟨order', kids', by rw [hrel.used]; exact hkin'⟩, by rw [hrel.hash]; exact h.hash_nodup, ?_, ?_,
    fun a ha => ?_, fun a ha => ?_, ?_, fun t c hw => ?_⟩
  · rw [hrel.hash, hrel.used, hrel.pid]
    exact h.mem_hash
  · rw [hrel.used, hrel.pid]
    exact h.pid_inj
  · rw [hrel.used] at ha
    rw [hpptr]
    apply hparent
    obtain rfl | hap := eq_or_ne a p
    · rw [update_self]
      exact hq
    · rw [update_of_ne hap]
      exact h.pptr a ha
  · rw [hrel.used] at ha
    rw [hrel.opptr]
    exact hparent _ (h.opptr a ha)
  · rw [hrel.childReaper, hrel.used, hrel.opptr]
    exact h.reaper
  · rw [hrel.waiting] at hw
    obtain ⟨htu, htz, hcu, hcz, hct⟩ := h.waiting t c hw
    have hcp : c ≠ p := by
      rintro rfl
      exact hwait t hw
    rw [hrel.used, hrel.zombie, hpptr, update_of_ne hcp]
    exact ⟨htu, htz, hcu, hcz, hct⟩

theorem Sound.attach (ht : w.Runs t) : (w.attach t p).Sound := by
  refine h.moveTo hp hwait (q := some t) ?_
  intro b hb
  rw [← Option.some.inj hb]
  refine ⟨ht.1, fun hz => ?_⟩
  rw [ht.2.1] at hz
  cases hz

theorem Sound.release (hz : w.zombie p = true) (hr : w.childReaper ≠ some p) : (w.release p).Sound := by
  obtain ⟨order, kids, hkin⟩ := h.kin
  have hkinu : (w.unhashPid p).Kin {a | w.used a = true} order kids :=
    hkin.congr rfl rfl fun _ _ => ⟨rfl, rfl, rfl⟩
  obtain ⟨order', kids', hkin'⟩ := hkinu.removeLinks hp
  obtain ⟨hrel, hpptr⟩ := relinked_removeLinks (hkinu.osptr_ne hp)
  set v := (w.unhashPid p).removeLinks p
  have hused : ∀ a, (w.release p).used a = true ↔ w.used a = true ∧ a ≠ p := by
    intro a
    change update v.used p false a = true ↔ _
    rw [hrel.used]
    obtain rfl | hap := eq_or_ne a p
    · simp
    · simp [hap, unhashPid]
  have hzombie : (w.release p).zombie = w.zombie := hrel.zombie
  have hreaper : (w.release p).childReaper = w.childReaper := hrel.childReaper
  have hopptr : (w.release p).opptr = w.opptr := hrel.opptr
  have hpptr' : (w.release p).pptr = w.pptr := hpptr
  have hpid : (w.release p).pid = w.pid := hrel.pid
  have hwaiting : (w.release p).waiting = w.waiting := hrel.waiting
  have hhash : ∀ i, (w.release p).hash i = (w.hash i).erase p := fun i => congrFun hrel.hash i
  have hparent : ∀ q, w.Parent q → q ≠ some p → (w.release p).Parent q := by
    intro q hq hqp
    refine hq.mono (fun b hb hu => (hused b).mpr ⟨hu, ?_⟩) (fun b _ hzb => .inl ?_) hreaper
    · rintro rfl
      exact hqp hb
    · rwa [hzombie] at hzb
  have hne : ∀ a, w.used a = true → w.pptr a ≠ some p ∧ w.opptr a ≠ some p := fun a ha => h.ne_zombie hz hr ha
  refine ⟨⟨order', kids', ?_⟩, fun i => ?_, fun i a => ?_, fun a b ha hb => ?_, fun a ha => ?_,
    fun a ha => ?_, fun r hr' => ?_, fun t c hw => ?_⟩
  · have hS : {a | (w.release p).used a = true} = {a | w.used a = true} \ {p} := Set.ext hused
    rw [hS]
    exact hkin'.congr rfl rfl fun _ _ => ⟨rfl, rfl, rfl⟩
  · rw [hhash]
    exact (h.hash_nodup i).erase p
  · rw [hhash, hused, (h.hash_nodup i).mem_erase_iff, h.mem_hash, hpid]
    tauto
  · rw [hpid]
    exact h.pid_inj a b ((hused a).mp ha).1 ((hused b).mp hb).1
  · rw [hpptr']
    exact hparent _ (h.pptr a ((hused a).mp ha).1) (hne a ((hused a).mp ha).1).1
  · rw [hopptr]
    exact hparent _ (h.opptr a ((hused a).mp ha).1) (hne a ((hused a).mp ha).1).2
  · rw [hreaper] at hr'
    obtain ⟨hru, hro⟩ := h.reaper r hr'
    rw [hopptr]
    refine ⟨(hused r).mpr ⟨hru, ?_⟩, hro⟩
    rintro rfl
    exact hr hr'
  · rw [hwaiting] at hw
    obtain ⟨htu, htz, hcu, hcz, hct⟩ := h.waiting t c hw
    rw [hzombie, hpptr']
    refine ⟨(hused t).mpr ⟨htu, ?_⟩, htz, (hused c).mpr ⟨hcu, ?_⟩, hcz, hct⟩
    · rintro rfl
      rw [hz] at htz
      cases htz
    · rintro rfl
      exact hwait t hw

end

theorem Sound.setWaiting (h : w.Sound) (t : ι) {o : Option ι}
    (ho : ∀ p, o = some p → w.used t = true ∧ w.zombie t = false ∧ w.used p = true ∧ w.zombie p = true ∧
      w.pptr p = some t) : { w with waiting := update w.waiting t o }.Sound := by
  obtain ⟨order, kids, hkin⟩ := h.kin
  refine { h with kin := ⟨order, kids, hkin.congr rfl rfl fun _ _ => ⟨rfl, rfl, rfl⟩⟩, waiting := fun u c hw => ?_ }
  change update w.waiting t o u = some c at hw
  obtain ⟨rfl, he⟩ | ⟨-, he⟩ := of_update hw
  · exact ho c he
  · exact h.waiting u c he

theorem Sound.waitEnd (h : w.Sound) (hw : w.waiting t = some p) (ok : Bool) : (w.waitEnd t p ok).Sound := by
  obtain ⟨-, -, hpu, hpz, hpt⟩ := h.waiting t p hw
  have hset : { w with waiting := update w.waiting t none }.Sound :=
    h.setWaiting t fun c hc => absurd hc (some_ne_none c).symm
  -- no other task has found the zombie, since it is on the list of this one
  have hnone : ∀ u, update w.waiting t none u ≠ some p := by
    intro u hu
    obtain ⟨-, hu⟩ | ⟨hut, hu⟩ := of_update hu
    · exact some_ne_none p hu.symm
    · exact hut (Option.some.inj ((h.waiting u p hu).2.2.2.2.symm.trans hpt))
  unfold World.waitEnd
  dsimp only
  split
  case isTrue =>
    split
    case isTrue =>
      obtain ⟨order, kids, hkin⟩ := hset.kin
      obtain ⟨hrel, -⟩ := relinked_removeLinks (hkin.osptr_ne hpu)
      have hq := congrFun hrel.opptr p
      have hmove := hset.moveTo hpu hnone (h.opptr p hpu)
      rw [← hq] at hmove
      exact hmove
    case isFalse heq =>
      apply hset.release hpu hnone hpz
      intro hr
      have hro := (h.reaper p hr).2
      rw [not_not.mp heq, hpt] at hro
      exact some_ne_none t hro
  case isFalse => exact hset

theorem Sound.waitFind (h : w.Sound) (ht : w.Runs t) (selects : ι → Bool)
    (hw : w.waitFind t selects fuel = some w') : w'.Sound := by
  obtain ⟨order, kids, hkin⟩ := h.kin
  obtain ⟨o, ho, rfl⟩ := map_eq_some_iff.mp hw
  refine h.setWaiting t fun p hp => ?_
  subst hp
  have hsib := hkin.siblings (some t)
  obtain ⟨hmem, hgood, -⟩ := seek_found (S := (· ∈ kids (some t)))
    (fun a b ha hb => hsib.osptr_mem ha hb) fuel (w.cptr (some t)) (fun b hb => by
      rw [hsib.cptr_eq] at hb
      exact mem_of_head? hb) ho
  obtain ⟨hpu, hpt⟩ := (hkin.mem_kids (some t) p).mp hmem
  exact ⟨ht.1, ht.2.1, hpu, (Bool.and_eq_true_iff.mp hgood).2, hpt⟩

theorem Sound.waitFind_isSome (h : w.Sound) (t : ι) (selects : ι → Bool) :
    ∃ n, ∀ fuel, n ≤ fuel → (w.waitFind t selects fuel).isSome := by
  obtain ⟨order, kids, hkin⟩ := h.kin
  refine ⟨(kids (some t)).length + 1, fun fuel hf => ?_⟩
  have hlinked := (hkin.siblings (some t)).chain.linked_of_cut [] (kids (some t)) rfl
  unfold World.waitFind
  rw [Option.isSome_map]
  exact seek_isSome hlinked hf

theorem doFork_fields (parent : Option ι) (h0 : pid ≠ 0) :
    (w.doFork parent p pid).used = update w.used p true ∧
    (w.doFork parent p pid).pid = update w.pid p pid := by
  unfold World.doFork
  rw [if_neg h0]
  exact ⟨(relinked_setLinks _ p).1.used, (relinked_setLinks _ p).1.pid⟩

theorem Sound.doFork (h : w.Sound) (hp : w.used p = false) {parent : Option ι}
    (hpar : ∀ t, parent = some t → w.Runs t)
    (hpid : pid ≠ 0 → ∀ a, w.used a = true → w.pid a ≠ pid) : (w.doFork parent p pid).Sound := by
  unfold World.doFork
  split
  case isTrue => exact h
  case isFalse h0 =>
  obtain ⟨order, kids, hkin⟩ := h.kin
  have hfresh := hpid h0
  have hne : ∀ a, w.used a = true → a ≠ p := by
    rintro a ha rfl
    rw [hp] at ha
    cases ha
  have hcptr : w.cptr (some p) = none := by
    have hnil : kids (some p) = [] := by
      apply eq_nil_iff_forall_not_mem.mpr
      intro a ha
      obtain ⟨hau, hap⟩ := (hkin.mem_kids (some p) a).mp ha
      exact (h.ne_unused hp hau).1 hap
    rw [(hkin.siblings (some p)).cptr_eq, hnil]
    rfl
  have hupdate : update w.cptr (some p) none = w.cptr := by
    rw [← hcptr]
    exact update_eq_self (some p) w.cptr
  rw [hupdate]
  set v : World ι := { w with
    pptr := update w.pptr p parent
    opptr := update w.opptr p parent
    pid := update w.pid p pid
    zombie := update w.zombie p false
    waiting := update w.waiting p none
    used := update w.used p true } with hv
  have hkinv : v.Kin {a | w.used a = true} order kids := by
    refine hkin.congr rfl rfl fun a ha => ⟨rfl, rfl, update_of_ne (hne a ha) ..⟩
  obtain ⟨order', kids', hkin'⟩ := hkinv.setLinks (p := p) fun hm => by
    exact hne p hm rfl
  obtain ⟨hrel, hpptr⟩ := relinked_setLinks v p
  set u := (v.setLinks p).hashPid p with hu
  have hused : ∀ a, u.used a = true ↔ a = p ∨ w.used a = true := by
    intro a
    change (v.setLinks p).used a = true ↔ _
    rw [hrel.used]
    change update w.used p true a = true ↔ _
    obtain rfl | hap := eq_or_ne a p
    · simp
    · simp [hap]
  have hpid' : u.pid = update w.pid p pid := hrel.pid
  have hzombie : u.zombie = update w.zombie p false := hrel.zombie
  have hopptr : u.opptr = update w.opptr p parent := hrel.opptr
  have hpptr' : u.pptr = update w.pptr p parent := hpptr
  have hreaper : u.childReaper = w.childReaper := hrel.childReaper
  have hwaiting : u.waiting = update w.waiting p none := hrel.waiting
  have hself : (v.setLinks p).pid p = pid := by
    rw [hrel.pid]
    exact update_self ..
  have hhash : u.hash = update w.hash (pidHashfn pid) (p :: w.hash (pidHashfn pid)) := by
    rw [hu]
    unfold hashPid
    rw [hself, hrel.hash]
  have hnot : ∀ i, p ∉ w.hash i := by
    intro i hm
    have hpu := ((h.mem_hash i p).mp hm).1
    rw [hp] at hpu
    cases hpu
  -- a parent of before is in use, so it is not the new task
  have hold : ∀ q, w.Parent q → u.Parent q := by
    intro q hq
    refine hq.mono (fun b _ hb => (hused b).mpr (.inr hb)) (fun b hb hz => .inl ?_) hreaper
    rwa [hzombie, update_of_ne (hne b (hq b hb).1)] at hz
  have hnew : u.Parent parent := by
    intro b hb
    have hrun := hpar b hb
    refine ⟨(hused b).mpr (.inr hrun.1), fun hz => ?_⟩
    rw [hzombie, update_of_ne (hne b hrun.1), hrun.2.1] at hz
    cases hz
  refine ⟨⟨order', kids', ?_⟩, fun i => ?_, fun i a => ?_, fun a b ha hb hab => ?_, fun a ha => ?_,
    fun a ha => ?_, fun r hr => ?_, fun t c hw => ?_⟩
  · have hS : {a | u.used a = true} = insert p {a | w.used a = true} := Set.ext hused
    rw [hS]
    exact hkin'.congr rfl rfl fun _ _ => ⟨rfl, rfl, rfl⟩
  · rw [hhash]
    by_cases hi : i = pidHashfn pid
    · subst hi
      rw [update_self]
      exact nodup_cons.mpr ⟨hnot _, h.hash_nodup _⟩
    · rw [update_of_ne hi]
      exact h.hash_nodup i
  · rw [hhash, hused, hpid']
    obtain rfl | hap := eq_or_ne a p
    · rw [update_self]
      by_cases hi : i = pidHashfn pid
      · subst hi
        simp
      · rw [update_of_ne hi]
        exact iff_of_false (hnot i) fun hh => hi hh.2.symm
    · rw [update_of_ne hap, or_iff_right hap]
      by_cases hi : i = pidHashfn pid
      · subst hi
        rw [update_self, mem_cons, or_iff_right hap]
        exact h.mem_hash _ a
      · rw [update_of_ne hi]
        exact h.mem_hash i a
  · rw [hpid'] at hab
    obtain rfl | hau := (hused a).mp ha
    · obtain rfl | hbu := (hused b).mp hb
      · rfl
      · rw [update_self, update_of_ne (hne b hbu)] at hab
        exact absurd hab.symm (hfresh b hbu)
    · obtain rfl | hbu := (hused b).mp hb
      · rw [update_self, update_of_ne (hne a hau)] at hab
        exact absurd hab (hfresh a hau)
      · rw [update_of_ne (hne a hau), update_of_ne (hne b hbu)] at hab
        exact h.pid_inj a b hau hbu hab
  · rw [hpptr']
    obtain rfl | ha := (hused a).mp ha
    · rw [update_self]
      exact hnew
    · rw [update_of_ne (hne a ha)]
      exact hold _ (h.pptr a ha)
  · rw [hopptr]
    obtain rfl | ha := (hused a).mp ha
    · rw [update_self]
      exact hnew
    · rw [update_of_ne (hne a ha)]
      exact hold _ (h.opptr a ha)
  · rw [hreaper] at hr
    obtain ⟨hru, hro⟩ := h.reaper r hr
    rw [hopptr, update_of_ne (hne r hru)]
    exact ⟨(hused r).mpr (.inr hru), hro⟩
  · rw [hwaiting] at hw
    have htp : t ≠ p := by
      rintro rfl
      rw [update_self] at hw
      exact some_ne_none c hw.symm
    rw [update_of_ne htp] at hw
    obtain ⟨htu, htz, hcu, hcz, hct⟩ := h.waiting t c hw
    rw [hzombie, hpptr', update_of_ne htp, update_of_ne (hne c hcu), update_of_ne (hne c hcu)]
    exact ⟨(hused t).mpr (.inr htu), htz, (hused c).mpr (.inr hcu), hcz, hct⟩

/-- The original parent of a task when `t` has exited. -/
def heir (w : World ι) (t a : ι) : Option ι := if w.opptr a = some t then w.childReaper else w.opptr a

/-- The state in which `exit_notify` begins to pass the children. -/
def exiting (w : World ι) (t : ι) (order : List ι) : World ι :=
  { w with zombie := update w.zombie t true }.forgotten t order

theorem Kin.exitNotify_eq (h : w.Kin S order kids) (t : ι) (fuel : ℕ) : w.exitNotify t fuel =
    if order.length < fuel then (w.exiting t order).passChildren t fuel else none := by
  have hlinked : Linked (fun a => w.links.next (some a)) (w.links.next none) order :=
    h.ring.chain.linked_of_cut [] order rfl
  have hforget : forgetOriginalParent { w with zombie := update w.zombie t true } t fuel
      (w.links.next none) = _ := forgetOriginalParent_eq order fuel _ _ hlinked h.ring.chain.nodup
  change (forgetOriginalParent _ t fuel _).bind _ = _
  rw [hforget]
  split <;> rfl

theorem Kin.exiting (h : w.Kin S order kids) (t : ι) : (w.exiting t order).Passing S t order kids (kids (some t)) ∧
    ∀ a ∈ S, (w.exiting t order).opptr a = w.heir t a := by
  have hkin : (w.exiting t order).Kin S order kids := h.congr rfl rfl fun _ _ => ⟨rfl, rfl, rfl⟩
  refine ⟨hkin.passing t, fun a ha => ?_⟩
  unfold World.exiting forgotten heir
  dsimp only
  by_cases hopp : w.opptr a = some t
  · rw [if_pos ⟨(h.mem_order a).mpr ha, hopp⟩, if_pos hopp]
  · rw [if_neg fun hh => hopp hh.2, if_neg hopp]

/-- What makes `exit_notify` end: only `child_reaper` is its own heir. -/
def KeepsExit (w : World ι) (t : ι) : Prop :=
  w.childReaper = some t → ∀ a, w.used a = true → w.pptr a = some t → w.opptr a ≠ some t

theorem keepsExit_iff (w : World ι) (t : ι) :
    w.KeepsExit t ↔ ∀ a, w.used a = true → w.pptr a = some t → w.heir t a ≠ some t := by
  unfold KeepsExit heir
  constructor
  · intro h a ha hp
    split
    case isTrue ho => exact fun hr => h hr a ha hp ho
    case isFalse ho => exact ho
  · intro h hr a ha hp ho
    have hne := h a ha hp
    rw [if_pos ho] at hne
    exact hne hr

theorem Sound.exitNotify_isSome (h : w.Sound) (hk : w.KeepsExit t) :
    ∃ n, ∀ fuel, n ≤ fuel → (w.exitNotify t fuel).isSome := by
  obtain ⟨order, kids, hkin⟩ := h.kin
  obtain ⟨hpassing, hopptr⟩ := hkin.exiting t
  rw [keepsExit_iff] at hk
  refine ⟨order.length + (kids (some t)).length + 1, fun fuel hf => ?_⟩
  rw [hkin.exitNotify_eq, if_pos (by omega)]
  apply (hpassing.run fuel fun a ha => _).1 (by omega)
  intro a ha
  obtain ⟨hau, hat⟩ := (hkin.mem_kids _ a).mp ha
  rw [hopptr a hau]
  exact hk a hau hat

theorem Sound.keepsExit (h : w.Sound) (hs : (w.exitNotify t fuel).isSome) : w.KeepsExit t := by
  obtain ⟨order, kids, hkin⟩ := h.kin
  obtain ⟨hpassing, hopptr⟩ := hkin.exiting t
  rw [keepsExit_iff]
  intro a ha hp hheir
  have hstuck := hpassing.stuck fuel ((hkin.mem_kids _ a).mpr ⟨ha, hp⟩) ((hopptr a ha).trans hheir)
  rw [hkin.exitNotify_eq] at hs
  split at hs
  case isTrue =>
    rw [hstuck] at hs
    cases hs
  case isFalse => cases hs

theorem Sound.exitNotify (h : w.Sound) (ht : w.Runs t) (hk : w.KeepsExit t)
    (hw : w.exitNotify t fuel = some w') : w'.Sound := by
  obtain ⟨order, kids, hkin⟩ := h.kin
  obtain ⟨hpassing, hopptr⟩ := hkin.exiting t
  rw [keepsExit_iff] at hk
  rw [hkin.exitNotify_eq] at hw
  split at hw
  case isFalse => cases hw
  case isTrue =>
  obtain ⟨⟨kids', hkin'⟩, hpassed⟩ := (hpassing.run fuel fun a ha => by
    obtain ⟨hau, hat⟩ := (hkin.mem_kids _ a).mp ha
    rw [hopptr a hau]
    exact hk a hau hat).2 w' hw
  have hrest := hpassed.rest
  have hused : w'.used = w.used := (congrArg World.used hrest).trans rfl
  have hpid : w'.pid = w.pid := (congrArg World.pid hrest).trans rfl
  have hhash : w'.hash = w.hash := (congrArg World.hash hrest).trans rfl
  have hzombie : w'.zombie = update w.zombie t true := (congrArg World.zombie hrest).trans rfl
  have hreaper : w'.childReaper = w.childReaper := (congrArg World.childReaper hrest).trans rfl
  have hwaiting : w'.waiting = w.waiting := (congrArg World.waiting hrest).trans rfl
  have hopptr' : ∀ a, w.used a = true → w'.opptr a = w.heir t a := fun a ha =>
    (congrFun ((congrArg World.opptr hrest).trans rfl) a).trans (hopptr a ha)
  have hpptr' : ∀ a, w.used a = true → w'.pptr a = if w.pptr a = some t then w.heir t a else w.pptr a := by
    intro a ha
    rw [← hopptr a ha]
    exact hpassed.pptr a ha
  -- a parent other than the task stays one, and so does `child_reaper`
  have hother : ∀ q, w.Parent q → q ≠ some t → w'.Parent q := by
    intro q hq hqt
    refine hq.mono (fun b _ hb => hused ▸ hb) (fun b hb hz => .inl ?_) hreaper
    have hbt : b ≠ t := by
      rintro rfl
      exact hqt hb
    rwa [hzombie, update_of_ne hbt] at hz
  have hheir : ∀ a, w.used a = true → w'.Parent (w.heir t a) := by
    intro a ha
    unfold heir
    split
    case isTrue =>
      intro r hr
      exact ⟨hused ▸ (h.reaper r hr).1, fun _ => hreaper ▸ hr⟩
    case isFalse ho => exact hother _ (h.opptr a ha) ho
  refine ⟨⟨order, kids', hused ▸ hkin'⟩, hhash ▸ h.hash_nodup, ?_, ?_, fun a ha => ?_, fun a ha => ?_,
    fun r hr => ?_, fun u p hu => ?_⟩
  · rw [hhash, hused, hpid]
    exact h.mem_hash
  · rw [hused, hpid]
    exact h.pid_inj
  · rw [hused] at ha
    rw [hpptr' a ha]
    split
    case isTrue => exact hheir a ha
    case isFalse hp => exact hother _ (h.pptr a ha) hp
  · rw [hused] at ha
    rw [hopptr' a ha]
    exact hheir a ha
  · rw [hreaper] at hr
    obtain ⟨hru, hro⟩ := h.reaper r hr
    refine ⟨hused ▸ hru, ?_⟩
    rw [hopptr' r hru]
    unfold heir
    rw [hro, if_neg (some_ne_none t).symm]
  · rw [hwaiting] at hu
    obtain ⟨huu, huz, hpu, hpz, hpp⟩ := h.waiting u p hu
    have hut : u ≠ t := by
      rintro rfl
      rw [ht.2.2] at hu
      exact some_ne_none p hu.symm
    rw [hused, hzombie, hpptr' p hpu, hpp, if_neg fun hh => hut (Option.some.inj hh), update_of_ne hut]
    refine ⟨huu, huz, hpu, ?_, rfl⟩
    by_cases hpt : p = t
    · rw [hpt, update_self]
    · rw [update_of_ne hpt]
      exact hpz

end World

/-! ### Runs -/

/-- The condition on a call.  A new task gets a pid that no task has; `child_reaper` does not exit while
it has a child of its own; and no attach takes a zombie that a `sys_wait4` has found and not yet reaped. -/
def KeepsTree (w : World ι) : Op ι → Prop
  | .fork _ _ pid => pid ≠ 0 → ∀ a, w.used a = true → w.pid a ≠ pid
  | .exit current => w.KeepsExit current
  | .attach _ p => ∀ t, w.waiting t ≠ some p
  | _ => True

instance [DecidableEq ι] [Fintype ι] (w : World ι) : (op : Op ι) → Decidable (KeepsTree w op)
  | .fork _ _ pid => inferInstanceAs (Decidable (pid ≠ 0 → ∀ a, w.used a = true → w.pid a ≠ pid))
  | .exit current => inferInstanceAs (Decidable (w.childReaper = some current →
      ∀ a, w.used a = true → w.pptr a = some current → w.opptr a ≠ some current))
  | .attach _ p => inferInstanceAs (Decidable (∀ t, w.waiting t ≠ some p))
  | .init _ | .waitFind _ _ | .waitEnd _ _ => inferInstanceAs (Decidable True)

/-- The state before `init_task` forks the thread `init`. -/
def boot (ι : Type*) : World ι where
  links := ⟨fun _ => none, fun _ => none⟩
  pptr _ := none
  opptr _ := none
  cptr _ := none
  osptr _ := none
  ysptr _ := none
  pid _ := 0
  hash _ := []
  zombie _ := false
  childReaper := none
  used _ := false
  waiting _ := none

theorem sound_boot : (boot ι).Sound where
  kin := ⟨[], fun _ => [], ⟨.of_empty rfl rfl, fun _ => iff_of_false not_mem_nil Bool.false_ne_true,
    fun _ => .of_nil rfl, fun _ _ => iff_of_false not_mem_nil fun h => Bool.false_ne_true h.1⟩⟩
  hash_nodup _ := nodup_nil
  mem_hash _ _ := iff_of_false not_mem_nil fun h => Bool.false_ne_true h.1
  pid_inj _ _ ha := absurd ha Bool.false_ne_true
  pptr _ ha := absurd ha Bool.false_ne_true
  opptr _ ha := absurd ha Bool.false_ne_true
  reaper _ hr := absurd hr.symm (some_ne_none _)
  waiting _ _ hw := absurd hw.symm (some_ne_none _)

variable [DecidableEq ι] {w w' : World ι}

/-- **One call.**  A call that meets the condition ends, and keeps the state. -/
theorem sound_effect (h : w.Sound) {op : Op ι} (hen : enabled w op = true) (hk : KeepsTree w op) :
    (∃ n, ∀ fuel, n ≤ fuel → (effect w fuel op).isSome) ∧
    ∀ fuel w', effect w fuel op = some w' → w'.Sound := by
  cases op with
  | fork parent p pid =>
    obtain ⟨hp, hpar⟩ := of_decide_eq_true hen
    refine ⟨⟨0, fun _ _ => rfl⟩, fun fuel w' hw => ?_⟩
    cases hw
    exact h.doFork hp hpar hk
  | init t =>
    obtain ⟨ht, hn, ho⟩ := of_decide_eq_true hen
    refine ⟨⟨0, fun _ _ => rfl⟩, fun fuel w' hw => ?_⟩
    cases hw
    exact h.init ht.1 hn ho
  | exit t =>
    have ht : w.Runs t := of_decide_eq_true hen
    exact ⟨h.exitNotify_isSome hk, fun fuel w' hw => h.exitNotify ht hk hw⟩
  | waitFind t selects =>
    have ht : w.Runs t := of_decide_eq_true hen
    exact ⟨h.waitFind_isSome t selects, fun fuel w' hw => h.waitFind ht selects hw⟩
  | waitEnd t ok =>
    obtain ⟨p, hp⟩ := Option.ne_none_iff_exists'.mp (of_decide_eq_true hen)
    have heff : ∀ fuel, effect w fuel (.waitEnd t ok) = some (w.waitEnd t p ok) := by
      intro fuel
      change (w.waiting t).map _ = _
      rw [hp]
      rfl
    refine ⟨⟨0, fun fuel _ => by rw [heff]; rfl⟩, fun fuel w' hw => ?_⟩
    obtain rfl := Option.some.inj ((heff fuel).symm.trans hw)
    exact h.waitEnd hp ok
  | attach t p =>
    obtain ⟨ht, hp, hpt⟩ := of_decide_eq_true hen
    refine ⟨⟨0, fun _ _ => rfl⟩, fun fuel w' hw => ?_⟩
    cases hw
    exact h.attach hp hk ht

theorem sound_of_reaches (hr : ReachesBy step (fun w a => KeepsTree w a.1) (boot ι) w) : w.Sound :=
  hr.invariant sound_boot fun w a w' h hk hs => by
    obtain ⟨hen, heff⟩ : enabled w a.1 = true ∧ effect w a.2 a.1 = some w' := by
      unfold step at hs
      split at hs
      case isTrue hen => exact ⟨hen, hs⟩
      case isFalse => cases hs
    exact (sound_effect h hen hk).2 a.2 w' heff

/-- A pid that a task in use has already hides one of the two from `find_task_by_pid`. -/
theorem keepsTree_of_doFork {parent : Option ι} {p : ι} {pid : ℕ} (hp : w.used p = false)
    (h : (w.doFork parent p pid).Tree) : KeepsTree w (.fork parent p pid) := by
  intro h0 a ha hpid
  obtain ⟨hused, hpids⟩ := w.doFork_fields parent h0 (p := p)
  have hap : a ≠ p := by
    rintro rfl
    rw [hp] at ha
    cases ha
  have hnew := (h.found pid p).mpr ⟨by rw [hused, update_self], by rw [hpids, update_self]⟩
  have hold := (h.found pid a).mpr
    ⟨by rw [hused, update_of_ne hap, ha], by rw [hpids, update_of_ne hap, hpid]⟩
  exact hap (Option.some.inj (hold.symm.trans hnew))

/-- **The family tree.** In every run whose calls meet the condition, each state has the tree. Each further call that meets
the condition ends and keeps the tree. A fork keeps the tree only if it meets the condition, and `exit_notify` ends only if
it does. -/
theorem tree_of_keepsTree (hr : ReachesBy step (fun w a => KeepsTree w a.1) (boot ι) w) :
    w.Tree ∧
    (∀ op, enabled w op = true → KeepsTree w op →
      ∃ n, ∀ fuel, n ≤ fuel → ∃ w', step w (op, fuel) = some w' ∧ w'.Tree) ∧
    (∀ parent p pid, enabled w (.fork parent p pid) = true →
      ((w.doFork parent p pid).Tree ↔ KeepsTree w (.fork parent p pid))) ∧
    ∀ t, (∃ fuel, (w.exitNotify t fuel).isSome) ↔ KeepsTree w (.exit t) := by
  have h := sound_of_reaches hr
  refine ⟨h.tree, fun op hen hk => ?_, fun parent p pid hen => ⟨fun ht => ?_, fun hk => ?_⟩,
    fun t => ⟨fun ⟨fuel, hs⟩ => h.keepsExit hs, fun hk => ?_⟩⟩
  · obtain ⟨⟨n, hn⟩, hsound⟩ := sound_effect h hen hk
    refine ⟨n, fun fuel hf => ?_⟩
    obtain ⟨w', hw'⟩ := Option.isSome_iff_exists.mp (hn fuel hf)
    refine ⟨w', ?_, (hsound fuel w' hw').tree⟩
    unfold step
    rw [if_pos hen]
    exact hw'
  · exact keepsTree_of_doFork (of_decide_eq_true hen).1 ht
  · exact ((sound_effect h hen hk).2 0 _ rfl).tree
  · obtain ⟨n, hn⟩ := h.exitNotify_isSome hk
    exact ⟨n, hn n le_rfl⟩

/-- The thread `init` forks a child, the child exits, and `init` reaps it. -/
theorem tree_of_keepsTree_init : ∃ w : World (Fin 2), w.used 0 = true ∧ w.used 1 = false ∧ w.Tree := by
  obtain ⟨w, hr, h0, h1⟩ : ∃ w : World (Fin 2), ReachesBy step (fun w a => decide (KeepsTree w a.1) = true) (boot (Fin 2)) w ∧
      w.used 0 = true ∧ w.used 1 = false := ReachesBy.exists_of_exec [(.fork none 0 1, 0), (.init 0, 0),
    (.fork (some 0) 1 2, 0), (.exit 1, 4), (.waitFind 0 (fun _ => true), 4), (.waitEnd 0 true, 0)] (by decide +kernel)
  simp only [decide_eq_true_eq] at hr
  exact ⟨w, h0, h1, (tree_of_keepsTree hr).1⟩

/-- The thread `init` clones itself with `CLONE_PID`.  Both tasks have the pid 1, and
`find_task_by_pid` finds the younger one only. -/
theorem clonePid_hides_parent : ∃ w : World (Fin 2), Reaches step (boot (Fin 2)) w ∧
    w.used 0 = true ∧ w.pid 0 = 1 ∧ w.findTaskByPid 1 = some 1 :=
  Reaches.exists_of_exec [(.fork none 0 1, 0), (.init 0, 0), (.fork (some 0) 1 1, 0)] (by decide +kernel)

end I370Linux.FamilyTree
