import I370Linux.KeyTable

/-! # Unique keys

A table of `KeyTable` as a registry of keyed objects: the objects in the slots, and the calls that sleep in an
allocation with the slots they have marked.  `findkey` misses a key in the slots above the maximum, where
a slot may be marked, and in those below the slot where it has slept, which it does not look at again. -/

namespace I370Linux.KeyTable

open Runs Registry Function

variable {τ : Type*}

/-! ### The registry of a table -/

def Slot.key : Slot → Option ℤ
  | .live o => some o.key
  | _ => none

def Phase.entry : Phase → Option (ℤ × ℕ)
  | .allocating a id _ => some (a.key, id)
  | _ => none

namespace Table

def registry (w : Table τ) : State ℤ τ := ⟨fun i => (w.slots i).key, fun t => (w.calls t).entry, w.events⟩

/-- A marked slot has one call; an object is below the maximum; a search is for a shared key. -/
structure Inv (w : Table τ) : Prop where
  wellFormed : WellFormed w.registry
  marked : ∀ t k i, w.registry.pending t = some (k, i) → w.slots i = .noid
  below : ∀ i k, w.registry.live i = some k → i ≤ w.maxId
  scans : ∀ t a i, w.calls t = .scanning a i → a.key ≠ IPC_PRIVATE

def search (kind : Kind) (w : Table τ) : Op τ → Option (Args × ℕ)
  | .get _ a =>
    if kind = .shm ∧ (a.size < 0 ∨ a.size > SHMMAX) then none
    else if a.key = IPC_PRIVATE then none
    else some (a, 0)
  | .wake t =>
    match w.calls t with
    | .scanning a id => some (a, id)
    | _ => none
  | _ => none

/-- A search from the slot `id` on ends in a new object. -/
def Creates (kind : Kind) (w : Table τ) (a : Args) (id : ℕ) : Prop :=
  w.findkey a.key id = .missing ∧ a.creat = true ∧ refuse kind w a = none ∧ w.freeSlot ≠ none

/-- The step does not make a new object for a key that is held where its search does not look: below the
slot where it slept last, or above both that slot and the maximum. -/
def Sees (kind : Kind) (w : Table τ) (op : Op τ) : Prop :=
  ∀ a id, w.search kind op = some (a, id) → w.Creates kind a id →
    ∀ j, j < id ∨ max w.maxId id < j → ¬ w.registry.Holds j a.key

variable {w w' : Table τ} {kind : Kind} {t : τ} {a : Args} {op : Op τ}
  {i id more : ℕ} {k key : ℤ} {p : Phase}

theorem live_eq_some : w.registry.live i = some k ↔ ∃ o, w.slots i = .live o ∧ o.key = k := by
  change (w.slots i).key = some k ↔ _
  cases h : w.slots i <;> simp [Slot.key]

theorem pending_eq_some :
    w.registry.pending t = some (k, i) ↔ ∃ a more, w.calls t = .allocating a i more ∧ a.key = k := by
  change (w.calls t).entry = some (k, i) ↔ _
  cases h : w.calls t <;> simp [Phase.entry, and_comm]

theorem Inv.not_holds_unused (h : w.Inv) (hi : w.slots i = .unused) (k : ℤ) : ¬ w.registry.Holds i k := by
  rintro (hl | ⟨t, ht⟩)
  · obtain ⟨o, ho, -⟩ := live_eq_some.mp hl
    rw [hi] at ho
    cases ho
  · have := h.marked t k i ht
    rw [hi] at this
    cases this

/-! ### `findkey` -/

theorem findkeyLoop_missing : ∀ {n id : ℕ}, w.findkeyLoop key n id = .missing →
    ∀ j, id ≤ j → j < id + n → w.slots j ≠ .noid ∧ ∀ o, w.slots j = .live o → o.key ≠ key := by
  intro n
  induction n with
  | zero =>
    intro id _ j hj hlt
    omega
  | succ n ih =>
    intro id h j hj hlt
    rw [findkeyLoop] at h
    cases hs : w.slots id with
    | noid =>
      rw [hs] at h
      cases h
    | unused =>
      rw [hs] at h
      obtain rfl | hji := eq_or_ne j id
      · rw [hs]
        exact ⟨by simp, by simp⟩
      · exact ih h j (by omega) (by omega)
    | live o =>
      rw [hs] at h
      dsimp only at h
      split at h
      case isTrue => cases h
      case isFalse hne =>
        obtain rfl | hji := eq_or_ne j id
        · rw [hs]
          refine ⟨by simp, fun o' ho' => ?_⟩
          cases ho'
          exact Ne.symm hne
        · exact ih h j (by omega) (by omega)

/-- **What `findkey` sees.**  A key it misses is not held from its first slot to the maximum. -/
theorem Inv.not_holds_of_missing (h : w.Inv) (hm : w.findkey key id = .missing) {j : ℕ}
    (hj : id ≤ j) (hmax : j ≤ max w.maxId id) : ¬ w.registry.Holds j key := by
  obtain ⟨hnoid, hlive⟩ := findkeyLoop_missing hm j hj (by omega)
  rintro (hl | ⟨t, ht⟩)
  · obtain ⟨o, ho, hk⟩ := live_eq_some.mp hl
    exact hlive o ho hk
  · exact hnoid (h.marked t key j ht)

theorem freeSlot_spec (h : w.freeSlot = some id) : w.slots id = .unused := by
  have hp := List.find?_some h
  exact of_decide_eq_true hp

theorem lowerMax_spec (slots : ℕ → Slot) : ∀ m i, i < m → slots i ≠ .unused → i ≤ lowerMax slots m := by
  intro m
  induction m with
  | zero =>
    intro i hi
    omega
  | succ m ih =>
    intro i hi hs
    rw [lowerMax]
    split
    case isTrue hu =>
      have hne : i ≠ m := by
        rintro rfl
        exact hs hu
      exact ih i (by omega) hs
    case isFalse => omega

/-! ### Unique keys -/

def KeysUnique (w : Table τ) : Prop :=
  ∀ i j o o', w.slots i = .live o → w.slots j = .live o' → o.key = o'.key → o.key ≠ IPC_PRIVATE → i = j

/-- Keys are unique, `findkey` looks at every object, and between two creations of a shared key the first
object was removed. -/
structure Good (w : Table τ) : Prop where
  unique : w.KeysUnique
  below : ∀ i o, w.slots i = .live o → i ≤ w.maxId
  alternate : ∀ k, k ≠ IPC_PRIVATE → present k w.events ≠ none

abbrev Shared (k : ℤ) : Prop := k ≠ IPC_PRIVATE

/-- The invariant of the table. -/
structure Sound (w : Table τ) : Prop where
  inv : w.Inv
  unique : Unique Shared w.registry
  alternates : Alternates Shared w.registry

theorem keysUnique_of_unique (h : Unique Shared w.registry) : w.KeysUnique := by
  intro i j o o' hi hj hk hp
  exact h o.key hp i j (.inl (live_eq_some.mpr ⟨o, hi, rfl⟩)) (.inl (live_eq_some.mpr ⟨o', hj, hk.symm⟩))

theorem Sound.good (h : w.Sound) : w.Good := by
  refine ⟨keysUnique_of_unique h.unique, ?_, ?_⟩
  · intro i o hi
    exact h.inv.below i o.key (live_eq_some.mpr ⟨o, hi, rfl⟩)
  · intro k hk
    obtain ⟨b, hb, -⟩ := h.alternates k hk
    change present k w.registry.events ≠ none
    rw [hb]
    exact Option.some_ne_none b

theorem Inv.search_shared (h : w.Inv) (hs : w.search kind op = some (a, id)) : a.key ≠ IPC_PRIVATE := by
  cases op with
  | get t b =>
    dsimp only [search] at hs
    split_ifs at hs with hsize hp
    cases hs
    exact hp
  | wake t =>
    dsimp only [search] at hs
    split at hs
    case h_1 b i hc =>
      cases hs
      exact h.scans t a id hc
    case h_2 => cases hs
  | alloc | remove | markDest => cases hs

theorem inv_boot (kind : Kind) : (boot kind : Table τ).Inv := by
  exact ⟨⟨nofun, nofun⟩, nofun, nofun, nofun⟩

theorem sound_boot (kind : Kind) : (boot kind : Table τ).Sound where
  inv := inv_boot kind
  unique := by
    rintro k - i j (h | ⟨t, h⟩)
    · cases h
    · cases h
  alternates := by
    intro k _
    refine ⟨false, rfl, nofun, ?_⟩
    rintro ⟨i, h⟩
    cases h

/-! ### The calls as moves of the registry -/

theorem registry_update (w : Table τ) (i : ℕ) (s : Slot) (maxId seq : ℕ) (tot : ℤ) (events : List (Event ℤ)) :
    (Table.mk (update w.slots i s) maxId seq tot w.calls events).registry =
      ⟨update w.registry.live i s.key, w.registry.pending, events⟩ := by
  unfold registry
  congr 1
  exact funext fun j => Function.apply_update (fun _ => Slot.key) w.slots i s j

theorem Inv.of_registry (h : w.Inv) (hr : w'.registry = w.registry)
    (hn : ∀ i, w.slots i = .noid → w'.slots i = .noid) (hm : w'.maxId = w.maxId)
    (hs : ∀ t a i, w'.calls t = .scanning a i → a.key ≠ IPC_PRIVATE) : w'.Inv := by
  refine ⟨?_, ?_, ?_, hs⟩
  · rw [hr]
    exact h.wellFormed
  · intro t k i ht
    rw [hr] at ht
    exact hn i (h.marked t k i ht)
  · intro i k hk
    rw [hr] at hk
    rw [hm]
    exact h.below i k hk

variable [DecidableEq τ]

theorem Inv.of_step {r : State ℤ τ} {m : Move ℤ τ} (h : w.Inv) (hr : w'.registry = r) (hs : Step w.registry m r)
    (hmarked : ∀ t k i, r.pending t = some (k, i) → w'.slots i = .noid)
    (hbelow : ∀ i k, r.live i = some k → i ≤ w'.maxId)
    (hscans : ∀ t a i, w'.calls t = .scanning a i → a.key ≠ IPC_PRIVATE) :
    w'.Inv ∧ Step w.registry m w'.registry := by
  subst hr
  exact ⟨⟨hs.wellFormed h.wellFormed, hmarked, hbelow, hscans⟩, hs⟩

theorem registry_setPhase (w : Table τ) (t : τ) (p : Phase) : (w.setPhase t p).registry =
    { w.registry with pending := update w.registry.pending t p.entry } := by
  unfold registry setPhase
  congr 1
  exact funext fun u => Function.apply_update (fun _ => Phase.entry) w.calls t p u

theorem registry_setPhase_same (ht : w.registry.pending t = p.entry) :
    (w.setPhase t p).registry = w.registry := by
  rw [registry_setPhase, ← ht, update_eq_self]

theorem Inv.scans_setPhase (h : w.Inv) (hp : ∀ a i, p = .scanning a i → a.key ≠ IPC_PRIVATE) :
    ∀ u a i, (w.setPhase t p).calls u = .scanning a i → a.key ≠ IPC_PRIVATE := by
  intro u a i hu
  obtain ⟨-, he⟩ | ⟨-, he⟩ := of_update hu
  · exact hp a i he
  · exact h.scans u a i he

/-- A step either leaves the registry as it is or makes a move of it.  The place that it reserves, for a
shared key, is for the key that it creates. -/
def Moves (kind : Kind) (w : Table τ) (op : Op τ) (w' : Table τ) : Prop :=
  w'.Inv ∧
    ((w'.registry = w.registry ∧ ∀ a id, w.search kind op = some (a, id) → ¬ w.Creates kind a id) ∨
      ∃ m, Step w.registry m w'.registry ∧
        (∀ a id, w.search kind op = some (a, id) → w.Creates kind a id → ∃ t i, m = .reserve t a.key i) ∧
        ∀ t k i, m = .reserve t k i → k ≠ IPC_PRIVATE →
          ∃ a id, w.search kind op = some (a, id) ∧ w.Creates kind a id ∧ a.key = k)

section

variable (h : w.Inv) (ht : w.registry.pending t = none)
include h ht

theorem Inv.moves_quiet (hp : p.entry = none) (hs : ∀ a i, p = .scanning a i → a.key ≠ IPC_PRIVATE)
    (hno : ∀ a id, w.search kind op = some (a, id) → ¬ w.Creates kind a id) :
    Moves kind w op (w.setPhase t p) :=
  ⟨h.of_registry (registry_setPhase_same (ht.trans hp.symm)) (fun _ hi => hi) rfl (h.scans_setPhase hs),
    .inl ⟨registry_setPhase_same (ht.trans hp.symm), hno⟩⟩

theorem Inv.step_mark (hfree : w.freeSlot = some id)
    (more : ℕ) : ({ w with slots := update w.slots id .noid }.setPhase t (.allocating a id more)).Inv ∧
    Step w.registry (.reserve t a.key id)
      ({ w with slots := update w.slots id .noid }.setPhase t (.allocating a id more)).registry := by
  have hunused := freeSlot_spec hfree
  have hsame : ({ w with slots := update w.slots id .noid } : Table τ).registry = w.registry := by
    have hnone : w.registry.live id = none := congrArg Slot.key hunused
    rw [registry_update, show Slot.noid.key = w.registry.live id from hnone.symm, update_eq_self]
    rfl
  refine h.of_step ?_ (.reserve ht (h.not_holds_unused hunused)) (fun u k i hu => ?_) h.below
    (h.scans_setPhase (by simp))
  · rw [registry_setPhase, hsame]
    rfl
  · change update w.slots id .noid i = .noid
    obtain ⟨-, he⟩ | ⟨-, he⟩ := of_update hu
    · cases he
      exact update_self ..
    have hi : i ≠ id := by
      rintro rfl
      exact h.not_holds_unused hunused k (.inr ⟨u, he⟩)
    rw [update_of_ne hi]
    exact h.marked u k i he

theorem Inv.moves_newId (hkey : a.key = IPC_PRIVATE ∧ w.search kind op = none ∨
      ∃ id, w.search kind op = some (a, id) ∧ w.findkey a.key id = .missing ∧ a.creat = true) :
    Moves kind w op (newId kind w t a) := by
  -- without a slot nothing is created
  have hno (hn : refuse kind w a ≠ none ∨ w.freeSlot = none) :
      ∀ b id, w.search kind op = some (b, id) → ¬ w.Creates kind b id := by
    rintro b id hb ⟨-, -, hr, hf⟩
    obtain ⟨-, hnone⟩ | ⟨id', hid', -⟩ := hkey
    · rw [hnone] at hb
      cases hb
    · rw [hid'] at hb
      cases hb
      exact hn.elim (fun h => h hr) hf
  unfold newId
  cases hr : refuse kind w a with
  | some e => exact h.moves_quiet ht rfl (by simp) (hno (.inl (by simp [hr])))
  | none =>
    cases hf : w.freeSlot with
    | none => exact h.moves_quiet ht rfl (by simp) (hno (.inr hf))
    | some id =>
      obtain ⟨hinv, hstep⟩ := h.step_mark (a := a) ht hf (moreAllocs kind)
      refine ⟨hinv, .inr ⟨_, hstep, ?_, ?_⟩⟩
      · intro b id' hb _
        obtain ⟨-, hnone⟩ | ⟨id'', hid'', -⟩ := hkey
        · rw [hnone] at hb
          cases hb
        · rw [hid''] at hb
          cases hb
          exact ⟨t, id, rfl⟩
      · intro u k i he hk
        cases he
        obtain ⟨hp, -⟩ | ⟨id', hid', hm, hc⟩ := hkey
        · exact absurd hp hk
        · exact ⟨a, id', hid', ⟨hm, hc, hr, by simp [hf]⟩, rfl⟩

theorem Inv.moves_lookUp (hs : w.search kind op = some (a, id)) (hk : a.key ≠ IPC_PRIVATE) :
    Moves kind w op (lookUp kind w t a id) := by
  have hno (hn : w.findkey a.key id ≠ .missing ∨ a.creat = false) :
      ∀ b id', w.search kind op = some (b, id') → ¬ w.Creates kind b id' := by
    rintro b id' hb ⟨hm, hc, -, -⟩
    rw [hs] at hb
    cases hb
    obtain hn | hn := hn
    · exact hn hm
    · rw [hn] at hc
      cases hc
  unfold lookUp
  cases hf : w.findkey a.key id with
  | sleeps j =>
    apply h.moves_quiet ht rfl _ (hno (.inl (by simp [hf])))
    intro b i he
    cases he
    exact hk
  | found j =>
    dsimp only
    split <;> exact h.moves_quiet ht rfl (by simp) (hno (.inl (by simp [hf])))
  | missing =>
    dsimp only
    split
    case isTrue hc => exact h.moves_newId ht (.inr ⟨id, hs, hf, hc⟩)
    case isFalse hc => exact h.moves_quiet ht rfl (by simp) (hno (.inr (by simpa using hc)))

theorem Inv.moves_get : Moves kind w (.get t a) (get kind w t a) := by
  unfold get
  split
  case isTrue hsize =>
    apply h.moves_quiet ht rfl (by simp)
    intro b id hb
    rw [search, if_pos hsize] at hb
    cases hb
  case isFalse hsize =>
    split
    case isTrue hp => exact h.moves_newId ht (.inl ⟨hp, by rw [search, if_neg hsize, if_pos hp]⟩)
    case isFalse hp => exact h.moves_lookUp ht (by rw [search, if_neg hsize, if_neg hp]) hp

end

/-! ### The end of an allocation, and removals -/

theorem Inv.marked_update (h : w.Inv) (ht : w.registry.pending t = some (k, id)) {s : Slot}
    {u : τ} {k' : ℤ} (hu : update w.registry.pending t none u = some (k', i)) :
    update w.slots id s i = .noid := by
  obtain ⟨-, he⟩ | ⟨hne, he⟩ := of_update hu
  · cases he
  have hi : i ≠ id := by
    rintro rfl
    exact hne (h.wellFormed.maker u t k' k i he ht)
  rw [update_of_ne hi]
  exact h.marked u k' i he

theorem Inv.step_giveUp (h : w.Inv) (ht : w.calls t = .allocating a id more) :
    (w.giveUp t id).Inv ∧ Step w.registry (.drop t) (w.giveUp t id).registry := by
  have hp : w.registry.pending t = some (a.key, id) := pending_eq_some.mpr ⟨a, more, ht, rfl⟩
  have hlive : update w.registry.live id none = w.registry.live := by
    rw [← h.wellFormed.empty t _ id hp, update_eq_self]
  have hreg : (w.giveUp t id).registry =
      { w.registry with pending := update w.registry.pending t none } := by
    rw [giveUp, registry_setPhase, registry_update]
    change State.mk (update w.registry.live id none) _ _ = _
    rw [hlive]
    rfl
  exact h.of_step hreg (.drop hp) (fun _ _ _ hu => h.marked_update hp hu) h.below (h.scans_setPhase (by simp))

theorem Inv.step_publish (kind : Kind) (h : w.Inv) (ht : w.calls t = .allocating a id more) :
    (publish kind w t a id).Inv ∧ Step w.registry (.publish t) (publish kind w t a id).registry := by
  have hp : w.registry.pending t = some (a.key, id) := pending_eq_some.mpr ⟨a, more, ht, rfl⟩
  have hreg : (publish kind w t a id).registry =
      ⟨update w.registry.live id (some a.key), update w.registry.pending t none,
        .created a.key :: w.registry.events⟩ := by
    unfold publish
    rw [registry_setPhase, registry_update]
    rfl
  refine h.of_step hreg (.publish hp) (fun _ _ _ hu => h.marked_update hp hu) (fun i k hk => ?_)
    (h.scans_setPhase (by simp))
  change i ≤ if id > w.maxId then id else w.maxId
  obtain ⟨rfl, -⟩ | ⟨-, he⟩ := of_update hk
  · split <;> omega
  · have := h.below i k he
    split <;> omega

theorem Inv.step_remove (h : w.Inv) {o : Obj} (ho : w.slots id = .live o) :
    (w.remove id o).Inv ∧ Step w.registry (.remove id) (w.remove id o).registry := by
  have hl : w.registry.live id = some o.key := live_eq_some.mpr ⟨o, ho, rfl⟩
  have hreg : (w.remove id o).registry =
      ⟨update w.registry.live id none, w.registry.pending, .removed o.key :: w.registry.events⟩ :=
    registry_update ..
  refine h.of_step hreg (.remove hl) (fun u k i hu => ?_) (fun i k hk => ?_) h.scans
  · have hmark := h.marked u k i hu
    have hi : i ≠ id := by
      rintro rfl
      rw [ho] at hmark
      cases hmark
    change update w.slots id .unused i = .noid
    rw [update_of_ne hi]
    exact hmark
  · obtain ⟨-, he⟩ | ⟨hi, he⟩ := of_update hk
    · cases he
    have hbelow := h.below i k he
    change i ≤ if id = w.maxId then lowerMax w.slots w.maxId else w.maxId
    split
    case isTrue hmax =>
      apply lowerMax_spec _ _ _ (by omega)
      obtain ⟨o', ho', -⟩ := live_eq_some.mp he
      simp [ho']
    case isFalse => exact hbelow

theorem moves_of_step {m : Move ℤ τ} (h : w'.Inv ∧ Step w.registry m w'.registry)
    (hs : w.search kind op = none) (hm : ∀ t k i, m ≠ .reserve t k i) : Moves kind w op w' := by
  refine ⟨h.1, .inr ⟨m, h.2, ?_, ?_⟩⟩
  · intro a id ha
    rw [hs] at ha
    cases ha
  · intro t k i he
    exact absurd he (hm t k i)

/-- **Every step** is a move of the registry or leaves it as it is. -/
theorem Inv.moves (h : w.Inv) (hs : tableStep kind w op = some w') : Moves kind w op w' := by
  cases op with
  | get t a =>
    dsimp only [tableStep] at hs
    split at hs
    case h_1 hc =>
      cases hs
      exact h.moves_get (congrArg Phase.entry hc)
    case h_2 hc =>
      cases hs
      exact h.moves_get (congrArg Phase.entry hc)
    case h_3 => cases hs
  | wake t =>
    dsimp only [tableStep] at hs
    split at hs
    case h_1 a id hc =>
      cases hs
      exact h.moves_lookUp (congrArg Phase.entry hc) (by rw [search, hc]) (h.scans t a id hc)
    case h_2 => cases hs
  | alloc t ok =>
    dsimp only [tableStep] at hs
    split at hs
    case h_1 a id more hc =>
      cases hs
      cases ok with
      | false =>
        exact moves_of_step (h.step_giveUp hc) rfl (by simp)
      | true =>
        cases more with
        | zero =>
          exact moves_of_step (h.step_publish kind hc) rfl (by simp)
        | succ more =>
          have hreg : (w.setPhase t (.allocating a id more)).registry = w.registry :=
            registry_setPhase_same (pending_eq_some.mpr ⟨a, more + 1, hc, rfl⟩)
          exact ⟨h.of_registry hreg (fun _ hi => hi) rfl (h.scans_setPhase (by simp)), .inl ⟨hreg, nofun⟩⟩
    case h_2 => cases hs
  | remove id =>
    dsimp only [tableStep] at hs
    split at hs
    case h_1 o hc =>
      cases hs
      exact moves_of_step (h.step_remove hc) rfl (by simp)
    case h_2 => cases hs
  | markDest id =>
    dsimp only [tableStep] at hs
    split at hs
    case h_1 o hc =>
      cases hs
      have hreg : ({ w with slots := update w.slots id (.live { o with dest := true }) } : Table τ).registry =
          w.registry := by
        rw [registry_update]
        change State.mk (update w.registry.live id (some o.key)) _ _ = _
        rw [← live_eq_some.mpr ⟨o, hc, rfl⟩, update_eq_self]
        rfl
      refine ⟨h.of_registry hreg (fun i hi => ?_) rfl h.scans, .inl ⟨hreg, nofun⟩⟩
      obtain rfl | hne := eq_or_ne i id
      · rw [hc] at hi
        cases hi
      · exact (update_of_ne hne ..).trans hi
    case h_2 => cases hs

/-! ### Every run -/

/-- **One step.**  Keys stay unique, reserved slots included, just if the step sees them. -/
theorem Inv.unique_iff_sees (h : w.Inv) (hu : Unique Shared w.registry) (hs : tableStep kind w op = some w') :
    Unique Shared w'.registry ↔ w.Sees kind op := by
  obtain ⟨-, ⟨hsame, hno⟩ | ⟨m, hstep, hcreates, hreserve⟩⟩ := h.moves hs
  · rw [hsame]
    exact ⟨fun _ a id ha hc => absurd hc (hno a id ha), fun _ => hu⟩
  rw [hstep.unique_iff hu]
  constructor
  · intro hfresh a id ha hc j _
    obtain ⟨t, i, hm⟩ := hcreates a id ha hc
    exact hfresh t a.key i hm (h.search_shared ha) j
  · intro hsees t k i hm hk j hj
    obtain ⟨a, id, ha, hc, rfl⟩ := hreserve t k i hm hk
    by_cases hin : id ≤ j ∧ j ≤ max w.maxId id
    · exact h.not_holds_of_missing hc.1 hin.1 hin.2 hj
    · exact hsees a id ha hc j (by omega) hj

theorem Sound.step (h : w.Sound) (hsees : w.Sees kind op) (hs : tableStep kind w op = some w') : w'.Sound := by
  obtain ⟨hinv, hmove⟩ := h.inv.moves hs
  refine ⟨hinv, (h.inv.unique_iff_sees h.unique hs).mpr hsees, ?_⟩
  obtain ⟨hsame, -⟩ | ⟨m, hstep, -⟩ := hmove
  · rw [hsame]
    exact h.alternates
  · exact hstep.alternates h.inv.wellFormed h.unique h.alternates

end Table

def Sees (s : System τ) (a : Kind × Op τ) : Prop := (s a.1).Sees a.1 a.2

theorem sees_alloc (s : System τ) (kind : Kind) (t : τ) : Sees s (kind, .alloc t true) := by
  intro a id h
  cases h

variable [DecidableEq τ] {s s' : System τ} {kind : Kind}

theorem step_some {a : Kind × Op τ} (h : step s a = some s') :
    ∃ w', tableStep a.1 (s a.1) a.2 = some w' ∧ s' = update s a.1 w' := by
  obtain ⟨w', hw, rfl⟩ := Option.map_eq_some_iff.mp h
  exact ⟨w', hw, rfl⟩

theorem forall_step {P : Table τ → Prop} {a : Kind × Op τ} (h : ∀ kind, P (s kind))
    (hP : ∀ w', tableStep a.1 (s a.1) a.2 = some w' → P w') (hs : step s a = some s') (kind : Kind) : P (s' kind) := by
  obtain ⟨w', hw, rfl⟩ := step_some hs
  exact (Function.forall_update_iff s fun _ => P).mpr ⟨hP w' hw, fun kind _ => h kind⟩ kind

theorem sound_of_sees (hr : ReachesBy step Sees boot s) (kind : Kind) : (s kind).Sound := by
  have hall : ∀ kind, (s kind).Sound := by
    apply hr.invariant (I := fun s : System τ => ∀ kind, (s kind).Sound) Table.sound_boot
    intro s a s' h hsees hs
    exact forall_step h (fun w' hw => (h a.1).step hsees hw) hs
  exact hall kind

/-! ### A key that was not seen -/

theorem publish_run {t : τ} : ∀ (more : ℕ) (s : System τ) (a : Args) (id : ℕ), (∀ kind, (s kind).Inv) →
    (s kind).calls t = .allocating a id more →
    ∃ s', ReachesBy step Sees s s' ∧ (∀ kind, (s' kind).Inv) ∧
      Registry.Step (s kind).registry (.publish t) (s' kind).registry := by
  intro more
  induction more with
  | zero =>
    intro s a id hinv hc
    have hs : step s (kind, .alloc t true) = some (update s kind ((s kind).publish kind t a id)) := by
      rw [step, tableStep, hc]
      rfl
    refine ⟨_, (ReachesBy.refl s).tail (sees_alloc s kind t) hs, forall_step hinv (fun w' hw' => ((hinv kind).moves hw').1) hs, ?_⟩
    rw [update_self]
    exact ((hinv kind).step_publish kind hc).2
  | succ more ih =>
    intro s a id hinv hc
    have hs : step s (kind, .alloc t true) =
        some (update s kind ((s kind).setPhase t (.allocating a id more))) := by
      rw [step, tableStep, hc]
      rfl
    obtain ⟨s', hr, hinv', hstep⟩ := ih _ a id
      (forall_step hinv (fun w' hw' => ((hinv kind).moves hw').1) hs) (by
        rw [update_self]
        exact update_self ..)
    rw [update_self, Table.registry_setPhase_same (Table.pending_eq_some.mpr ⟨a, more + 1, hc, rfl⟩)] at hstep
    exact ⟨s', Relation.ReflTransGen.head ⟨_, sees_alloc s kind t, hs⟩ hr, hinv', hstep⟩

theorem live_run (hinv : ∀ kind, (s kind).Inv) {i : ℕ} {k : ℤ} (hi : (s kind).registry.Holds i k) :
    ∃ s', ReachesBy step Sees s s' ∧ (∀ kind, (s' kind).Inv) ∧ (s' kind).registry.live i = some k ∧
      (∀ j k', (s kind).registry.Holds j k' → (s' kind).registry.Holds j k') ∧
      ∀ j k', (s kind).registry.live j = some k' → (s' kind).registry.live j = some k' := by
  obtain hl | ⟨t, ht⟩ := hi
  · exact ⟨s, ReachesBy.refl s, hinv, hl, fun _ _ h => h, fun _ _ h => h⟩
  · obtain ⟨a, more, hc, -⟩ := Table.pending_eq_some.mp ht
    obtain ⟨s', hr, hinv', hstep⟩ := publish_run more s a i hinv hc
    obtain ⟨hlive, hholds⟩ := hstep.holds_publish (hinv kind).wellFormed ht
    exact ⟨s', hr, hinv', hlive, hholds, fun j k' hj => hstep.live_publish (hinv kind).wellFormed hj⟩

/-- Two slots with one shared key can both come to have an object. -/
theorem not_keysUnique_run (hinv : ∀ kind, (s kind).Inv) (h : ¬ Unique Table.Shared (s kind).registry) :
    ∃ s', ReachesBy step Sees s s' ∧ ¬ (s' kind).KeysUnique := by
  unfold Registry.Unique at h
  push Not at h
  obtain ⟨k, hk, i, j, hi, hj, hne⟩ := h
  obtain ⟨s₁, hr₁, hinv₁, hi₁, hholds, -⟩ := live_run hinv hi
  obtain ⟨s₂, hr₂, -, hj₂, -, hlive⟩ := live_run hinv₁ (hholds j k hj)
  refine ⟨s₂, Relation.ReflTransGen.trans hr₁ hr₂, fun hu => ?_⟩
  obtain ⟨o, ho, hok⟩ := Table.live_eq_some.mp (hlive i k hi₁)
  obtain ⟨o', ho', hok'⟩ := Table.live_eq_some.mp hj₂
  exact hne (hu i j o o' ho ho' (hok.trans hok'.symm) (hok ▸ hk))

/-- **The keys of the System V objects.** In a run in which no step creates a key that is held where its search does not
look, the keys are unique in every state, and `findkey` looks at every object; another step keeps that just if it sees the
keys, too. -/
theorem keysUnique_iff_sees (s : System τ) (hr : ReachesBy step Sees boot s) :
    (∀ kind, (s kind).Good) ∧
      ∀ a s', step s a = some s' → (Sees s a ↔ ∀ s'', ReachesBy step Sees s' s'' → (s'' a.1).KeysUnique) := by
  have hsound := sound_of_sees hr
  refine ⟨fun kind => (hsound kind).good, ?_⟩
  intro a s' hs
  constructor
  · intro hsees s'' hr''
    have hreach : ReachesBy step Sees boot s'' := Relation.ReflTransGen.trans (hr.tail hsees hs) hr''
    exact (sound_of_sees hreach a.1).good.unique
  · intro hall
    by_contra hsees
    have hinv : ∀ kind, (s' kind).Inv :=
      forall_step (fun kind => (hsound kind).inv) (fun w' hw => ((hsound a.1).inv.moves hw).1) hs
    have hnot : ¬ Unique Table.Shared (s' a.1).registry := by
      obtain ⟨w', hw, rfl⟩ := step_some hs
      rw [update_self, (hsound a.1).inv.unique_iff_sees (hsound a.1).unique hw]
      exact hsees
    obtain ⟨s'', hr'', htwo⟩ := not_keysUnique_run hinv hnot
    exact htwo (hall s'' hr'')

/-- A call that creates the key `k` and must be the first one to do so. -/
def firstOf (k : ℤ) : Args := ⟨k, true, true, 4096, true⟩

/-- The first creator of a key gets its object, and the next one is refused. -/
theorem keysUnique_iff_sees_first : ∃ s : System (Fin 3), (s .msg).calls 0 = .returned (.ok 0) ∧
    (s .msg).calls 1 = .returned (.error .eexist) ∧ ∀ kind, (s kind).Good := by
  have hsees : Sees (boot : System (Fin 3)) (.msg, .get 0 (firstOf 5)) := by
    rintro a id - - j - (h | ⟨t, h⟩)
    · cases h
    · cases h
  have hmade : ReachesBy step Sees boot _ := ((ReachesBy.refl _).tail hsees rfl).tail (sees_alloc _ .msg 0) rfl
  have hr : ReachesBy step Sees boot _ := hmade.tail (a := (.msg, .get 1 (firstOf 5))) (by
    rintro a id ⟨⟩ ⟨hmiss, -⟩
    exact absurd hmiss (by decide +kernel)) rfl
  exact ⟨_, by decide +kernel, by decide +kernel, (keysUnique_iff_sees _ hr).1⟩

def allocs (kind : Kind) (t : Fin 3) : List (Kind × Op (Fin 3)) :=
  List.replicate (Table.moreAllocs kind + 1) (kind, .alloc t true)

/-- The call 0 makes an object in slot 0; the calls 1 and 2 both mark a slot above it before either has its
memory. -/
def raceRun (kind : Kind) : List (Kind × Op (Fin 3)) :=
  (kind, .get 0 (firstOf 5)) :: allocs kind 0 ++ [(kind, .get 1 (firstOf 7)), (kind, .get 2 (firstOf 7))] ++
    allocs kind 1 ++ allocs kind 2

/-- The objects 1 and 2 have one key, and both calls that made them have succeeded. -/
def MadeTwice (kind : Kind) (s : System (Fin 3)) : Prop :=
  (s kind).calls 1 = .returned (.ok 1) ∧ (s kind).calls 2 = .returned (.ok 2) ∧ ¬ (s kind).KeysUnique

theorem madeTwice_raceRun (kind : Kind) : ∃ s, Reaches step boot s ∧ MadeTwice kind s := by
  obtain ⟨s, hs, ⟨h1, h2⟩, hk1, hk2⟩ : ∃ s, Reaches step boot s ∧
      ((s kind).calls 1 = .returned (.ok 1) ∧ (s kind).calls 2 = .returned (.ok 2)) ∧
        ((s kind).slots 1).key = some 7 ∧ ((s kind).slots 2).key = some 7 :=
    Reaches.exists_of_exec (raceRun kind) (by cases kind <;> decide +kernel)
  refine ⟨s, hs, h1, h2, fun hu => ?_⟩
  obtain ⟨o, ho, hok⟩ := Table.live_eq_some.mp hk1
  obtain ⟨o', ho', hok'⟩ := Table.live_eq_some.mp hk2
  have hsame := hu 1 2 o o' ho ho' (hok.trans hok'.symm) (by rw [hok]; decide)
  cases hsame

/-- **Two creators of one key.**  Both calls have `IPC_CREAT | IPC_EXCL`, both succeed, and there are two
objects with the key 7, for message queues and for segments. -/
theorem race_creates_twice :
    (∃ s, Reaches step boot s ∧ MadeTwice .msg s) ∧ ∃ s, Reaches step boot s ∧ MadeTwice .shm s :=
  ⟨madeTwice_raceRun .msg, madeTwice_raceRun .shm⟩

end I370Linux.KeyTable
