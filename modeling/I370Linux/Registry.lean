import I370Linux.Census

/-! # Registries of keyed objects

A registry holds objects in numbered places.  An object is made in two moves: its maker reserves a place
for a key, and later publishes the object there or gives the place up.  `Unique` says that no two places
hold one key, reserved places included.  A step keeps it just if no reservation is made for a key that is
held already (`Step.unique_iff`), and then the creations and removals of each key alternate
(`Step.alternates`). -/

namespace I370Linux.Registry

open Function

variable {κ τ : Type*}

inductive Event (κ : Type*) where
  | created (k : κ)
  | removed (k : κ)
deriving DecidableEq

/-- Whether there is an object with the key after the events, the last of which stands first.  It is `none`
if one was created while there was one, or removed while there was none. -/
def present [DecidableEq κ] (k : κ) : List (Event κ) → Option Bool
  | [] => some false
  | .created k' :: l => if k' = k then if present k l = some false then some true else none else present k l
  | .removed k' :: l => if k' = k then if present k l = some true then some false else none else present k l

/-- The objects in their places, the makers with the places they have reserved, and the events. -/
structure State (κ τ : Type*) where
  live : ℕ → Option κ
  pending : τ → Option (κ × ℕ)
  events : List (Event κ)

/-- A place holds a key, by an object or by a reservation. -/
def State.Holds (r : State κ τ) (i : ℕ) (k : κ) : Prop := r.live i = some k ∨ ∃ t, r.pending t = some (k, i)

/-- What makers and removers do. -/
inductive Move (κ τ : Type*) where
  | reserve (t : τ) (k : κ) (i : ℕ)
  | drop (t : τ)
  | publish (t : τ)
  | remove (i : ℕ)

variable [DecidableEq τ] {r r' : State κ τ} {m : Move κ τ} {S : κ → Prop}

/-- A place is reserved before it is filled. -/
inductive Step (r : State κ τ) : Move κ τ → State κ τ → Prop where
  | reserve {t : τ} {k : κ} {i : ℕ} (idle : r.pending t = none) (free : ∀ k', ¬ r.Holds i k') :
      Step r (.reserve t k i) { r with pending := update r.pending t (some (k, i)) }
  | drop {t : τ} {k : κ} {i : ℕ} (h : r.pending t = some (k, i)) :
      Step r (.drop t) { r with pending := update r.pending t none }
  | publish {t : τ} {k : κ} {i : ℕ} (h : r.pending t = some (k, i)) :
      Step r (.publish t)
        ⟨update r.live i (some k), update r.pending t none, .created k :: r.events⟩
  | remove {i : ℕ} {k : κ} (h : r.live i = some k) :
      Step r (.remove i) ⟨update r.live i none, r.pending, .removed k :: r.events⟩

/-- A reserved place is empty, and has one maker. -/
structure WellFormed (r : State κ τ) : Prop where
  empty : ∀ t k i, r.pending t = some (k, i) → r.live i = none
  maker : ∀ t t' k k' i, r.pending t = some (k, i) → r.pending t' = some (k', i) → t = t'

/-- No two places hold one of the keys in `S`. -/
def Unique (S : κ → Prop) (r : State κ τ) : Prop := ∀ k, S k → ∀ i j, r.Holds i k → r.Holds j k → i = j

/-- The creations and removals of each key in `S` alternate, and the last one tells whether it is live. -/
def Alternates [DecidableEq κ] (S : κ → Prop) (r : State κ τ) : Prop :=
  ∀ k, S k → ∃ b, present k r.events = some b ∧ (b = true ↔ ∃ i, r.live i = some k)

/-! ### What a step does to the places -/

theorem Step.wellFormed (h : Step r m r') (hw : WellFormed r) : WellFormed r' := by
  cases h with
  | reserve idle free =>
    constructor
    · intro u k i hu
      rcases of_update hu with ⟨-, he⟩ | ⟨-, he⟩
      · cases he
        exact Option.eq_none_iff_forall_ne_some.mpr fun k' hk => free k' (.inl hk)
      · exact hw.empty u k i he
    · intro u u' k k' i hu hu'
      rcases of_update hu with ⟨rfl, he⟩ | ⟨-, he⟩ <;> rcases of_update hu' with ⟨rfl, he'⟩ | ⟨-, he'⟩
      · rfl
      · cases he
        exact absurd (.inr ⟨u', he'⟩) (free k')
      · cases he'
        exact absurd (.inr ⟨u, he⟩) (free k)
      · exact hw.maker u u' k k' i he he'
  | drop h =>
    constructor
    · intro u k i hu
      rcases of_update hu with ⟨-, he⟩ | ⟨-, he⟩
      · cases he
      · exact hw.empty u k i he
    · intro u u' k k' i hu hu'
      rcases of_update hu with ⟨-, he⟩ | ⟨-, he⟩
      · cases he
      · rcases of_update hu' with ⟨-, he'⟩ | ⟨-, he'⟩
        · cases he'
        · exact hw.maker u u' k k' i he he'
  | @publish t k₀ i₀ h =>
    constructor
    · intro u k i hu
      rcases of_update hu with ⟨-, he⟩ | ⟨hne, he⟩
      · cases he
      -- another maker has another place
      have hi : i ≠ i₀ := by
        rintro rfl
        exact hne (hw.maker u t k k₀ i he h)
      change update r.live i₀ (some k₀) i = none
      rw [update_of_ne hi]
      exact hw.empty u k i he
    · intro u u' k k' i hu hu'
      rcases of_update hu with ⟨-, he⟩ | ⟨-, he⟩
      · cases he
      · rcases of_update hu' with ⟨-, he'⟩ | ⟨-, he'⟩
        · cases he'
        · exact hw.maker u u' k k' i he he'
  | @remove i₀ k₀ h =>
    constructor
    · intro u k i hu
      rcases eq_or_ne i i₀ with rfl | hi
      · exact update_self ..
      · change update r.live i₀ none i = none
        rw [update_of_ne hi]
        exact hw.empty u k i hu
    · exact hw.maker

variable {i : ℕ} {k : κ} {t : τ}

theorem Step.holds (h : Step r m r') (hk : r'.Holds i k) : r.Holds i k ∨ ∃ t, m = .reserve t k i := by
  cases h with
  | @reserve t k₀ i₀ idle free =>
    obtain hl | ⟨u, hu⟩ := hk
    · exact .inl (.inl hl)
    · obtain ⟨-, he⟩ | ⟨-, he⟩ := of_update hu
      · cases he
        exact .inr ⟨t, rfl⟩
      · exact .inl (.inr ⟨u, he⟩)
  | drop h =>
    obtain hl | ⟨u, hu⟩ := hk
    · exact .inl (.inl hl)
    · obtain ⟨-, he⟩ | ⟨-, he⟩ := of_update hu
      · cases he
      · exact .inl (.inr ⟨u, he⟩)
  | @publish t k₀ i₀ h =>
    obtain hl | ⟨u, hu⟩ := hk
    · obtain ⟨rfl, he⟩ | ⟨-, he⟩ := of_update hl
      · cases he
        exact .inl (.inr ⟨t, h⟩)
      · exact .inl (.inl he)
    · obtain ⟨-, he⟩ | ⟨-, he⟩ := of_update hu
      · cases he
      · exact .inl (.inr ⟨u, he⟩)
  | @remove i₀ k₀ h =>
    obtain hl | hp := hk
    · obtain ⟨-, he⟩ | ⟨-, he⟩ := of_update hl
      · cases he
      · exact .inl (.inl he)
    · exact .inl (.inr hp)

theorem Step.holds_reserve (h : Step r (.reserve t k i) r') :
    r'.Holds i k ∧ ∀ j k', r.Holds j k' → r'.Holds j k' := by
  cases h with
  | reserve idle free =>
    refine ⟨.inr ⟨t, update_self ..⟩, ?_⟩
    rintro j k' (hl | ⟨u, hu⟩)
    · exact .inl hl
    · have hne : u ≠ t := by
        rintro rfl
        rw [idle] at hu
        cases hu
      refine .inr ⟨u, ?_⟩
      change update r.pending t _ u = _
      rw [update_of_ne hne, hu]

/-! ### Unique keys -/

/-- **Keys stay unique** just if a place is reserved only for a key that is not held. -/
theorem Step.unique_iff (h : Step r m r') (hu : Unique S r) :
    Unique S r' ↔ ∀ t k i, m = .reserve t k i → S k → ∀ j, ¬ r.Holds j k := by
  constructor
  · rintro hu' t k i rfl hk j hj
    obtain ⟨hi, hold⟩ := h.holds_reserve
    have hji : j = i := hu' k hk j i (hold j k hj) hi
    subst hji
    cases h with
    | reserve idle free => exact free k hj
  · intro hfresh k hk i j hi hj
    obtain hi | ⟨t, rfl⟩ := h.holds hi
    · obtain hj | ⟨t, rfl⟩ := h.holds hj
      · exact hu k hk i j hi hj
      · exact absurd hi (hfresh t k j rfl hk i)
    · obtain hj | ⟨t', he⟩ := h.holds hj
      · exact absurd hj (hfresh t k i rfl hk j)
      · cases he
        rfl

/-- **Creations and removals alternate** as long as keys are unique. -/
theorem Step.alternates [DecidableEq κ] (h : Step r m r') (hw : WellFormed r) (hu : Unique S r)
    (ha : Alternates S r) : Alternates S r' := by
  intro k hk
  obtain ⟨b, hb, hlive⟩ := ha k hk
  cases h with
  | reserve idle free | drop h => exact ⟨b, hb, hlive⟩
  | @publish t k₀ i₀ h =>
    obtain rfl | hk₀ := eq_or_ne k₀ k
    · -- the maker alone holds the key, so that there is no object with it yet
      have hnone : ¬ ∃ i, r.live i = some k₀ := by
        rintro ⟨i, hi⟩
        have hii : i = i₀ := hu k₀ hk i i₀ (.inl hi) (.inr ⟨t, h⟩)
        subst hii
        rw [hw.empty t k₀ i h] at hi
        cases hi
      have hfalse : b = false := by
        cases b
        · rfl
        · exact absurd (hlive.mp rfl) hnone
      refine ⟨true, ?_, ⟨fun _ => ⟨i₀, update_self ..⟩, fun _ => rfl⟩⟩
      rw [present, if_pos rfl, hb, hfalse, if_pos rfl]
    · refine ⟨b, by rw [present, if_neg hk₀, hb], hlive.trans (exists_congr fun i => ?_)⟩
      change _ ↔ update r.live i₀ (some k₀) i = some k
      obtain rfl | hi := eq_or_ne i i₀
      · rw [update_self, hw.empty t k₀ i h]
        simp [hk₀]
      · rw [update_of_ne hi]
  | @remove i₀ k₀ h =>
    obtain rfl | hk₀ := eq_or_ne k₀ k
    · have htrue : b = true := hlive.mpr ⟨i₀, h⟩
      refine ⟨false, by rw [present, if_pos rfl, hb, htrue, if_pos rfl], ?_⟩
      refine ⟨nofun, ?_⟩
      rintro ⟨i, hi⟩
      obtain ⟨-, he⟩ | ⟨hii, he⟩ := of_update hi
      · cases he
      · exact absurd (hu k₀ hk i i₀ (.inl he) (.inl h)) hii
    · refine ⟨b, by rw [present, if_neg hk₀, hb], hlive.trans (exists_congr fun i => ?_)⟩
      change _ ↔ update r.live i₀ none i = some k
      obtain rfl | hi := eq_or_ne i i₀
      · rw [update_self, h]
        simp [hk₀]
      · rw [update_of_ne hi]

/-! ### Keys held twice -/

/-- A place that holds a key when a maker publishes goes on holding it, and the maker's place has the
object. -/
theorem Step.holds_publish (h : Step r (.publish t) r') (hw : WellFormed r)
    (ht : r.pending t = some (k, i)) : r'.live i = some k ∧ ∀ j k', r.Holds j k' → r'.Holds j k' := by
  cases h with
  | @publish _ k₀ i₀ h =>
    rw [h] at ht
    cases ht
    refine ⟨update_self .., ?_⟩
    rintro j k' (hl | ⟨u, hu⟩)
    · have hj : j ≠ i := by
        rintro rfl
        rw [hw.empty t k j h] at hl
        cases hl
      refine .inl ?_
      change update r.live i (some k) j = some k'
      rw [update_of_ne hj, hl]
    · obtain rfl | hut := eq_or_ne u t
      · rw [h] at hu
        cases hu
        exact .inl (update_self ..)
      · refine .inr ⟨u, ?_⟩
        change update r.pending t none u = _
        rw [update_of_ne hut, hu]

theorem Step.live_publish (h : Step r (.publish t) r') (hw : WellFormed r) {j : ℕ}
    (hj : r.live j = some k) : r'.live j = some k := by
  cases h with
  | @publish _ k₀ i₀ h =>
    have hne : j ≠ i₀ := by
      rintro rfl
      rw [hw.empty t k₀ j h] at hj
      cases hj
    change update r.live i₀ (some k₀) j = some k
    rw [update_of_ne hne, hj]

end I370Linux.Registry
