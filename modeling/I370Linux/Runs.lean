import Mathlib

/-! # Runs of a partial step function

A system is a partial step function `step : σ → α → Option σ`: the label `α` names the step taken
(which party moves, which call is made, what the environment answers) and `none` means that the
step is not enabled.  `ReachesBy step C s t` says that `t` is reached from `s` by steps that all
meet the condition `C` in the state they start from; `Reaches step` puts no condition on them.

`ReachesBy.invariant` is the invariant rule (what one step keeps, a whole run keeps),
`ReachesBy.of_wellFounded` is the progress rule, and `ReachesBy.of_exec` turns an executed list of
labels into a run.  `Trace` is a run of a step relation through a list of labels, and `Trace.of_exec` is
the simulation rule: if every step of the function is matched by a step of the relation with the same
label, so is every executed list of labels. -/

namespace I370Linux.Runs

variable {σ α : Type*}

/-! Numerals of `Fin 3` and `Fin 32`, for parties and table slots, rest on one proof in all modules. -/

instance neZeroThree : NeZero 3 := ⟨by decide⟩

instance neZeroThirtyTwo : NeZero 32 := ⟨by decide⟩

/-- One step whose label meets the condition `C` in the state it starts from. -/
def StepBy (step : σ → α → Option σ) (C : σ → α → Prop) (s t : σ) : Prop :=
  ∃ a, C s a ∧ step s a = some t

/-- `t` is reached from `s` by steps that all meet the condition `C`. -/
def ReachesBy (step : σ → α → Option σ) (C : σ → α → Prop) : σ → σ → Prop :=
  Relation.ReflTransGen (StepBy step C)

/-- `t` is reached from `s`. -/
def Reaches (step : σ → α → Option σ) : σ → σ → Prop := ReachesBy step (fun _ _ => True)

/-- The inversion of a guarded step. -/
theorem of_guard {p : Prop} [Decidable p] {s t : σ} (h : (if p then some s else none) = some t) : p ∧ s = t := by
  obtain ⟨hp, h⟩ := Option.ite_none_right_eq_some.mp h
  exact ⟨hp, Option.some.inj h⟩

variable {step : σ → α → Option σ} {C : σ → α → Prop} {s t u : σ}

theorem ReachesBy.refl (s : σ) : ReachesBy step C s s := Relation.ReflTransGen.refl

theorem ReachesBy.tail {a : α} (h : ReachesBy step C s t) (hc : C t a) (hs : step t a = some u) :
    ReachesBy step C s u :=
  Relation.ReflTransGen.tail h ⟨a, hc, hs⟩

variable {I : σ → Prop} {c : σ → α → Bool}

/-- The invariant rule: a property kept by every step that meets the condition holds in every
state of a run from a state that has it. -/
theorem ReachesBy.invariant (hr : ReachesBy step C s t) (h0 : I s)
    (hstep : ∀ s a t, I s → C s a → step s a = some t → I t) : I t := by
  induction hr with
  | refl => exact h0
  | tail _ h ih =>
    obtain ⟨a, hc, hs⟩ := h
    exact hstep _ a _ ih hc hs

/-- Execute a list of labels, each of which must pass the test `c` in the state it starts from. -/
def exec (step : σ → α → Option σ) (c : σ → α → Bool) (s : σ) (as : List α) : Option σ :=
  as.foldlM (fun s a => if c s a then step s a else none) s

theorem exec_cons_eq_some {a : α} {as : List α} :
    exec step c s (a :: as) = some t ↔ ∃ u, (c s a = true ∧ step s a = some u) ∧ exec step c u as = some t := by
  simp only [exec, List.foldlM_cons, Option.bind_eq_bind, Option.bind_eq_some_iff, Option.ite_none_right_eq_some]

theorem exec_append {as as' : List α} (h : exec step c s as = some t) :
    exec step c s (as ++ as') = exec step c t as' := by
  rw [exec, List.foldlM_append, ← exec, h]
  rfl

theorem ReachesBy.of_exec : ∀ (as : List α) (s t : σ),
    exec step c s as = some t → ReachesBy step (fun s a => c s a = true) s t
  | [], s, t, h => by
    simp only [exec, List.foldlM_nil, Option.pure_def, Option.some.injEq] at h
    rw [h]
    exact ReachesBy.refl t
  | a :: as, s, t, h => by
    obtain ⟨u, ⟨hc, hu⟩, hrest⟩ := exec_cons_eq_some.mp h
    exact Relation.ReflTransGen.head ⟨a, hc, hu⟩ (ReachesBy.of_exec as u t hrest)

theorem Reaches.of_exec (as : List α) (s t : σ) (h : exec step (fun _ _ => true) s as = some t) :
    Reaches step s t := by
  have := ReachesBy.of_exec as s t h
  simpa [Reaches] using this

variable {P : σ → Prop} [DecidablePred P] (as : List α)

theorem ReachesBy.exists_of_exec (h : (exec step c s as).any (P ·) = true) :
    ∃ t, ReachesBy step (fun s a => c s a = true) s t ∧ P t := by
  obtain ⟨t, ht, hp⟩ := (Option.any_eq_true ..).mp h
  exact ⟨t, .of_exec as s t ht, of_decide_eq_true hp⟩

theorem Reaches.exists_of_exec (h : (exec step (fun _ _ => true) s as).any (P ·) = true) :
    ∃ t, Reaches step s t ∧ P t := by
  have := ReachesBy.exists_of_exec as h
  simpa [Reaches] using this

/-- The progress rule: if from every state with the invariant that is not final some step leads down a
well-founded relation and keeps the invariant, a final state is reached. -/
theorem ReachesBy.of_wellFounded {r : σ → σ → Prop} (wf : WellFounded r) {F : σ → Prop}
    (hstep : ∀ s, I s → ¬ F s → ∃ a t, C s a ∧ step s a = some t ∧ I t ∧ r t s) (hs : I s) :
    ∃ t, ReachesBy step C s t ∧ F t := by
  induction s using wf.induction with
  | _ s ih =>
    by_cases hF : F s
    · exact ⟨s, .refl s, hF⟩
    · obtain ⟨a, t, hc, hst, hI, hr⟩ := hstep s hs hF
      obtain ⟨u, hu, hFu⟩ := ih t hr hI
      exact ⟨u, Relation.ReflTransGen.head ⟨a, hc, hst⟩ hu, hFu⟩

/-- A run of a step relation through a list of labels. -/
inductive Trace {β : Type*} (astep : β → α → β → Prop) : β → List α → β → Prop
  | nil (b : β) : Trace astep b [] b
  | cons {b c d : β} {a : α} {as : List α} (h : astep b a c) (hs : Trace astep c as d) :
      Trace astep b (a :: as) d

theorem Trace.append {β : Type*} {astep : β → α → β → Prop} {b c d : β} {as as' : List α} (h : Trace astep b as c)
    (h' : Trace astep c as' d) : Trace astep b (as ++ as') d := by
  induction h with
  | nil => exact h'
  | cons ha _ ih => exact .cons ha (ih h')

theorem Trace.of_exec {β : Type*} {astep : β → α → β → Prop} {R : σ → β → Prop}
    (hstep : ∀ s a t b, R s b → step s a = some t → ∃ b', astep b a b' ∧ R t b') (as : List α) :
    ∀ (s t : σ) (b : β), R s b → exec step c s as = some t → ∃ b', Trace astep b as b' ∧ R t b' := by
  induction as with
  | nil =>
    intro s t b hR h
    simp only [exec, List.foldlM_nil, Option.pure_def, Option.some.injEq] at h
    subst h
    exact ⟨b, .nil b, hR⟩
  | cons a as ih =>
    intro s t b hR h
    obtain ⟨u, ⟨-, hu⟩, hrest⟩ := exec_cons_eq_some.mp h
    obtain ⟨b', hb', hR'⟩ := hstep s a u b hR hu
    obtain ⟨b'', htr, hR''⟩ := ih u t b' hR' hrest
    exact ⟨b'', .cons hb' htr, hR''⟩

end I370Linux.Runs
