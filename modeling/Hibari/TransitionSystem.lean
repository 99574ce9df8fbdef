import Mathlib

/-!
# Transition systems and their invariants

A concurrent program is read here as one partial step function: a state, an
action, and the state the action leads to, absent where the action is not
enabled. Whatever the scheduler, the network or another party decides – the
order of the steps, which message is delivered and when, at which moment a
remote read took place – is part of the action, so a run is a list of
actions and quantifying over runs is quantifying over interleavings.

Runs are filtered by a predicate on steps. Most results take the trivial
one; a result that holds only while some branch is not taken says so in the
predicate, and `ReachableBy.invariant` is the same rule in both cases: what
holds at the start and is kept by every admitted step holds in every state
an admitted run reaches.
-/

/-- **A transition system**: where a run may start, and what an action does
to a state – nothing, where it is not enabled. -/
structure TransitionSystem (σ α : Type*) where
  /-- The states a run may start from. -/
  init : σ → Prop
  /-- The state an action leads to, if it is enabled. -/
  step : σ → α → Option σ

namespace TransitionSystem

open Option

variable {σ α : Type*} (M : TransitionSystem σ α)

/-- Finitely many steps, each of them admitted by `P`. -/
def Steps (P : σ → α → Prop) : σ → σ → Prop :=
  Relation.ReflTransGen (fun s s' => ∃ a, P s a ∧ M.step s a = some s')

/-- The states that runs reach when every step they take is admitted. -/
def ReachableBy (P : σ → α → Prop) (s : σ) : Prop :=
  ∃ s₀, M.init s₀ ∧ M.Steps P s₀ s

/-- The states that runs reach, no step being excluded. -/
abbrev Reachable : σ → Prop := M.ReachableBy (fun _ _ => True)

/-- The state a list of actions leads to, if each is enabled in turn. -/
def run (s : σ) (as : List α) : Option σ := as.foldlM M.step s

/-- The state a list of actions leads to, if each is enabled and admitted in
turn. -/
def runBy (P : σ → α → Prop) [∀ s a, Decidable (P s a)] (s : σ) (as : List α) : Option σ :=
  as.foldlM (fun s a => if P s a then M.step s a else none) s

variable {M} {P Q : σ → α → Prop} {s s' s'' : σ} {a : α}

theorem Steps.refl : M.Steps P s s := Relation.ReflTransGen.refl

theorem Steps.single (hp : P s a) (hs : M.step s a = some s') :
    M.Steps P s s' := Relation.ReflTransGen.single ⟨a, hp, hs⟩

theorem Steps.tail (h : M.Steps P s s') (hp : P s' a)
    (hs : M.step s' a = some s'') : M.Steps P s s'' :=
  Relation.ReflTransGen.tail h ⟨a, hp, hs⟩

theorem Steps.trans (h : M.Steps P s s') (h' : M.Steps P s' s'') :
    M.Steps P s s'' := Relation.ReflTransGen.trans h h'

/-- Steps that a predicate admits are admitted by any weaker one. -/
theorem Steps.mono (hPQ : ∀ s a, P s a → Q s a) (h : M.Steps P s s') : M.Steps Q s s' := by
  induction h with
  | refl => exact Steps.refl
  | tail _ hlast ih =>
    obtain ⟨a, hp, hs⟩ := hlast
    exact ih.tail (hPQ _ a hp) hs

/-- **The run rule**: what every admitted step keeps, a run keeps. -/
theorem Steps.preserves {I : σ → Prop} (hstep : ∀ s a s', I s → P s a → M.step s a = some s' → I s')
    (h : M.Steps P s s') (hI : I s) : I s' := by
  induction h with
  | refl => exact hI
  | tail _ hlast ih =>
    obtain ⟨a, hp, hs⟩ := hlast
    exact hstep _ a _ ih hp hs

theorem ReachableBy.start (h : M.init s) : M.ReachableBy P s :=
  ⟨s, h, Steps.refl⟩

theorem ReachableBy.tail (h : M.ReachableBy P s) (hp : P s a)
    (hs : M.step s a = some s') : M.ReachableBy P s' := by
  obtain ⟨s₀, h₀, hrun⟩ := h
  exact ⟨s₀, h₀, hrun.tail hp hs⟩

theorem ReachableBy.steps (h : M.ReachableBy P s) (hs : M.Steps P s s') : M.ReachableBy P s' := by
  obtain ⟨s₀, h₀, hrun⟩ := h
  exact ⟨s₀, h₀, hrun.trans hs⟩

theorem ReachableBy.mono (hPQ : ∀ s a, P s a → Q s a)
    (h : M.ReachableBy P s) : M.ReachableBy Q s := by
  obtain ⟨s₀, h₀, hrun⟩ := h
  exact ⟨s₀, h₀, hrun.mono hPQ⟩

/-- **The invariant rule**: what holds at the start and is kept by every
admitted step holds in every state reached by admitted steps. -/
theorem ReachableBy.invariant {I : σ → Prop} (hinit : ∀ s, M.init s → I s)
    (hstep : ∀ s a s', I s → P s a → M.step s a = some s' → I s')
    (h : M.ReachableBy P s) : I s := by
  obtain ⟨s₀, h₀, hrun⟩ := h
  exact hrun.preserves hstep (hinit s₀ h₀)

/-- A list of admitted actions that runs through is a sequence of steps. -/
theorem steps_of_run {as : List α} (hP : ∀ a ∈ as, ∀ s, P s a) (h : M.run s as = some s') :
    M.Steps P s s' := by
  induction as generalizing s with
  | nil =>
    obtain rfl : s = s' := some.inj h
    exact Steps.refl
  | cons a as ih =>
    obtain ⟨t, ht, hrest⟩ : ∃ t, M.step s a = some t ∧ M.run t as = some s' :=
      bind_eq_some_iff.mp h
    have hfirst : M.Steps P s t := Steps.single (hP a (.head _) s) ht
    exact hfirst.trans (ih (fun b hb => hP b (.tail _ hb)) hrest)

/-- A list of admitted actions that runs through from a start reaches its
end. -/
theorem reachableBy_of_run {as : List α} (h₀ : M.init s) (hP : ∀ a ∈ as, ∀ s, P s a)
    (h : M.run s as = some s') : M.ReachableBy P s' :=
  ⟨s, h₀, steps_of_run hP h⟩

/-- A list of actions that runs through, each admitted where it is taken, is a
sequence of admitted steps. -/
theorem steps_of_runBy [∀ s a, Decidable (P s a)] {as : List α}
    (h : M.runBy P s as = some s') : M.Steps P s s' := by
  induction as generalizing s with
  | nil =>
    obtain rfl : s = s' := some.inj h
    exact Steps.refl
  | cons a as ih =>
    obtain ⟨t, ht, hrest⟩ : ∃ t, (if P s a then M.step s a else none) = some t
        ∧ M.runBy P t as = some s' := bind_eq_some_iff.mp h
    split at ht
    · next hP => exact (Steps.single hP ht).trans (ih hrest)
    · cases ht

theorem reachableBy_of_runBy [∀ s a, Decidable (P s a)] {as : List α} (h₀ : M.init s)
    (h : M.runBy P s as = some s') : M.ReachableBy P s' :=
  ⟨s, h₀, steps_of_runBy h⟩

/-- What a list of actions ends in is reached. -/
theorem exists_of_run {as : List α} {p : σ → Bool} (h : (M.run s as).any p = true)
    (h₀ : M.init s) : ∃ s', M.Reachable s' ∧ p s' = true := by
  obtain ⟨s', hs, hp⟩ := (any_eq_true _ _).mp h
  exact ⟨s', reachableBy_of_run h₀ (fun _ _ _ => trivial) hs, hp⟩

/-- The same of actions that are admitted. -/
theorem exists_of_runBy [∀ s a, Decidable (P s a)] {as : List α} {p : σ → Bool}
    (h : (M.runBy P s as).any p = true) (h₀ : M.init s) :
    ∃ s', M.ReachableBy P s' ∧ p s' = true := by
  obtain ⟨s', hs, hp⟩ := (any_eq_true _ _).mp h
  exact ⟨s', reachableBy_of_runBy h₀ hs, hp⟩

end TransitionSystem
