import Mathlib

/-!
# Replaying a log

A log is a faithful history of a value if it can be **replayed**: each of its lines fits the
value that those before it lead to, and the last leads to the value as it is. A part of such
a log, read alone, is the history of a part of the value (`replay_filterMap`).

Two parts are worth a name. A **switch** is a truth value that each line turns; its lines
alternate (`alternates_of_replay`). A **chain** is a value that each line says the old and the
new of; each line takes up where the last one left off (`chains_of_replay`).
-/

namespace Replay

open List Option

variable {σ τ ε δ : Type*}

/-- The value that a log leads to, if each line fits. -/
def replay (apply : σ → ε → Option σ) (s : σ) (l : List ε) : Option σ := l.foldlM apply s

section General

variable {apply : σ → ε → Option σ} {s s' s'' : σ} {l : List ε} {e : ε}

@[simp] theorem replay_cons :
    replay apply s (e :: l) = (apply s e).bind fun s' => replay apply s' l := rfl

/-- A log goes on with one more line. -/
theorem replay_concat (h : replay apply s l = some s') (he : apply s' e = some s'') :
    replay apply s (l ++ [e]) = some s'' := by
  induction l generalizing s with
  | nil =>
    cases h
    rw [nil_append, replay_cons, he]
    rfl
  | cons _ _ ih =>
    rw [replay_cons] at h
    obtain ⟨t, ht, hrest⟩ := bind_eq_some_iff.mp h
    rw [cons_append, replay_cons, ht]
    exact ih hrest

/-- **A part of a log is the history of a part of the value**, if the lines that are left out
leave that part as it is. -/
theorem replay_filterMap {part : σ → τ} {line : ε → Option δ} {apply' : τ → δ → Option τ}
    (hpart : ∀ s e s', apply s e = some s' →
      (∀ x, line e = some x → apply' (part s) x = some (part s')) ∧
        (line e = none → part s' = part s))
    (h : replay apply s l = some s') :
    replay apply' (part s) (l.filterMap line) = some (part s') := by
  induction l generalizing s with
  | nil =>
    cases h
    rfl
  | cons e _ ih =>
    rw [replay_cons] at h
    obtain ⟨t, ht, hrest⟩ := bind_eq_some_iff.mp h
    obtain ⟨hsome, hnone⟩ := hpart s e t ht
    cases hline : line e with
    | none =>
      rw [filterMap_cons_none hline, ← hnone hline]
      exact ih hrest
    | some x =>
      rw [filterMap_cons_some hline, replay_cons, hsome x hline]
      exact ih hrest

end General

/-! ## Switches -/

/-- A switch is turned: a line says what it is from then on. -/
def turn (b x : Bool) : Option Bool := if x = b then none else some x

/-- **The lines of a switch alternate**, from what it was to what it is. -/
def Alternates (b : Bool) (l : List Bool) (c : Bool) : Prop :=
  (b :: l).IsChain (· ≠ ·) ∧ (b :: l).getLast? = some c

theorem turn_eq_some {b x c : Bool} (h : turn b x = some c) : b ≠ x ∧ c = x := by
  unfold turn at h
  by_cases heq : x = b
  · rw [if_pos heq] at h
    cases h
  · rw [if_neg heq] at h
    exact ⟨fun hbx => heq hbx.symm, (some.inj h).symm⟩

theorem alternates_of_replay {b c : Bool} {l : List Bool} (h : replay turn b l = some c) :
    Alternates b l c := by
  induction l generalizing b with
  | nil =>
    cases h
    exact ⟨isChain_singleton _, rfl⟩
  | cons _ _ ih =>
    rw [replay_cons] at h
    obtain ⟨t, ht, hrest⟩ := bind_eq_some_iff.mp h
    obtain ⟨hne, rfl⟩ := turn_eq_some ht
    obtain ⟨hchain, hlast⟩ := ih hrest
    refine ⟨isChain_cons_cons.mpr ⟨hne, hchain⟩, ?_⟩
    rw [getLast?_cons_cons]
    exact hlast

/-- A switch whose last line says that it is on is on, and is off at first or was turned. -/
theorem Alternates.getLast?_eq_true_iff {b c : Bool} {l : List Bool} (h : Alternates b l c) :
    l.getLast? = some true ↔ c = true ∧ l ≠ [] := by
  obtain ⟨-, hlast⟩ := h
  cases l with
  | nil => simp
  | cons =>
    rw [getLast?_cons_cons] at hlast
    rw [hlast]
    simp

/-! ## Chains -/

/-- A value is changed: a line says the old and the new one. -/
def change [DecidableEq τ] (n : τ) (x : τ × τ) : Option τ :=
  if x.1 = n ∧ x.2 ≠ n then some x.2 else none

/-- **The lines of a chain follow one another**, from what the value was to what it is. -/
def Chains (n : τ) (l : List (τ × τ)) (m : τ) : Prop :=
  ((n, n) :: l).IsChain (fun x y => y.1 = x.2 ∧ y.2 ≠ x.2) ∧
    ((n, n) :: l).getLast?.map Prod.snd = some m

theorem chains_of_replay [DecidableEq τ] {n m : τ} {l : List (τ × τ)}
    (h : replay change n l = some m) : Chains n l m := by
  have hfrom : ∀ (o : τ), ((o, n) :: l).IsChain (fun x y => y.1 = x.2 ∧ y.2 ≠ x.2) ∧
      ((o, n) :: l).getLast?.map Prod.snd = some m := by
    induction l generalizing n with
    | nil =>
      cases h
      exact fun o => ⟨isChain_singleton _, rfl⟩
    | cons x _ ih =>
      rw [replay_cons] at h
      obtain ⟨t, ht, hrest⟩ := bind_eq_some_iff.mp h
      unfold change at ht
      by_cases hfits : x.1 = n ∧ x.2 ≠ n
      · rw [if_pos hfits] at ht
        cases ht
        obtain ⟨hchain, hlast⟩ := ih hrest x.1
        intro o
        refine ⟨isChain_cons_cons.mpr ⟨hfits, hchain⟩, ?_⟩
        rw [getLast?_cons_cons]
        exact hlast
      · rw [if_neg hfits] at ht
        cases ht
  exact hfrom n

end Replay
