import Mathlib.Data.List.Basic
import Mathlib.Order.Nat

/-!
# One run at a time

Calls of a function share the run that is under way: a call starts a run if there is none, and waits
for the one there is otherwise. A run goes on for as long as it likes and is settled with a value;
then it is cleared away, so that the next call starts another one, and those who wait go on with the
value.

**At most one run is unfinished** (`Flights.Single`), whatever the order of these steps.
-/

namespace Hibari

open List

/-- A run: under way in some state, settled but still shared with new calls, or finished. -/
inductive Flight (R V : Type)
  | running (r : R)
  | settled (v : V)
  | finished (v : V)
  deriving DecidableEq

/-- The runs of a function, and the one that calls share. -/
structure Flights (R V : Type) where
  runs : List (Flight R V)
  inflight : Option ℕ
  deriving DecidableEq

namespace Flights

variable {R V : Type}

def empty : Flights R V := ⟨[], none⟩

/-- A call: the runs after it, and the run it waits for. -/
def call (s : Flights R V) (start : R) : Flights R V × ℕ :=
  match s.inflight with
  | some f => (s, f)
  | none => (⟨s.runs ++ [.running start], some s.runs.length⟩, s.runs.length)

/-- A run goes on. -/
def advance (s : Flights R V) (f : ℕ) (x : Flight R V) : Flights R V :=
  { s with runs := s.runs.set f x }

/-- A settled run is cleared away. -/
def clear (s : Flights R V) (f : ℕ) (v : V) : Flights R V :=
  ⟨s.runs.set f (.finished v), none⟩

/-- **The run that calls share is the only one that is not finished.** -/
def Single (s : Flights R V) : Prop :=
  ∀ f x, s.runs[f]? = some x → s.inflight = some f ∨ ∃ v, x = .finished v

variable {s : Flights R V} {f g : ℕ} {r r' : R} {x : Flight R V} {v : V}

variable (h : s.Single)
include h

theorem Single.call (start : R) : (s.call start).1.Single := by
  unfold Flights.call
  split
  · exact h
  · next hnone =>
    intro f x hx
    obtain hlt | rfl | hgt := lt_trichotomy f s.runs.length
    · rw [getElem?_append_left hlt] at hx
      obtain hsome | hfinished := h f x hx
      · exact nomatch hnone.symm.trans hsome
      · exact .inr hfinished
    · exact .inl rfl
    · rw [getElem?_eq_none (by simpa using Nat.succ_le_of_lt hgt)] at hx
      cases hx

theorem Single.advance (hr : s.runs[f]? = some (.running r)) : (s.advance f x).Single := by
  have hf : s.inflight = some f := (h f _ hr).resolve_right fun ⟨_, hv⟩ => nomatch hv
  intro g y hy
  by_cases hg : f = g
  · exact .inl (hg ▸ hf)
  · rw [show (s.advance f x).runs = s.runs.set f x from rfl, getElem?_set_ne hg] at hy
    exact h g y hy

theorem Single.clear (hsettled : s.runs[f]? = some (.settled v)) : (s.clear f v).Single := by
  have hf : s.inflight = some f := (h f _ hsettled).resolve_right fun ⟨_, hv⟩ => nomatch hv
  intro g y hy
  by_cases hg : f = g
  · rw [show (s.clear f v).runs = s.runs.set f (.finished v) from rfl, ← hg,
      getElem?_set_self (List.getElem?_eq_some_iff.mp hsettled).1] at hy
    exact .inr ⟨v, (Option.some.inj hy).symm⟩
  · rw [show (s.clear f v).runs = s.runs.set f (.finished v) from rfl, getElem?_set_ne hg] at hy
    obtain hother | hfinished := h g y hy
    · exact absurd (Option.some.inj (hf.symm.trans hother)) hg
    · exact .inr hfinished

/-- **At most one run is under way.** -/
theorem Single.unique (hf : s.runs[f]? = some (.running r))
    (hg : s.runs[g]? = some (.running r')) : f = g := by
  have hinf : s.inflight = some f := (h f _ hf).resolve_right fun ⟨_, hv⟩ => nomatch hv
  have hing : s.inflight = some g := (h g _ hg).resolve_right fun ⟨_, hv⟩ => nomatch hv
  exact Option.some.inj (hinf.symm.trans hing)

end Flights

end Hibari
