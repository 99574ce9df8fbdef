import Mathlib.Data.Finset.Defs
import Mathlib.Order.Nat
import Mathlib.Data.List.Basic
import Mathlib.Order.Basic

/-!
# Requests and moments

A server goes through moments, numbered by the events that it has sent. A client has seen some of the
events. It sends requests, each is answered with what the server is at some moment after it was sent, and
the answer arrives later, after any number of further events.

`Request` is a request with its moments and nothing else; what is asked for is a key. `AtSome` says that
something is so at some moment of a span. What an answer brings is looked at through it: the span begins
where the client is and ends where the server is, so it shrinks from one side and grows on the other.
-/

/-- **A request in flight.** -/
structure Request (K : Type*) where
  key : K
  /-- How many events the client had seen when it sent it. -/
  started : ℕ
  /-- How many there were when it was answered. -/
  read : Option ℕ
  deriving DecidableEq

namespace Request

open List

variable {K : Type*} {l : List (Request K)} {q : Request K} {i : ℕ}

/-- A request for a key is sent, unless one is in flight. -/
def once [DecidableEq K] (key : K) (seen : ℕ) (l : List (Request K)) : List (Request K) :=
  if l.any fun q => q.key = key then l else l ++ [⟨key, seen, none⟩]

/-- A request is answered, if it was not. -/
def answer (i now : ℕ) (l : List (Request K)) : List (Request K) :=
  l.modify i fun q => { q with read := some (q.read.getD now) }

/-- What is in flight after an answer: the same requests, answered before or now. -/
theorem mem_answer {now : ℕ} (h : q ∈ answer i now l) :
    ∃ q' ∈ l, q'.key = q.key ∧ q'.started = q.started ∧
      (q'.read = q.read ∨ q'.read = none ∧ q.read = some now) := by
  obtain ⟨j, hj⟩ := getElem?_of_mem h
  unfold answer at hj
  rw [getElem?_modify] at hj
  obtain ⟨q', hq', heq⟩ := Option.map_eq_some_iff.mp hj
  refine ⟨q', mem_of_getElem? hq', ?_⟩
  split at heq
  · obtain rfl := heq
    cases hread : q'.read with
    | none => exact ⟨rfl, rfl, .inr ⟨rfl, rfl⟩⟩
    | some => exact ⟨rfl, rfl, .inl rfl⟩
  · obtain rfl := heq
    exact ⟨rfl, rfl, .inl rfl⟩

/-- Each request is there after an answer. -/
theorem exists_answer (i now : ℕ) (h : q ∈ l) :
    ∃ q' ∈ answer i now l, q'.key = q.key ∧ q'.started = q.started := by
  obtain ⟨j, hj⟩ := getElem?_of_mem h
  have hmod : (answer i now l)[j]? =
      some (if i = j then { q with read := some (q.read.getD now) } else q) := by
    unfold answer
    rw [getElem?_modify, hj]
    split <;> rfl
  refine ⟨_, mem_of_getElem? hmod, ?_⟩
  split <;> exact ⟨rfl, rfl⟩

/-- An answer changes no key. -/
theorem map_key_answer {now : ℕ} : (answer i now l).map Request.key = l.map Request.key := by
  unfold answer
  apply ext_getElem?
  intro j
  rw [getElem?_map, getElem?_map, getElem?_modify]
  cases l[j]? with
  | none => rfl
  | some q =>
    show some (if i = j then _ else q).key = some q.key
    split <;> rfl

/-- What is left when a request is settled. -/
theorem mem_eraseIdx_or_eq {x : Request K} (h : q ∈ l) (hi : l[i]? = some x) :
    q ∈ l.eraseIdx i ∨ q = x := by
  obtain ⟨j, hj⟩ := getElem?_of_mem h
  by_cases hji : j = i
  · rw [hji, hi] at hj
    exact .inr (Option.some.inj hj).symm
  · exact .inl (mem_eraseIdx_iff_getElem?.mpr ⟨j, hji, hj⟩)

end Request

/-- **At some moment** from `a` to `b`. -/
def AtSome (P : ℕ → Prop) (a b : ℕ) : Prop := ∃ j, a ≤ j ∧ j ≤ b ∧ P j

namespace AtSome

variable {P Q : ℕ → Prop} {a b : ℕ}

theorem of_last (hab : a ≤ b) (h : P b) : AtSome P a b := ⟨b, hab, le_rfl, h⟩

variable (h : AtSome P a b)
include h

theorem imp (hPQ : ∀ j, a ≤ j → j ≤ b → P j → Q j) : AtSome Q a b := by
  obtain ⟨j, haj, hjb, hP⟩ := h
  exact ⟨j, haj, hjb, hPQ j haj hjb hP⟩

/-- The span grows. -/
theorem grow {b' : ℕ} (hb : b ≤ b') (hPQ : ∀ j, j ≤ b → P j → Q j) : AtSome Q a b' := by
  obtain ⟨j, haj, hjb, hP⟩ := h
  exact ⟨j, haj, hjb.trans hb, hPQ j hjb hP⟩

/-- **The span shrinks**, and what was so at its first moment is so at the next. -/
theorem shrink (hab : a < b) (hstep : P a → P (a + 1)) : AtSome P (a + 1) b := by
  obtain ⟨j, haj, hjb, hP⟩ := h
  rcases haj.lt_or_eq with hlt | rfl
  · exact ⟨j, hlt, hjb, hP⟩
  · exact ⟨a + 1, le_rfl, hab, hstep hP⟩

omit h

/-- At the end nothing is left but the last moment. -/
theorem eq (h : AtSome P a a) : P a := by
  obtain ⟨j, haj, hja, hP⟩ := h
  exact le_antisymm hja haj ▸ hP

end AtSome

/-! ## Sets that are put together

A set that is changed element by element is that of no single moment. What is so is that for each element
it says what some moment says. -/

/-- **Element by element**, a set is that of some moment. -/
def SetAtSome {α : Type*} (f : ℕ → Finset α) (set : Finset α) (a b : ℕ) : Prop :=
  ∀ x, AtSome (fun j => x ∈ set ↔ x ∈ f j) a b

namespace SetAtSome

variable {α : Type*} {f : ℕ → Finset α} {set set' : Finset α} {a b : ℕ}

theorem of_atSome (h : AtSome (fun j => f j = set) a b) : SetAtSome f set a b :=
  fun x => h.imp fun j _ _ heq => by rw [heq]

/-- **The next moment**: each element is as it says, or as before where nothing changes. -/
theorem shrink (h : SetAtSome f set a b) (hab : a < b) (hpoint : ∀ x, (x ∈ set' ↔ x ∈ f (a + 1)) ∨
      (x ∈ set' ↔ x ∈ set) ∧ (x ∈ f a ↔ x ∈ f (a + 1))) : SetAtSome f set' (a + 1) b := by
  intro x
  rcases hpoint x with hnow | ⟨hset, hf⟩
  · exact ⟨a + 1, le_rfl, hab, hnow⟩
  · refine AtSome.imp ((h x).shrink hab fun heq => heq.trans hf) fun j _ _ heq => ?_
    exact hset.trans heq

/-- At the end it is that of the last moment. -/
theorem eq (h : SetAtSome f set a a) : set = f a := by
  ext x
  exact (h x).eq

end SetAtSome
