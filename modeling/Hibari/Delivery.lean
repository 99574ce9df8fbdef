import Mathlib

/-!
# Deliveries in any order, with duplicates

A replica that takes in notifications one after the other is a fold. A
channel that may reorder and repeat them delivers a finite set as some list
with those members (`Delivers`), and the replica converges on the set when
the fold of every such list has the same value.

`foldl_invariant` is the induction that the results about such folds go by:
an invariant that relates the replica to what was delivered so far, kept by
each delivery, holds at the end – and at every moment on the way
(`foldl_prefix_invariant`). What a replica ends up with is often decided by
the last delivery of some kind; `exists_last` splits a list there.
-/

namespace Delivery

open List

variable {σ α : Type*} {f : σ → α → σ} {s₀ : σ} {S l : List α}
  {a : α} {p q : List α} {I : σ → List α → Prop}

/-- A list delivers a set: it has the members of the set, in some order and
each at least once. -/
def Delivers (S l : List α) : Prop := ∀ a, a ∈ l ↔ a ∈ S

/-- A set delivers itself. -/
theorem delivers_self (S : List α) : Delivers S S := fun _ => .rfl

/-- A member may be delivered once more, first. -/
theorem Delivers.cons (h : Delivers S l) (ha : a ∈ S) : Delivers S (a :: l) := by
  intro b
  rw [mem_cons, h b]
  exact ⟨fun hb => hb.elim (fun e => e ▸ ha) id, .inr⟩

/-- What is delivered on the way is part of the set. -/
theorem Delivers.mem_of_append (h : Delivers S (p ++ q)) (ha : a ∈ p) :
    a ∈ S := (h a).mp (mem_append_left _ ha)

/-- **The fold rule**: an invariant about the state and what was delivered,
kept by each delivery, holds at the end. -/
theorem foldl_invariant (h₀ : I s₀ [])
    (hstep : ∀ s p a, a ∈ l → I s p → I (f s a) (p ++ [a])) : I (l.foldl f s₀) l := by
  induction l using List.reverseRecOn with
  | nil => exact h₀
  | append_singleton l a ih =>
    rw [foldl_append]
    exact hstep _ l a (mem_append_right _ (mem_singleton_self a))
      (ih fun s p b hb => hstep s p b (mem_append_left _ hb))

/-- The invariant holds at every moment on the way. -/
theorem foldl_prefix_invariant (h₀ : I s₀ [])
    (hstep : ∀ s p a, a ∈ l → I s p → I (f s a) (p ++ [a])) (hl : l = p ++ q) :
    I (p.foldl f s₀) p :=
  foldl_invariant h₀ fun s p' a ha => hstep s p' a (hl ▸ mem_append_left _ ha)

/-- **The last delivery of a kind**: a list with such a member splits at the
last of them. -/
theorem exists_last {P : α → Prop} (h : ∃ a ∈ l, P a) :
    ∃ p a q, l = p ++ a :: q ∧ P a ∧ ∀ b ∈ q, ¬ P b := by
  induction l with
  | nil => exact nomatch h
  | cons x l ih =>
    by_cases hl : ∃ a ∈ l, P a
    · obtain ⟨p, a, q, rfl, ha, hq⟩ := ih hl
      exact ⟨x :: p, a, q, rfl, ha, hq⟩
    · have hx : P x := by
        obtain ⟨a, ha, hPa⟩ := h
        rcases mem_cons.mp ha with rfl | ha
        · exact hPa
        · exact absurd ⟨a, ha, hPa⟩ hl
      exact ⟨[], x, l, rfl, hx, fun b hb hPb => hl ⟨b, hb, hPb⟩⟩

end Delivery
