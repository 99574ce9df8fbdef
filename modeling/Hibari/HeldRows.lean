import Mathlib

/-!
# Transactions that hold rows

Transactions that run at once are here a list, and a transaction is known by its place in
it: it stays there when it has ended. What it holds is a list of rows. A row is **free**
where no transaction holds it, and the rows of two transactions are **apart** as long as
each of them only takes rows that are free.

The module is about that and nothing else: what the transactions do, and what their rows
are, is up to the program.
-/

namespace HeldRows

open List

variable {α ρ : Type*} {held : α → List ρ} {tasks : List α} {i j : ℕ} {t t' u : α} {r : ρ}

/-- No transaction holds a row. -/
def Free (held : α → List ρ) (tasks : List α) (r : ρ) : Prop := ∀ t ∈ tasks, r ∉ held t

instance [DecidableEq ρ] (tasks : List α) (r : ρ) : Decidable (Free held tasks r) := by
  unfold Free
  infer_instance

/-- **No row is held twice.** -/
def Apart (held : α → List ρ) (tasks : List α) : Prop :=
  ∀ (i j : ℕ) (t u : α), tasks[i]? = some t → tasks[j]? = some u → ∀ r ∈ held t, r ∈ held u → i = j

/-- What is at a place after one transaction went on. -/
theorem getElem?_set_cases (h : (tasks.set i t')[j]? = some u) :
    (j = i ∧ u = t') ∨ (j ≠ i ∧ tasks[j]? = some u) := by
  by_cases hij : i = j
  · subst hij
    rw [getElem?_set_self'] at h
    obtain ⟨x, -, hx⟩ := Option.map_eq_some_iff.mp h
    exact .inl ⟨rfl, hx.symm⟩
  · rw [getElem?_set_ne hij] at h
    exact .inr ⟨Ne.symm hij, h⟩

/-- What is at a place after one transaction has begun. -/
theorem getElem?_concat_cases (h : (tasks ++ [t])[j]? = some u) :
    (j = tasks.length ∧ u = t) ∨ tasks[j]? = some u := by
  rcases Nat.lt_or_ge j tasks.length with hj | hj
  · rw [getElem?_append_left hj] at h
    exact .inr h
  · rw [getElem?_append_right hj, getElem?_singleton] at h
    split at h
    · next hzero => exact .inl ⟨by omega, (Option.some.inj h).symm⟩
    · cases h

theorem apart_nil : Apart held ([] : List α) := nofun

variable (h : Apart held tasks)
include h

/-- A transaction may begin with rows that are free. -/
theorem Apart.concat_of_free (ht : ∀ r ∈ held t, Free held tasks r) :
    Apart held (tasks ++ [t]) := by
  intro i j u v hi hj r hr hr'
  rcases getElem?_concat_cases hi with ⟨hilast, hu⟩ | hiold
  · rcases getElem?_concat_cases hj with ⟨hjlast, -⟩ | hjold
    · rw [hilast, hjlast]
    · rw [hu] at hr
      exact absurd hr' (ht r hr v (mem_of_getElem? hjold))
  · rcases getElem?_concat_cases hj with ⟨-, hv⟩ | hjold
    · rw [hv] at hr'
      exact absurd hr (ht r hr' u (mem_of_getElem? hiold))
    · exact h i j u v hiold hjold r hr hr'

/-- A transaction that begins holds nothing. -/
theorem Apart.concat (ht : held t = []) : Apart held (tasks ++ [t]) := by
  refine h.concat_of_free fun r hr => ?_
  rw [ht] at hr
  cases hr

/-- **A transaction takes rows that are free**, or gives up some that it has. -/
theorem Apart.set (hi : tasks[i]? = some t)
    (hheld : ∀ r ∈ held t', r ∈ held t ∨ Free held tasks r) : Apart held (tasks.set i t') := by
  intro j k u v hj hk r hr hr'
  rcases getElem?_set_cases hj with ⟨hji, hu⟩ | ⟨hji, hju⟩
  · rcases getElem?_set_cases hk with ⟨hki, -⟩ | ⟨hki, hkv⟩
    · rw [hji, hki]
    · rw [hu] at hr
      rcases hheld r hr with hmine | hfree
      · exact absurd (h i k t v hi hkv r hmine hr') (Ne.symm hki)
      · exact absurd hr' (hfree v (mem_of_getElem? hkv))
  · rcases getElem?_set_cases hk with ⟨hki, hv⟩ | ⟨hki, hkv⟩
    · rw [hv] at hr'
      rcases hheld r hr' with hmine | hfree
      · exact absurd (h j i u t hju hi r hr hmine) hji
      · exact absurd hr (hfree u (mem_of_getElem? hju))
    · exact h j k u v hju hkv r hr hr'

/-- A row that a transaction holds is held by no other. -/
theorem Apart.notMem (hi : tasks[i]? = some t) (hj : tasks[j]? = some u)
    (hne : i ≠ j) (hr : r ∈ held t) : r ∉ held u :=
  fun hr' => hne (h i j t u hi hj r hr hr')

end HeldRows
