import Mathlib

/-!
# Threads over a shared state

A program that runs several calls at once is a shared state and a pool of
threads, each of them at some place of its call. A step of the program is a
step of one thread: it reads and writes the shared state and goes to its next
place. Where a call holds a lock from one statement to another, the statements
are one step; where it lets go of it – to wait for a database, for another
server – other threads step in between.

The pool only grows: a call that has returned stays in its place, at its end.
The lemmas say what one step does to the pool – every thread is the one it was,
except the one that stepped (`mem_set`, `getElem?_set`) – and to a sum over the
threads (`sum_set`).

A lock that is held from one step to another has an owner, and its holder is the
one thread that is between taking and giving it back (`Exclusive`). Where there are
many locks, or numbers that are drawn, no two threads have the same one (`Apart`).
-/

namespace Threads

open List

variable {σ τ : Type*} {f : σ → τ → Option (σ × τ)} {s s' : σ} {pool pool' : List τ} {i j : ℕ}
  {t : τ}

/-- Let one thread of the pool take its next step, if it can. -/
def stepAt (f : σ → τ → Option (σ × τ)) (s : σ) (pool : List τ) (i : ℕ) : Option (σ × List τ) :=
  match pool[i]? with
  | none => none
  | some t => (f s t).map fun next => (next.1, pool.set i next.2)

/-- **What a step is**: a step of a thread that is there. -/
theorem stepAt_eq_some (h : stepAt f s pool i = some (s', pool')) :
    ∃ t t', pool[i]? = some t ∧ f s t = some (s', t') ∧ pool' = pool.set i t' := by
  unfold stepAt at h
  split at h
  · cases h
  · next t ht =>
    obtain ⟨⟨s₁, t'⟩, hf, heq⟩ := Option.map_eq_some_iff.mp h
    cases heq
    exact ⟨t, t', ht, hf, rfl⟩

/-- Every thread after a step was there before, or is the one that stepped. -/
theorem mem_set {t' : τ} (h : t ∈ pool.set i t') : t ∈ pool ∨ t = t' :=
  mem_or_eq_of_mem_set h

variable (ht : pool[i]? = some t)
include ht

/-- The thread that stepped is at its next place, every other where it was. -/
theorem getElem?_set (t' : τ) (j : ℕ) :
    (pool.set i t')[j]? = if i = j then some t' else pool[j]? := by
  have hi : i < pool.length := (List.getElem?_eq_some_iff.mp ht).1
  rw [List.getElem?_set]
  by_cases h : i = j
  · rw [if_pos h, if_pos h, if_pos hi]
  · rw [if_neg h, if_neg h]

/-- A thread of the pool after a step is another one, or the one that stepped. -/
theorem exists_of_mem_set {t' u : τ} (hu : u ∈ pool.set i t') :
    (∃ j, i ≠ j ∧ pool[j]? = some u) ∨ u = t' := by
  obtain ⟨j, hj⟩ := mem_iff_getElem?.mp hu
  rw [getElem?_set ht] at hj
  by_cases hij : i = j
  · rw [if_pos hij] at hj
    exact .inr (Option.some.inj hj).symm
  · rw [if_neg hij] at hj
    exact .inl ⟨j, hij, hj⟩

omit ht

/-- A thread stays where it was while another one steps or starts. -/
theorem getElem?_append_one (h : pool[i]? = some t) (u : τ) : (pool ++ [u])[i]? = some t := by
  rw [getElem?_append_left (List.getElem?_eq_some_iff.mp h).1, h]

section Sum

variable {M : Type*} [AddCommMonoid M] (g : τ → M)

/-- **A sum over the threads** changes by what the one that stepped
contributes. -/
theorem sum_set (ht : pool[i]? = some t) (t' : τ) :
    ((pool.set i t').map g).sum + g t = (pool.map g).sum + g t' := by
  induction pool generalizing i with
  | nil => cases ht
  | cons u pool ih =>
    cases i with
    | zero =>
      obtain rfl : u = t := Option.some.inj ht
      show g t' + (pool.map g).sum + g u = g u + (pool.map g).sum + g t'
      abel
    | succ i =>
      have hrest := ih (i := i) ht
      show g u + ((pool.set i t').map g).sum + g t = g u + (pool.map g).sum + g t'
      rw [add_assoc, hrest, add_assoc]

theorem sum_append_one (u : τ) : ((pool ++ [u]).map g).sum = (pool.map g).sum + g u := by
  rw [map_append, sum_append, map_singleton, sum_singleton]

end Sum

include ht

/-- What one thread contributes is part of the sum. -/
theorem le_sum {g : τ → ℕ} : g t ≤ (pool.map g).sum :=
  single_le_sum (fun _ _ => Nat.zero_le _) _ (mem_map_of_mem (mem_of_getElem? ht))

omit ht

/-- What two threads contribute is part of the sum. -/
theorem add_le_sum {g : τ → ℕ} {u : τ} (hi : pool[i]? = some t) (hj : pool[j]? = some u)
    (hij : i ≠ j) : g t + g u ≤ (pool.map g).sum := by
  induction pool generalizing i j with
  | nil => cases hi
  | cons v pool ih =>
    show g t + g u ≤ g v + (pool.map g).sum
    cases i with
    | zero =>
      obtain rfl : v = t := Option.some.inj hi
      cases j with
      | zero => exact absurd rfl hij
      | succ j => exact Nat.add_le_add_left (le_sum (i := j) hj) _
    | succ i =>
      cases j with
      | zero =>
        obtain rfl : v = u := Option.some.inj hj
        rw [add_comm]
        exact Nat.add_le_add_left (le_sum (i := i) hi) _
      | succ j =>
        exact (ih (i := i) (j := j) hi hj fun h => hij (congrArg _ h)).trans (Nat.le_add_left _ _)

/-! ## Keys

What a thread holds alone – a row's lock, a number it has drawn – is a key of it. -/

section Apart

variable {κ : Type*} {key : τ → Option κ}

/-- **No two threads have the same key.** -/
def Apart (key : τ → Option κ) (pool : List τ) : Prop :=
  ∀ (i j : ℕ) (t u : τ) (k : κ), pool[i]? = some t → pool[j]? = some u → key t = some k →
    key u = some k → i = j

theorem Apart.nil : Apart key [] := nofun

/-- Threads stay apart when one takes a step to a key that it has, or that nobody
has. -/
theorem Apart.set (h : Apart key pool) (ht : pool[i]? = some t) {t' : τ}
    (hown : ∀ k, key t' = some k → key t = some k ∨ ∀ u ∈ pool, key u ≠ some k) :
    Apart key (pool.set i t') := by
  -- what the thread has now, no other one has
  have halone : ∀ (j : ℕ) (u : τ) (k : κ), i ≠ j → pool[j]? = some u → key t' = some k →
      key u ≠ some k := by
    intro j u k hij hj hk hu
    rcases hown k hk with hold | hfree
    · exact hij (h i j t u k ht hj hold hu)
    · exact hfree u (mem_of_getElem? hj) hu
  intro j l u v k hj hl hu hv
  rw [getElem?_set ht] at hj hl
  by_cases hij : i = j
  · rw [if_pos hij] at hj
    rw [← Option.some.inj hj] at hu
    by_cases hil : i = l
    · exact hij.symm.trans hil
    · rw [if_neg hil] at hl
      exact absurd hv (halone l v k hil hl hu)
  · rw [if_neg hij] at hj
    by_cases hil : i = l
    · rw [if_pos hil] at hl
      rw [← Option.some.inj hl] at hv
      exact absurd hu (halone j u k hij hj hv)
    · rw [if_neg hil] at hl
      exact h j l u v k hj hl hu hv

/-- A thread that has no key yet may start. -/
theorem Apart.append_one (h : Apart key pool) {u : τ} (hnone : key u = none) :
    Apart key (pool ++ [u]) := by
  have hold : ∀ (j : ℕ) (v : τ) (k : κ), (pool ++ [u])[j]? = some v → key v = some k →
      pool[j]? = some v := by
    intro j v k hj hv
    by_cases hlt : j < pool.length
    · rwa [getElem?_append_left hlt] at hj
    · rw [getElem?_append_right (Nat.le_of_not_lt hlt)] at hj
      have heq : v = u := mem_singleton.mp (mem_of_getElem? hj)
      rw [heq, hnone] at hv
      cases hv
  intro j l v w k hj hl hv hw
  exact h j l v w k (hold j v k hj hv) (hold l w k hl hw) hv hw

end Apart

/-! ## Locks -/

/-- **A lock has one holder**: the threads inside are the one that owns it. -/
def Exclusive (inside : τ → Bool) (pool : List τ) (owner : Option ℕ) : Prop :=
  ∀ i, pool[i]?.any inside = true ↔ owner = some i

variable {inside : τ → Bool} {owner : Option ℕ} {t' : τ} (h : Exclusive inside pool owner)
include h

include ht

theorem Exclusive.iff : inside t = true ↔ owner = some i := by
  rw [← h i, ht]
  rfl

omit ht

/-- Two threads that are inside are one. -/
theorem Exclusive.unique {u : τ} (hi : pool[i]? = some t)
    (hj : pool[j]? = some u) (ht : inside t = true) (hu : inside u = true) : i = j := by
  have howner := (h.iff hi).mp ht
  exact Option.some.inj (howner.symm.trans ((h.iff hj).mp hu))

include ht

/-- The owner, or a thread that finds the lock free, goes in or out. -/
theorem Exclusive.turn (hturn : inside t = true ∨ owner = none) (t' : τ) :
    Exclusive inside (pool.set i t') (if inside t' then some i else none) := by
  intro j
  rw [getElem?_set ht t' j]
  by_cases hij : i = j
  · subst hij
    rw [if_pos rfl]
    show inside t' = true ↔ _
    by_cases hin : inside t' = true
    · simp [hin]
    · simp [hin]
  · rw [if_neg hij, h j]
    have hnot : owner ≠ some j := by
      intro howner
      rcases hturn with hin | hnone
      · exact hij (Option.some.inj (((h.iff ht).mp hin).symm.trans howner))
      · cases hnone.symm.trans howner
    by_cases hin : inside t' = true
    · simp [hin, hij, hnot]
    · simp [hin, hnot]

/-- A thread that stays outside leaves the lock as it is. -/
theorem Exclusive.outside (hout : inside t = false) (hout' : inside t' = false) :
    Exclusive inside (pool.set i t') owner := by
  intro j
  rw [getElem?_set ht t' j]
  by_cases hij : i = j
  · subst hij
    rw [if_pos rfl, ← h i, ht]
    show inside t' = true ↔ inside t = true
    rw [hout, hout']
  · rw [if_neg hij]
    exact h j

omit ht

theorem Exclusive.append_one {u : τ} (hout : inside u = false) :
    Exclusive inside (pool ++ [u]) owner := by
  intro j
  by_cases hj : j < pool.length
  · rw [getElem?_append_left hj]
    exact h j
  · have hnone : pool[j]? = none := getElem?_eq_none (Nat.le_of_not_lt hj)
    rw [← h j, hnone, getElem?_append_right (Nat.le_of_not_lt hj)]
    cases hk : j - pool.length with
    | zero => simp [hout]
    | succ => simp

end Threads
