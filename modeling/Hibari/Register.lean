import Mathlib

/-!
# A register that forgets what it removed

A replica keeps, of everything it hears about one thing, the version of the
highest rank, and keeps none where that version says that there is nothing to
keep. Heard in order, or with a tombstone that remembers the rank of what was
removed, this is a last-writer-wins register. `put` has no tombstone: once
nothing is kept, any version is news, however old.

The two halves of what it converges to are `rank_foldl_put`, for a newest
version that is kept – which no later delivery dislodges – and
`foldl_put_eq_none_iff`, for one that is not: the register is empty exactly
when every version that should have been kept was followed by one, at least as
new, that should not.
-/

namespace Register

open List Option

variable {α : Type*} (rank : α → ℕ) (keep : α → Bool) {kept : Option α} {n : ℕ}

/-- Take in a version: an older one than what is kept is dropped, any other
replaces it, or removes it where it is not to be kept. -/
def put (kept : Option α) (v : α) : Option α :=
  if kept.any (fun e => decide (rank v < rank e)) then kept else if keep v then some v else none

variable {rank keep} {e v : α} {l : List α}

@[simp] theorem put_none (v : α) : put rank keep none v = if keep v then some v else none := rfl

/-- An older version is dropped. -/
theorem put_some_of_lt (h : rank v < rank e) : put rank keep (some e) v = some e := by
  rw [put, any_some, decide_eq_true h, if_pos rfl]

/-- A version that is not older replaces what is kept. -/
theorem put_some_of_le (h : rank e ≤ rank v) :
    put rank keep (some e) v = if keep v then some v else none := by
  rw [put, any_some, decide_eq_false (Nat.not_lt.mpr h), if_neg (by simp)]

variable (rank) in
/-- Whatever is kept, a version to be kept leaves one at least as new. -/
theorem le_rank_put (kept : Option α) (hv : keep v) :
    ∃ e, put rank keep kept v = some e ∧ rank v ≤ rank e := by
  cases kept with
  | none => exact ⟨v, by rw [put_none, if_pos hv], le_rfl⟩
  | some e =>
    by_cases h : rank v < rank e
    · exact ⟨e, put_some_of_lt h, h.le⟩
    · exact ⟨v, by rw [put_some_of_le (Nat.not_lt.mp h), if_pos hv], le_rfl⟩

/-- What is kept was kept before or is the version taken in, which is to be
kept. -/
theorem put_eq_some (h : put rank keep kept v = some e) : kept = some e ∨ e = v ∧ keep v := by
  unfold put at h
  split at h
  · exact .inl h
  · split at h
    · next hk => exact .inr ⟨(some.inj h).symm, hk⟩
    · cases h

/-- What is kept at the end was kept from the start or taken in. -/
theorem foldl_put_eq_some (h : l.foldl (put rank keep) kept = some e) :
    kept = some e ∨ e ∈ l ∧ keep e := by
  induction l generalizing kept with
  | nil => exact .inl h
  | cons _ _ ih =>
    rw [foldl_cons] at h
    rcases ih h with hput | ⟨hmem, hkeep⟩
    · rcases put_eq_some hput with hkept | ⟨rfl, hkeep⟩
      · exact .inl hkept
      · exact .inr ⟨.head _, hkeep⟩
    · exact .inr ⟨.tail _ hmem, hkeep⟩

/-! ## A newest version that is kept -/

variable (hl : ∀ u ∈ l, rank u ≤ n ∧ (rank u = n → keep u))
include hl

/-- From a version of the highest rank on, what is kept has that rank. -/
theorem foldl_put_of_newest
    (he : rank e = n) : ∃ e', l.foldl (put rank keep) (some e) = some e' ∧ rank e' = n := by
  induction l generalizing e with
  | nil => exact ⟨e, rfl, he⟩
  | cons u l ih =>
    have hrest : ∀ w ∈ l, rank w ≤ n ∧ (rank w = n → keep w) :=
      fun w hw => hl w (.tail _ hw)
    have hu := hl u (.head _)
    rw [foldl_cons]
    by_cases hlt : rank u < rank e
    · rw [put_some_of_lt hlt]
      exact ih hrest he
    · have hn : rank u = n := le_antisymm hu.1 (he ▸ Nat.not_lt.mp hlt)
      rw [put_some_of_le (Nat.not_lt.mp hlt), if_pos (hu.2 hn)]
      exact ih hrest hn

/-- **A newest version that is to be kept is kept**, in whatever order the
versions arrive. -/
theorem rank_foldl_put (hkept : ∀ e ∈ kept, rank e ≤ n) (hv : v ∈ l) (hn : rank v = n) :
    ∃ e, l.foldl (put rank keep) kept = some e ∧ rank e = n := by
  induction l generalizing kept with
  | nil => cases hv
  | cons u l ih =>
    have hrest : ∀ w ∈ l, rank w ≤ n ∧ (rank w = n → keep w) :=
      fun w hw => hl w (.tail _ hw)
    have hu := hl u (.head _)
    rw [foldl_cons]
    by_cases hvl : v ∈ l
    · refine ih hrest (fun e he => ?_) hvl
      rcases put_eq_some (mem_def.mp he) with hkept' | ⟨rfl, -⟩
      · exact hkept e (mem_def.mpr hkept')
      · exact hu.1
    · obtain rfl : v = u := (mem_cons.mp hv).resolve_right hvl
      obtain ⟨e, he, hle⟩ := le_rank_put rank kept (hu.2 hn)
      have hrank : rank e = n := by
        rcases put_eq_some he with hkept' | ⟨rfl, -⟩
        · exact le_antisymm (hkept e (mem_def.mpr hkept')) (hn ▸ hle)
        · exact hn
      rw [he]
      exact foldl_put_of_newest hrest hrank

/-! ## A newest version that is not -/

omit hl

variable (rank keep) in
/-- A version is followed, among those that arrive, by one that is at least as
new and not to be kept. -/
def Retracted (v : α) (after : List α) : Prop := ∃ w ∈ after, keep w = false ∧ rank v ≤ rank w

theorem Retracted.cons {after : List α} (h : Retracted rank keep v after) (u : α) :
    Retracted rank keep v (u :: after) := by
  obtain ⟨w, hw, hkeep, hle⟩ := h
  exact ⟨w, .tail _ hw, hkeep, hle⟩

/-- A register that holds a version empties only if the version is
retracted. -/
theorem retracted_of_foldl_put_eq_none (h : l.foldl (put rank keep) (some e) = none) :
    Retracted rank keep e l := by
  induction l generalizing e with
  | nil => cases h
  | cons v _ ih =>
    rw [foldl_cons] at h
    by_cases hlt : rank v < rank e
    · rw [put_some_of_lt hlt] at h
      exact (ih h).cons v
    · rw [put_some_of_le (Nat.not_lt.mp hlt)] at h
      by_cases hkeep : keep v
      · rw [if_pos hkeep] at h
        obtain ⟨w, hw, hnot, hle⟩ := ih h
        exact ⟨w, .tail _ hw, hnot, (Nat.not_lt.mp hlt).trans hle⟩
      · exact ⟨v, .head _, Bool.eq_false_iff.mpr hkeep, Nat.not_lt.mp hlt⟩

/-- What is in a register at the end was taken in, or there from the start,
and not retracted since. -/
theorem not_retracted_of_foldl_put_eq_some (h : l.foldl (put rank keep) kept = some e) :
    (kept = some e ∧ ¬ Retracted rank keep e l) ∨
      ∃ before after, l = before ++ e :: after ∧ keep e ∧ ¬ Retracted rank keep e after := by
  induction l generalizing kept with
  | nil => exact .inl ⟨h, fun ⟨_, hw, _⟩ => not_mem_nil hw⟩
  | cons v l ih =>
    rw [foldl_cons] at h
    rcases ih h with ⟨hput, hnot⟩ | ⟨before, after, hl, hrest⟩
    · by_cases hkept : kept = some e
      · subst hkept
        by_cases hlt : rank v < rank e
        · refine .inl ⟨rfl, fun ⟨w, hw, hkeep, hle⟩ => ?_⟩
          rcases mem_cons.mp hw with rfl | hw
          · exact absurd hle (Nat.not_le.mpr hlt)
          · exact hnot ⟨w, hw, hkeep, hle⟩
        · -- the version is replaced by a copy of itself
          rw [put_some_of_le (Nat.not_lt.mp hlt)] at hput
          by_cases hkeep : keep v
          · rw [if_pos hkeep] at hput
            cases hput
            exact .inr ⟨[], l, rfl, hkeep, hnot⟩
          · cases if_neg hkeep ▸ hput
      · obtain ⟨rfl, hkeep⟩ := (put_eq_some hput).resolve_left hkept
        exact .inr ⟨[], l, rfl, hkeep, hnot⟩
    · exact .inr ⟨v :: before, after, by rw [hl, cons_append], hrest⟩

/-- **The register is empty exactly when everything in it was retracted**: what
it started with, and each version to be kept that it took in, by a version that
arrives later, is at least as new and not to be kept. -/
theorem foldl_put_eq_none_iff : l.foldl (put rank keep) kept = none ↔
      (∀ e ∈ kept, Retracted rank keep e l) ∧
        ∀ before v after, l = before ++ v :: after → keep v → Retracted rank keep v after := by
  constructor
  · intro h
    constructor
    · rintro e he
      obtain rfl := mem_def.mp he
      exact retracted_of_foldl_put_eq_none h
    · intro before v after hl hkeep
      rw [hl, foldl_append, foldl_cons] at h
      obtain ⟨e, he, hle⟩ := le_rank_put rank (before.foldl (put rank keep) kept) hkeep
      rw [he] at h
      obtain ⟨w, hw, hnot, hlew⟩ := retracted_of_foldl_put_eq_none h
      exact ⟨w, hw, hnot, hle.trans hlew⟩
  · rintro ⟨hkept, hsplit⟩
    cases h : l.foldl (put rank keep) kept with
    | none => rfl
    | some e =>
      rcases not_retracted_of_foldl_put_eq_some h with ⟨rfl, hnot⟩ | ⟨before, after, hl, hkeep, hnot⟩
      · exact absurd (hkept e rfl) hnot
      · exact absurd (hsplit before e after hl hkeep) hnot

end Register
