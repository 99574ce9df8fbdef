import Mathlib

/-!
# Scanning lists

Where a pattern begins in a list, and what comes before and after it.
-/

namespace TextScan

variable {α : Type*} [DecidableEq α]

/-- Whether a list begins with another. -/
abbrev startsWith (pattern s : List α) : Prop := pattern <+: s

/-- **Where a pattern begins** first, if anywhere. -/
def index? (pattern : List α) : List α → Option ℕ
  | [] => if pattern = [] then some 0 else none
  | c :: cs =>
    if startsWith pattern (c :: cs) then some 0 else (index? pattern cs).map (· + 1)

theorem add_length_le_of_index? {pattern s : List α} {n : ℕ} (h : index? pattern s = some n) :
    n + pattern.length ≤ s.length := by
  induction s generalizing n with
  | nil =>
    simp only [index?] at h
    split at h
    · next hnil =>
      cases h
      simp [hnil]
    · cases h
  | cons _ _ ih =>
    simp only [index?] at h
    split at h
    · next hstart =>
      cases h
      simpa using hstart.length_le
    · obtain ⟨m, hm, rfl⟩ := Option.map_eq_some_iff.mp h
      have := ih hm
      simp only [List.length_cons]
      omega

end TextScan
