import Mathlib

/-!
# Reading a numbered change log through a cursor

A server numbers the changes it commits – 1, 2, 3, … – and each change
touches one item. A replica holds copies of items, each copy carrying the
number of the change that made it, and a **cursor**: the number up to which
it takes every change as seen. It does not hold every item; a window says
which ones it answers for.

`Reflects` is what the cursor promises: each change up to it, to an item of
the window, is in some copy the replica holds, that one or a newer one. The
rules below are the ways the promise is kept when the replica takes in more
copies, gives up part of its window, or moves the cursor over changes it
holds (`Reflects.extend`).

The one way to break it is a snapshot, which is worth the changes up to the
moment it was taken and no more: a cursor past that moment is sound only if
nothing committed in between touched the snapshot's part of the window.
-/

namespace ChangeLog

variable {ι : Type*}

/-- **The promise of a cursor**: every change up to `c`, to an item of the
window `W`, is held – that change or a later one of the item. `touch k i`
says that change number `k` touched item `i`, and `held i v` that a copy of
`i` made by change `v` is held. -/
def Reflects (touch : ℕ → ι → Prop) (held : ι → ℕ → Prop) (W : Set ι) (c : ℕ) : Prop :=
  ∀ k i, k ≤ c → touch k i → i ∈ W → ∃ v, k ≤ v ∧ held i v

variable {touch touch' : ℕ → ι → Prop} {held held' : ι → ℕ → Prop} {W W' : Set ι} {c c' : ℕ}
  (h : Reflects touch held W c)
include h

/-- A smaller cursor promises less. -/
theorem Reflects.mono_cursor (hc : c' ≤ c) : Reflects touch held W c' :=
  fun k i hk => h k i (hk.trans hc)

/-- A smaller window promises less. -/
theorem Reflects.mono_window (hW : W' ⊆ W) : Reflects touch held W' c :=
  fun k i hk ht hi => h k i hk ht (hW hi)

/-- Fewer changes to answer for. -/
theorem Reflects.mono_touch (ht : ∀ k i, k ≤ c → touch' k i → touch k i) :
    Reflects touch' held W c :=
  fun k i hk htk hi => h k i hk (ht k i hk htk) hi

/-- Copies may be replaced by newer ones. -/
theorem Reflects.mono_held (hh : ∀ i ∈ W, ∀ v, held i v → ∃ v', v ≤ v' ∧ held' i v') :
    Reflects touch held' W c := by
  intro k i hk ht hi
  obtain ⟨v, hkv, hv⟩ := h k i hk ht hi
  obtain ⟨v', hvv', hv'⟩ := hh i hi v hv
  exact ⟨v', hkv.trans hvv', hv'⟩

/-- **Moving the cursor** takes what lies between the two positions: each
change there, to an item of the window, has to be held. -/
theorem Reflects.extend (hnew : ∀ k i, c < k → k ≤ c' → touch k i → i ∈ W → ∃ v, k ≤ v ∧ held i v) :
    Reflects touch held W c' := by
  intro k i hk ht hi
  by_cases hkc : k ≤ c
  · exact h k i hkc ht hi
  · exact hnew k i (not_le.mp hkc) hk ht hi

end ChangeLog
