import Mathlib

/-!
# Statements that write the rows they found

Under READ COMMITTED a statement that writes rows by a condition finds them in the database
as it is when the statement begins (`found`). It takes them one after another, each as soon
as it can lock it, and asks the condition again of the row as it is by then: it writes the
row if the condition still holds (`take`), and rows that were committed meanwhile it does not
see.

So it writes all the rows that meet the condition at its end only if it **covers** them:
each is one that it has got, or one that it has still to take.
-/

namespace SnapshotUpdate

open List

variable {ρ κ : Type*} {key : ρ → κ} {hit : ρ → Bool} {rows rows' : List ρ} {todo got : List κ}
  {k : κ}

/-- The rows that a statement finds. -/
def found (key : ρ → κ) (hit : ρ → Bool) (rows : List ρ) : List κ := (rows.filter hit).map key

/-- **A statement takes a row**: the condition is asked again. -/
def take [DecidableEq κ] (key : ρ → κ) (hit : ρ → Bool) (rows : List ρ) (got : List κ) (k : κ) :
    List κ :=
  if rows.any (fun r => decide (key r = k) && hit r) then got ++ [k] else got

/-- **Each row that meets the condition** is one that a statement has got, or has still to
take. -/
def Covers (key : ρ → κ) (hit : ρ → Bool) (rows : List ρ) (todo got : List κ) : Prop :=
  ∀ r ∈ rows, hit r = true → key r ∈ got ∨ key r ∈ todo

/-- The rows that a statement has got meet its condition. -/
def Holds (key : ρ → κ) (hit : ρ → Bool) (rows : List ρ) (got : List κ) : Prop :=
  ∀ k ∈ got, ∃ r ∈ rows, key r = k ∧ hit r = true

theorem mem_found : k ∈ found key hit rows ↔ ∃ r ∈ rows, key r = k ∧ hit r = true := by
  unfold found
  rw [mem_map]
  constructor
  · rintro ⟨r, hr, hkey⟩
    obtain ⟨hmem, hhit⟩ := mem_filter.mp hr
    exact ⟨r, hmem, hkey, hhit⟩
  · rintro ⟨r, hmem, hkey, hhit⟩
    exact ⟨r, mem_filter.mpr ⟨hmem, hhit⟩, hkey⟩

theorem holds_nil : Holds key hit rows [] := nofun

section Take

variable [DecidableEq κ]

theorem mem_take {k' : κ} (h : k' ∈ take key hit rows got k) : k' ∈ got ∨ k' = k := by
  unfold take at h
  split at h
  · rcases mem_append.mp h with h | h
    · exact .inl h
    · exact .inr (mem_singleton.mp h)
  · exact .inl h

/-- **A row that is taken is still covered**, since one that is left out does not meet the
condition any more. What is covered may be less than what the statement writes. -/
theorem Covers.take {hit' : ρ → Bool} (h : Covers key hit' rows (k :: todo) got)
    (himp : ∀ r ∈ rows, hit' r = true → hit r = true) :
    Covers key hit' rows todo (take key hit rows got k) := by
  intro r hr hhit
  unfold SnapshotUpdate.take
  rcases h r hr hhit with hgot | htodo
  · split
    · exact .inl (mem_append_left _ hgot)
    · exact .inl hgot
  · rcases mem_cons.mp htodo with rfl | htodo
    · have hany : rows.any (fun x => decide (key x = key r) && hit x) = true :=
        any_eq_true.mpr ⟨r, hr, by rw [himp r hr hhit, Bool.and_true]; exact decide_eq_true rfl⟩
      rw [if_pos hany]
      exact .inl (mem_append_right _ (.head _))
    · exact .inr htodo

theorem Holds.take (h : Holds key hit rows got) : Holds key hit rows (take key hit rows got k) := by
  intro k' hk'
  unfold SnapshotUpdate.take at hk'
  split at hk'
  · next hany =>
    rcases mem_append.mp hk' with hk' | hk'
    · exact h k' hk'
    · obtain ⟨r, hr, htest⟩ := any_eq_true.mp hany
      obtain ⟨hkey, hhit⟩ := (Bool.and_eq_true _ _).mp htest
      rw [mem_singleton.mp hk']
      exact ⟨r, hr, of_decide_eq_true hkey, hhit⟩
  · exact h k' hk'

end Take

/-- Others may write rows so that they meet the condition no more, but may add none. -/
theorem Covers.mono (h : Covers key hit rows todo got)
    (hback : ∀ r' ∈ rows', hit r' = true → ∃ r ∈ rows, key r = key r' ∧ hit r = true) :
    Covers key hit rows' todo got := by
  intro r' hr' hhit'
  obtain ⟨r, hr, hkey, hhit⟩ := hback r' hr' hhit'
  rw [← hkey]
  exact h r hr hhit

/-- **At the end a statement has got every row that meets its condition.** -/
theorem Covers.mem_got (h : Covers key hit rows [] got) :
    ∀ r ∈ rows, hit r = true → key r ∈ got := by
  intro r hr hhit
  rcases h r hr hhit with hgot | hnil
  · exact hgot
  · cases hnil

end SnapshotUpdate
