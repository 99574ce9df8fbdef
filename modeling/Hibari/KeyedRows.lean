import Mathlib

/-!
# Rows with a key

A table is a list of rows, and each row has a key. Rows are written by their key: every row with it
is replaced by a function of it, and the others stay. The module has what that does to membership,
to the keys and to how many rows there are of some kind – where the keys are unique, the last
changes by what the one row that is written was and is.
-/

namespace KeyedRows

open List

variable {α κ : Type*} [DecidableEq κ] {key : α → κ} {f : α → α} {p : α → Bool} {rows : List α}
  {r x : α} {k : κ}

/-- Writing a row that is not there changes nothing. -/
theorem update_of_notMem (hk : k ∉ rows.map key) :
    (rows.map fun r => if key r = k then f r else r) = rows := by
  refine (map_congr_left fun r hr => ?_).trans (map_id rows)
  exact if_neg fun (h : key r = k) => hk (h ▸ mem_map_of_mem hr)

/-- **One row is written**: the rows of a kind change by what it was and is. -/
theorem countP_update_of_mem (hn : (rows.map key).Nodup) (hr : r ∈ rows) :
    (rows.map fun x => if key x = key r then f x else x).countP p + (if p r then 1 else 0) =
      rows.countP p + if p (f r) then 1 else 0 := by
  induction rows with
  | nil => cases hr
  | cons y _ ih =>
    obtain ⟨hy, hrest⟩ := nodup_cons.mp hn
    rcases mem_cons.mp hr with rfl | hmem
    · -- it is the first one, and no other one has its key
      rw [map_cons, if_pos rfl, update_of_notMem hy, countP_cons, countP_cons]
      omega
    · have hne : key y ≠ key r := fun h => hy (h ▸ mem_map_of_mem hmem)
      have hind := ih hrest hmem
      rw [map_cons, if_neg hne, countP_cons, countP_cons]
      omega

/-- The row with a key, where keys are unique. -/
theorem find?_key (hn : (rows.map key).Nodup) (hr : r ∈ rows) (hk : key r = k) :
    rows.find? (fun x => decide (key x = k)) = some r := by
  subst hk
  cases h : rows.find? fun x => decide (key x = key r) with
  | none => exact absurd (decide_eq_true rfl) (find?_eq_none.mp h r hr)
  | some x =>
    have hx : key x = key r := by simpa using find?_some h
    rw [inj_on_of_nodup_map hn (mem_of_find?_eq_some h) hr hx]

end KeyedRows
