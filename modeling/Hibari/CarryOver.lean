import Hibari.Register

/-!
# A register that carries over what a version leaves out

Some versions are written for everybody and leave out what only concerns the one who keeps them. A
register that takes such a version in carries over what the version before it said
(`putWith`); one that does not forgets it (`put`). Both keep the same version, and what they make
of it depends on the versions that were kept one after the other since the register was empty: its
trail.
-/

namespace Register

variable {α : Type*} (rank : α → ℕ) (keep : α → Bool) (carry : α → α → α)

/-- Take in a version, and carry over to it from the one it replaces. -/
def putWith (kept : Option α) (v : α) : Option α :=
  if kept.any (fun e => decide (rank v < rank e)) then kept
  else if keep v then some (kept.elim v (carry · v)) else none

/-- **The trail**: what has been kept since nothing was, the last version first. -/
def trail (kept : List α) (v : α) : List α :=
  if kept.head?.any (fun e => decide (rank v < rank e)) then kept
  else if keep v then v :: kept else []

/-- What is carried over along a trail. -/
def carried : List α → Option α
  | [] => none
  | v :: before => some ((carried before).elim v (carry · v))

variable {rank keep carry}

/-- **Without carrying over**, the register keeps the last version of the trail. -/
theorem foldl_put_head? (vs kept : List α) :
    vs.foldl (put rank keep) kept.head? = (vs.foldl (trail rank keep) kept).head? := by
  induction vs generalizing kept with
  | nil => rfl
  | cons v _ ih =>
    have hstep : put rank keep kept.head? v = (trail rank keep kept v).head? := by
      unfold put trail
      split
      · rfl
      · split
        · rfl
        · rfl
    rw [List.foldl_cons, List.foldl_cons, hstep, ih]

/-- What is carried over does not change the rank. -/
theorem rank_carried (hrank : ∀ e v, rank (carry e v) = rank v) (kept : List α) :
    (carried carry kept).map rank = kept.head?.map rank := by
  cases kept with
  | nil => rfl
  | cons v before =>
    show some (rank ((carried carry before).elim v (carry · v))) = some (rank v)
    cases carried carry before with
    | none => rfl
    | some e => exact congrArg some (hrank e v)

/-- **With carrying over**, it keeps what is carried over along the trail. -/
theorem foldl_putWith_carried (hrank : ∀ e v, rank (carry e v) = rank v) (vs kept : List α) :
    vs.foldl (putWith rank keep carry) (carried carry kept)
      = carried carry (vs.foldl (trail rank keep) kept) := by
  induction vs generalizing kept with
  | nil => rfl
  | cons v _ ih =>
    have hsame := rank_carried hrank kept
    have holder : (carried carry kept).any (fun e => decide (rank v < rank e))
        = kept.head?.any (fun e => decide (rank v < rank e)) := by
      cases hc : carried carry kept with
      | _ => cases hh : kept.head? <;> simp_all
    have hstep : putWith rank keep carry (carried carry kept) v
        = carried carry (trail rank keep kept v) := by
      unfold putWith trail
      rw [holder]
      split
      · rfl
      · split
        · rfl
        · rfl
    rw [List.foldl_cons, List.foldl_cons, hstep, ih]

end Register
