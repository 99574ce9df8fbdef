import Mathlib

/-!
# Lists with one entry per key

An insertion-ordered map that is written out as a list of its values – a
JavaScript `Map` spread into an array, a table keyed by a column – is a
list whose entries have distinct keys. `upsert` is the assignment: it
replaces the entry of the key in its place, or appends a new one, and a
`resolve` function decides what an existing entry becomes.

The lemmas follow an entry through a fold of assignments: what is found of a
key (`find?_foldl_upsert`), where each entry comes from
(`forall_foldl_upsert`), and – when `resolve` never lowers a rank – that
nothing is replaced by something older (`exists_rank_le_of_mem_current`,
`exists_rank_le_of_mem_incoming`).
-/

namespace KeyedList

open List

variable {α κ : Type*} [DecidableEq κ] {as xs ys : List α} {a x y : α}

/-- Replace the entry with the key of `a` by `resolve` of it and `a`, in its
place; append `a` where no entry has its key. -/
def upsert (key : α → κ) (resolve : α → α → α) : List α → α → List α
  | [], a => [a]
  | x :: xs, a =>
    if key x = key a then resolve x a :: xs else x :: upsert key resolve xs a

/-- The entries have distinct keys. -/
def Distinct (key : α → κ) (xs : List α) : Prop := (xs.map key).Nodup

variable {key : α → κ} {resolve : α → α → α}

omit [DecidableEq κ] in
@[simp] theorem distinct_nil : Distinct key ([] : List α) := nodup_nil

omit [DecidableEq κ] in
/-- Entries with the same key are the same entry. -/
theorem Distinct.eq_of_mem (h : Distinct key xs)
    (hx : x ∈ xs) (hy : y ∈ xs) (hkey : key x = key y) : x = y :=
  inj_on_of_nodup_map h hx hy hkey

omit [DecidableEq κ] in
theorem Distinct.perm (hp : xs.Perm ys) (h : Distinct key xs) : Distinct key ys :=
  (hp.map key).nodup_iff.mp h

/-! ## One assignment -/

variable (hres : ∀ x a, key x = key a → key (resolve x a) = key a)
include hres

/-- The keys after an assignment: the same, or one more at the end. -/
theorem map_key_upsert (xs : List α) (a : α) :
    (upsert key resolve xs a).map key
      = if key a ∈ xs.map key then xs.map key else xs.map key ++ [key a] := by
  induction xs with
  | nil => rfl
  | cons x _ ih =>
    by_cases h : key x = key a
    · simp [upsert, h, hres x a h]
    · have hne : key a ≠ key x := fun hc => h hc.symm
      simp only [upsert, if_neg h, map_cons, ih, mem_cons, hne, false_or]
      split <;> rfl

/-- An assignment keeps the keys distinct. -/
theorem Distinct.upsert (h : Distinct key xs) (a : α) : Distinct key (upsert key resolve xs a) := by
  unfold Distinct
  rw [map_key_upsert hres]
  split
  · exact h
  · next hna => exact nodup_append.mpr ⟨h, nodup_singleton _, by
      rintro k hk _ hb rfl
      exact hna (mem_singleton.mp hb ▸ hk)⟩

omit hres

/-- Where an entry after an assignment comes from. -/
theorem mem_upsert (h : y ∈ upsert key resolve xs a) :
    y ∈ xs ∨ y = a ∨ ∃ x ∈ xs, key x = key a ∧ y = resolve x a := by
  induction xs with
  | nil => exact .inr (.inl (mem_singleton.mp h))
  | cons x _ ih =>
    rw [KeyedList.upsert] at h
    split at h
    · next hx =>
      rcases mem_cons.mp h with rfl | hy
      · exact .inr (.inr ⟨x, .head _, hx, rfl⟩)
      · exact .inl (.tail _ hy)
    · rcases mem_cons.mp h with rfl | hy
      · exact .inl (.head _)
      · rcases ih hy with h' | rfl | ⟨z, hz, hk, rfl⟩
        · exact .inl (.tail _ h')
        · exact .inr (.inl rfl)
        · exact .inr (.inr ⟨z, .tail _ hz, hk, rfl⟩)

variable (key resolve) in
/-- The assigned entry is there: new, or resolved against the old one. -/
theorem mem_upsert_self (xs : List α) (a : α) : a ∈ upsert key resolve xs a
      ∨ ∃ x ∈ xs, key x = key a ∧ resolve x a ∈ upsert key resolve xs a := by
  induction xs with
  | nil => exact .inl (.head _)
  | cons x _ ih =>
    rw [KeyedList.upsert]
    split
    · next hx => exact .inr ⟨x, .head _, hx, .head _⟩
    · rcases ih with h | ⟨z, hz, hk, h⟩
      · exact .inl (.tail _ h)
      · exact .inr ⟨z, .tail _ hz, hk, .tail _ h⟩

variable (key resolve) in
/-- An entry that was there stays, or is resolved against the assigned one. -/
theorem mem_upsert_of_mem (hx : x ∈ xs) (a : α) : x ∈ upsert key resolve xs a
      ∨ (key x = key a ∧ resolve x a ∈ upsert key resolve xs a) := by
  induction xs with
  | nil => cases hx
  | cons _ _ ih =>
    rw [KeyedList.upsert]
    split
    · next hz =>
      rcases mem_cons.mp hx with rfl | hx'
      · exact .inr ⟨hz, .head _⟩
      · exact .inl (.tail _ hx')
    · rcases mem_cons.mp hx with rfl | hx'
      · exact .inl (.head _)
      · rcases ih hx' with h | ⟨hk, h⟩
        · exact .inl (.tail _ h)
        · exact .inr ⟨hk, .tail _ h⟩

/-- Assigning a new key appends. -/
theorem upsert_of_notMem (h : key a ∉ xs.map key) : upsert key resolve xs a = xs ++ [a] := by
  induction xs with
  | nil => rfl
  | cons x xs ih =>
    have hx : key x ≠ key a := fun e => h (mem_map.mpr ⟨x, .head _, e⟩)
    have hxs : key a ∉ xs.map key := fun hm => h (.tail _ hm)
    rw [upsert, if_neg hx, ih hxs, cons_append]

include hres

/-- The entry of a key after an assignment. -/
theorem find?_upsert (xs : List α) (a : α) (k : κ) :
    (upsert key resolve xs a).find? (fun x => decide (key x = k))
      = if key a = k then some ((xs.find? (fun x => decide (key x = k))).elim a (resolve · a))
        else xs.find? (fun x => decide (key x = k)) := by
  induction xs with
  | nil =>
    by_cases ha : key a = k
    · simp [upsert, ha]
    · simp [upsert, ha]
  | cons x _ ih =>
    rw [upsert]
    by_cases hx : key x = key a
    · have hkey := hres x a hx
      by_cases ha : key a = k
      · simp [hx, hkey, ha]
      · simp [hx, hkey, ha]
    · rw [if_neg hx, find?_cons, ih, find?_cons]
      by_cases hk : key x = k
      · have hak : key a ≠ k := fun ha => hx (hk.trans ha.symm)
        simp [hk, hak]
      · simp [hk]

/-! ## A fold of assignments -/

omit hres

/-- Assigning entries of distinct new keys appends them. -/
theorem foldl_upsert_of_distinct (h : Distinct key (xs ++ as)) :
    as.foldl (upsert key resolve) xs = xs ++ as := by
  induction as generalizing xs with
  | nil => exact (append_nil xs).symm
  | cons a _ ih =>
    have ha : key a ∉ xs.map key := by
      rw [Distinct, map_append] at h
      exact fun hm => (nodup_append.mp h).2.2 _ hm _ (mem_map_of_mem (.head _)) rfl
    rw [foldl_cons, upsert_of_notMem ha, ih (by rwa [append_cons] at h), ← append_cons]

/-- Writing a list with distinct keys into an empty map gives it back. -/
theorem foldl_upsert_nil (h : Distinct key as) : as.foldl (upsert key resolve) [] = as :=
  foldl_upsert_of_distinct h

include hres

/-- Assignments keep the keys distinct. -/
theorem Distinct.foldl_upsert (h : Distinct key xs) (as : List α) :
    Distinct key (as.foldl (KeyedList.upsert key resolve) xs) := by
  induction as generalizing xs with
  | nil => exact h
  | cons a _ ih => exact ih (h.upsert hres a)

/-- **The entry of a key is the fold of what is assigned to it.** -/
theorem find?_foldl_upsert (xs as : List α) (k : κ) :
    (as.foldl (upsert key resolve) xs).find? (fun x => decide (key x = k))
      = (as.filter (fun a => decide (key a = k))).foldl
          (fun e a => some (e.elim a (resolve · a))) (xs.find? (fun x => decide (key x = k))) := by
  induction as generalizing xs with
  | nil => rfl
  | cons a _ ih =>
    rw [foldl_cons, ih, find?_upsert hres]
    by_cases ha : key a = k
    · simp [ha]
    · simp [ha]

omit hres

/-- Assignments that agree on what a function shows leave lists that do. -/
theorem map_foldl_upsert_congr {β : Type*} {g : α → β} {resolve' : α → α → α}
    (hkey : ∀ x y, g x = g y → key x = key y)
    (hg : ∀ x y a, g x = g y → g (resolve x a) = g (resolve' y a)) (as : List α)
    (h : xs.map g = ys.map g) :
    (as.foldl (upsert key resolve) xs).map g = (as.foldl (upsert key resolve') ys).map g := by
  have hstep : ∀ (a : α) (xs ys : List α), xs.map g = ys.map g →
      (upsert key resolve xs a).map g = (upsert key resolve' ys a).map g := by
    intro a xs
    induction xs with
    | nil =>
      intro ys hys
      rw [map_eq_nil_iff.mp hys.symm]
      rfl
    | cons x _ ih =>
      intro ys hys
      obtain ⟨y, ys, rfl, hy, hrest⟩ := map_eq_cons_iff.mp hys.symm
      by_cases hx : key x = key a
      · have hy' : key y = key a := (hkey y x hy).trans hx
        rw [upsert, upsert, if_pos hx, if_pos hy', map_cons, map_cons, hg x y a hy.symm, hrest]
      · have hy' : key y ≠ key a := fun heq => hx ((hkey x y hy.symm).trans heq)
        rw [upsert, upsert, if_neg hx, if_neg hy', map_cons, map_cons, hy, ih ys hrest.symm]
  induction as generalizing xs ys with
  | nil => exact h
  | cons a _ ih => exact ih (hstep a xs ys h)

omit [DecidableEq κ] in
/-- Lists with the same keys and the same entries are one. -/
theorem eq_of_entries (hkeys : xs.map key = ys.map key)
    (hentries : ∀ x ∈ xs, ∀ y ∈ ys, key x = key y → x = y) : xs = ys := by
  have hlength : xs.length = ys.length := by
    simpa using congrArg List.length hkeys
  refine ext_getElem hlength fun i hi hi' => ?_
  refine hentries _ (getElem_mem hi) _ (getElem_mem hi') ?_
  have hat := congrArg (fun l => l[i]?) hkeys
  simpa [hi, hi'] using hat

/-- What holds of every entry on both sides, and of what `resolve` makes of
two of them with one key, holds after the assignments. -/
theorem forall_foldl_upsert {Q : α → Prop}
    (hres : ∀ x a, key x = key a → Q x → Q a → Q (resolve x a)) (hxs : ∀ x ∈ xs, Q x) (has : ∀ a ∈ as, Q a) :
    ∀ y ∈ as.foldl (upsert key resolve) xs, Q y := by
  induction as generalizing xs with
  | nil => exact hxs
  | cons a _ ih =>
    have ha := has a (.head _)
    have hstep : ∀ y ∈ upsert key resolve xs a, Q y := by
      intro y hy
      rcases mem_upsert hy with hy | rfl | ⟨x, hx, hk, rfl⟩
      · exact hxs y hy
      · exact ha
      · exact hres x a hk (hxs x hx) ha
    exact ih hstep (fun b hb => has b (.tail _ hb))

variable (key) (rank : α → ℕ)

/-- **Assignments replace nothing by something older**: an entry that was
there has one with its key and at least its rank afterwards. -/
theorem exists_rank_le_of_mem_current (hres : ∀ x a, key x = key a → key (resolve x a) = key a)
    (hrank : ∀ x a, key x = key a → rank x ≤ rank (resolve x a)) (as : List α) (hx : x ∈ xs) :
    ∃ y ∈ as.foldl (upsert key resolve) xs, key y = key x ∧ rank x ≤ rank y := by
  induction as generalizing xs x with
  | nil => exact ⟨x, hx, rfl, le_rfl⟩
  | cons a _ ih =>
    rcases mem_upsert_of_mem key resolve hx a with h | ⟨hk, h⟩
    · exact ih h
    · obtain ⟨y, hy, hky, hry⟩ := ih h
      exact ⟨y, hy, hky.trans ((hres x a hk).trans hk.symm), (hrank x a hk).trans hry⟩

/-- An assigned entry has one with its key and at least its rank after the
remaining assignments. -/
theorem exists_rank_le_of_mem_incoming (hres : ∀ x a, key x = key a → key (resolve x a) = key a)
    (hcur : ∀ x a, key x = key a → rank x ≤ rank (resolve x a))
    (hinc : ∀ x a, key x = key a → rank a ≤ rank (resolve x a)) (ha : a ∈ as) :
    ∃ y ∈ as.foldl (upsert key resolve) xs, key y = key a ∧ rank a ≤ rank y := by
  induction as generalizing xs with
  | nil => cases ha
  | cons _ as ih =>
    rcases mem_cons.mp ha with rfl | ha'
    · rcases mem_upsert_self key resolve xs a with h | ⟨x, hx, hk, h⟩
      · exact exists_rank_le_of_mem_current key rank hres hcur as h
      · obtain ⟨y, hy, hky, hry⟩ := exists_rank_le_of_mem_current key rank hres hcur as h
        exact ⟨y, hy, hky.trans (hres x a hk), (hinc x a hk).trans hry⟩
    · exact ih ha'

end KeyedList
