import Hibari.TransitionSystem

/-!
# Locks that are held to the end

A transaction is here the list of rows it locks, in the order in which it asks for
them. It holds what it has until it is over – committed or rolled back, at any
point – and then gives everything back at once, and it may run again. Where a row
is held by another transaction it waits.

A **deadlock** is a cycle of transactions each of which waits for a row that the
next one holds. Where the rows have ranks, and every transaction of the cycle
waits for a row whose rank is larger than those of the rows it holds, there is none
(`false_of_rank`). The ranks may depend on the cycle: what matters is not
the order of all the transactions there are, but of those that stand in each other's
way.

Conversely two transactions that start with different rows can come as far as they
like (`reachable_pair`), and where each then asks for what the other has, they are
stuck (`deadlocked_pair`).
-/

namespace Locks

open List Function

variable {ι ρ : Type*} {rows : ι → List ρ} {s : ι → ℕ} {i j : ι} {r : ρ}

/-- A transaction holds a row: it is among those it has locked so far. -/
def Holds (rows : ι → List ρ) (s : ι → ℕ) (i : ι) (r : ρ) : Prop := r ∈ (rows i).take (s i)

/-- The row a transaction asks for. -/
def next (rows : ι → List ρ) (s : ι → ℕ) (i : ι) : Option ρ := (rows i)[s i]?

/-- A transaction waits for another one: it asks for a row which that one holds. -/
def Waits (rows : ι → List ρ) (s : ι → ℕ) (i j : ι) : Prop :=
  i ≠ j ∧ ∃ r, next rows s i = some r ∧ Holds rows s j r

/-- **A cycle of transactions, each waiting for the next.** -/
def Deadlocked (rows : ι → List ρ) (s : ι → ℕ) : Prop :=
  ∃ i, Relation.TransGen (Waits rows s) i i

/-- What a transaction does: lock its next row, or end. -/
inductive Action (ι : Type*)
  | lock (i : ι)
  | finish (i : ι)

section System

variable [DecidableEq ι]

open Classical in
/-- **Transactions that run at once.** A row is locked when no other transaction holds
it. -/
noncomputable def system (rows : ι → List ρ) : TransitionSystem (ι → ℕ) (Action ι) where
  init s := s = fun _ => 0
  step s
    | .lock i =>
      if ∃ r, next rows s i = some r ∧ ∀ j, j ≠ i → ¬ Holds rows s j r then
        some (Function.update s i (s i + 1))
      else none
    | .finish i => some (Function.update s i 0)

/-! ## Rows are held by one -/

/-- What is held after a row was locked. -/
theorem holds_lock (hnext : next rows s i = some r) {k : ι} {r' : ρ} :
    Holds rows (update s i (s i + 1)) k r' ↔ Holds rows s k r' ∨ (k = i ∧ r' = r) := by
  unfold Holds
  by_cases hk : k = i
  · subst hk
    have htake : (rows k).take (s k + 1) = (rows k).take (s k) ++ [r] := by
      rw [take_add_one, show (rows k)[s k]? = some r from hnext]
      rfl
    rw [update_self, htake, mem_append, mem_singleton]
    exact ⟨Or.imp_right fun h => ⟨rfl, h⟩, Or.imp_right And.right⟩
  · rw [update_of_ne hk]
    exact ⟨.inl, fun h => h.resolve_right fun hboth => hk hboth.1⟩

/-- What is held after a transaction is over. -/
theorem holds_finish {k : ι} (h : Holds rows (update s i 0) k r) : Holds rows s k r := by
  unfold Holds at h ⊢
  by_cases hk : k = i
  · rw [hk, update_self, take_zero] at h
    cases h
  · rwa [update_of_ne hk] at h

/-- **No row is held twice.** -/
theorem holds_unique (h : (system rows).Reachable s) :
    ∀ i j r, Holds rows s i r → Holds rows s j r → i = j := by
  refine h.invariant (I := fun s => ∀ i j r, Holds rows s i r → Holds rows s j r → i = j)
    (fun s hs => ?_) fun s a s' hs _ hstep => ?_
  · obtain rfl : s = fun _ => 0 := hs
    intro i j r hi
    cases hi
  · cases a with
    | finish k =>
      obtain rfl : update s k 0 = s' := Option.some.inj hstep
      exact fun i j r hi hj => hs i j r (holds_finish hi) (holds_finish hj)
    | lock =>
      unfold system at hstep
      dsimp only at hstep
      split at hstep
      · next hfree =>
        obtain ⟨r₀, hnext, hothers⟩ := hfree
        cases hstep
        intro i j r hi hj
        rcases (holds_lock hnext).mp hi with hi | ⟨hik, hir⟩
        · rcases (holds_lock hnext).mp hj with hj | ⟨hjk, hjr⟩
          · exact hs i j r hi hj
          · by_contra hne
            exact hothers i (fun hi' => hne (hi'.trans hjk.symm)) (hjr ▸ hi)
        · rcases (holds_lock hnext).mp hj with hj | ⟨hjk, hjr⟩
          · by_contra hne
            exact hothers j (fun hj' => hne (hik.trans hj'.symm)) (hir ▸ hj)
          · exact hik.trans hjk.symm
      · cases hstep

end System

/-! ## Ranks -/

/-- **No cycle where ranks rise.** Where every transaction of a cycle asks for a row of
a larger rank than those it holds, there is no cycle. -/
theorem false_of_rank {α : Type*} [Preorder α] (rank : ρ → α)
    (hi : Relation.TransGen (Waits rows s) i i)
    (hrank : ∀ j, Relation.TransGen (Waits rows s) i j → Relation.TransGen (Waits rows s) j i →
      ∀ r r', Holds rows s j r → next rows s j = some r' → rank r < rank r') : False := by
  -- along the cycle what is asked for rises
  have hrises : ∀ j, Relation.TransGen (Waits rows s) i j → Relation.TransGen (Waits rows s) j i →
      ∀ r r', next rows s i = some r → next rows s j = some r' → rank r < rank r' := by
    intro j hij
    induction hij with
    | single hwaits =>
      intro hback r r' hr hr'
      have hto := Relation.TransGen.single hwaits
      obtain ⟨-, r₁, hr₁, hheld⟩ := hwaits
      obtain rfl := Option.some.inj (hr.symm.trans hr₁)
      exact hrank _ hto hback r r' hheld hr'
    | tail hto hwaits ih =>
      intro hback r r' hr hr'
      have hstep := Relation.TransGen.single hwaits
      obtain ⟨-, r₁, hr₁, hheld⟩ := hwaits
      have hfirst := ih (hstep.trans hback) r r₁ hr hr₁
      exact hfirst.trans (hrank _ (hto.trans hstep) hback r₁ r' hheld hr')
  obtain ⟨k, hik⟩ : ∃ k, Waits rows s i k := by
    cases Relation.TransGen.head'_iff.mp hi with
    | intro k hk => exact ⟨k, hk.1⟩
  obtain ⟨-, r, hr, -⟩ := hik
  exact lt_irrefl _ (hrises i hi hi r r hr hr)

/-- In an ordered list, what was taken is related to what comes next. -/
theorem rel_of_pairwise {l : List ρ} {R : ρ → ρ → Prop} (h : l.Pairwise R) {n : ℕ} {r r' : ρ}
    (hr : r ∈ l.take n) (hr' : l[n]? = some r') : R r r' := by
  rw [mem_take_iff_getElem] at hr
  obtain ⟨k, hk, rfl⟩ := hr
  obtain ⟨hn, rfl⟩ := List.getElem?_eq_some_iff.mp hr'
  exact pairwise_iff_getElem.mp h k n (by omega) hn (by omega)

/-- Everyone in a cycle holds a row that another one asks for. -/
theorem holds_of_cycle (h : Relation.TransGen (Waits rows s) i j) : ∃ r, Holds rows s j r := by
  cases h with
  | single hwaits => exact ⟨_, hwaits.2.choose_spec.2⟩
  | tail _ hwaits => exact ⟨_, hwaits.2.choose_spec.2⟩

/-! ## Two that stand in each other's way -/

/-- **Two transactions come as far as they like** where what they take is
different. -/
theorem reachable_pair [DecidableEq ι] (rows : ι → List ρ) (hij : i ≠ j) (a b : ℕ) (ha : a ≤ (rows i).length)
    (hb : b ≤ (rows j).length) (hdisjoint : ∀ r ∈ (rows i).take a, r ∉ (rows j).take b) :
    (system rows).Reachable (update (update (fun _ => 0) i a) j b) := by
  have hnone : ∀ (s : ι → ℕ) k r, s k = 0 → ¬ Holds rows s k r := by
    intro s k r hk hheld
    unfold Holds at hheld
    rw [hk, take_zero] at hheld
    cases hheld
  have hlock : ∀ (s : ι → ℕ) k r, next rows s k = some r →
      (∀ l, l ≠ k → ¬ Holds rows s l r) → (system rows).Reachable s →
      (system rows).Reachable (update s k (s k + 1)) := by
    intro s k r hnext hfree hs
    refine hs.tail (a := .lock k) trivial ?_
    exact if_pos ⟨r, hnext, hfree⟩
  -- the first takes its rows while nobody else has any
  have hfirst : ∀ n ≤ a, (system rows).Reachable (update (fun _ => 0) i n) := by
    intro n
    induction n with
    | zero =>
      intro _
      rw [show update (fun _ : ι => 0) i 0 = fun _ => 0 from update_eq_self i _]
      exact TransitionSystem.ReachableBy.start rfl
    | succ n ih =>
      intro hn
      have hlt : n < (rows i).length := by omega
      have hstep := hlock (update (fun _ => 0) i n) i (rows i)[n]
        (by simp only [next, update_self, getElem?_eq_getElem hlt])
        (fun l hl => hnone _ l _ (update_of_ne hl _ _)) (ih (by omega))
      rwa [update_self, update_idem] at hstep
  -- and the second takes its own, which the first does not have
  have hsecond : ∀ n ≤ b, (system rows).Reachable (update (update (fun _ => 0) i a) j n) := by
    intro n
    induction n with
    | zero =>
      intro _
      have hzero : (update (fun _ : ι => 0) i a) j = 0 := update_of_ne hij.symm _ _
      have hsame : update (update (fun _ : ι => 0) i a) j 0 = update (fun _ => 0) i a := by
        funext k
        by_cases hk : k = j
        · rw [hk, update_self, hzero]
        · rw [update_of_ne hk]
      rw [hsame]
      exact hfirst a le_rfl
    | succ n ih =>
      intro hn
      have hlt : n < (rows j).length := by omega
      have hin : (rows j)[n] ∈ (rows j).take b := by
        rw [mem_take_iff_getElem]
        exact ⟨n, by omega, rfl⟩
      have hstep := hlock (update (update (fun _ => 0) i a) j n) j (rows j)[n]
        (by simp only [next, update_self, getElem?_eq_getElem hlt])
        (fun l hl => ?_) (ih (by omega))
      · rwa [update_self, update_idem] at hstep
      · by_cases hli : l = i
        · intro hheld
          unfold Holds at hheld
          rw [update_of_ne hl, hli, update_self] at hheld
          exact hdisjoint _ hheld hin
        · refine hnone _ l _ ?_
          rw [update_of_ne hl, update_of_ne hli]
  exact hsecond b le_rfl

/-- **They are stuck** where each asks for what the other has. -/
theorem deadlocked_pair (hij : i ≠ j) {r r' : ρ} (hi : next rows s i = some r)
    (hheld : Holds rows s j r) (hj : next rows s j = some r') (hheld' : Holds rows s i r') :
    Deadlocked rows s :=
  ⟨i, (Relation.TransGen.single ⟨hij, r, hi, hheld⟩).tail ⟨hij.symm, r', hj, hheld'⟩⟩

end Locks
