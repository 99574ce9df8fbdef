import Hibari.HeldRows

/-!
# Locks that may be shared

Transactions that run at once are here a list, as in `HeldRows`, and what each of them holds is a
list of locks. Two locks may **conflict** or not: two that share a row do not. A transaction that
asks for a lock gets it when nobody else holds one that conflicts with it (`Free`), and so the locks
that different transactions hold never conflict (`Compatible`).

A transaction that does not get its lock **waits** for those who hold what conflicts with it. Some
locks may be taken in order: whoever asks for one of them holds only such locks, and lower ones.
Then nobody who asks for one of them is in a cycle of transactions that wait for each other
(`notMem_cycle`), whatever the order of the other locks is.
-/

namespace Conflicts

open HeldRows

variable {α ρ : Type*} {conflict : ρ → ρ → Prop} {held : α → List ρ} {asks : α → Option ρ}
  {tasks : List α} {i j k : ℕ} {t t' u : α} {r r' : ρ}

/-- Nobody but the transaction itself holds what conflicts with a lock. -/
def Free (conflict : ρ → ρ → Prop) (held : α → List ρ) (tasks : List α) (i : ℕ) (r : ρ) : Prop :=
  ∀ j < tasks.length, j ≠ i → ∀ t ∈ tasks[j]?, ∀ r' ∈ held t, ¬ conflict r r'

instance [∀ r r', Decidable (conflict r r')] (r : ρ) :
    Decidable (Free conflict held tasks i r) := by
  unfold Free
  infer_instance

theorem Free.not_conflict (h : Free conflict held tasks i r) (hj : tasks[j]? = some t)
    (hne : j ≠ i) (hr' : r' ∈ held t) : ¬ conflict r r' :=
  h j (List.getElem?_eq_some_iff.mp hj).1 hne t hj r' hr'

/-- **The locks of different transactions do not conflict.** -/
def Compatible (conflict : ρ → ρ → Prop) (held : α → List ρ) (tasks : List α) : Prop :=
  ∀ (i j : ℕ) (t u : α), i ≠ j → tasks[i]? = some t → tasks[j]? = some u →
    ∀ r ∈ held t, ∀ r' ∈ held u, ¬ conflict r r'

theorem compatible_nil : Compatible conflict held ([] : List α) :=
  nofun

/-- A transaction that begins holds nothing. -/
theorem Compatible.concat (h : Compatible conflict held tasks) (ht : held t = []) :
    Compatible conflict held (tasks ++ [t]) := by
  intro i j u v hne hi hj r hr r' hr'
  rcases getElem?_concat_cases hi with ⟨-, rfl⟩ | hi
  · rw [ht] at hr
    cases hr
  · rcases getElem?_concat_cases hj with ⟨-, rfl⟩ | hj
    · rw [ht] at hr'
      cases hr'
    · exact h i j u v hne hi hj r hr r' hr'

/-- **A transaction takes a lock that is free**, or gives up some that it has. -/
theorem Compatible.set (hsymm : ∀ r r', conflict r r' → conflict r' r)
    (h : Compatible conflict held tasks) (hi : tasks[i]? = some t)
    (hheld : ∀ r ∈ held t', r ∈ held t ∨ Free conflict held tasks i r) :
    Compatible conflict held (tasks.set i t') := by
  -- what the transaction has now conflicts with nothing of the others
  have hnew : ∀ (j : ℕ) (u : α), j ≠ i → tasks[j]? = some u →
      ∀ r ∈ held t', ∀ r' ∈ held u, ¬ conflict r r' := by
    intro j u hne hj r hr r' hr'
    rcases hheld r hr with hmine | hfree
    · exact h i j t u hne.symm hi hj r hmine r' hr'
    · exact hfree.not_conflict hj hne hr'
  intro j k u v hne hj hk r hr r' hr'
  rcases getElem?_set_cases hj with ⟨rfl, rfl⟩ | ⟨hji, hju⟩
  · rcases getElem?_set_cases hk with ⟨hki, -⟩ | ⟨hki, hkv⟩
    · exact absurd hki.symm hne
    · exact hnew k v hki hkv r hr r' hr'
  · rcases getElem?_set_cases hk with ⟨-, rfl⟩ | ⟨hki, hkv⟩
    · exact fun hc => hnew j u hji hju r' hr' r hr (hsymm r r' hc)
    · exact h j k u v hne hju hkv r hr r' hr'

/-! ## Waiting -/

/-- **A transaction waits for another one**, which holds what conflicts with the lock that it asks
for. -/
def Waits (conflict : ρ → ρ → Prop) (held : α → List ρ) (asks : α → Option ρ) (tasks : List α)
    (i j : ℕ) : Prop :=
  i ≠ j ∧ ∃ t u, tasks[i]? = some t ∧ tasks[j]? = some u ∧
    ∃ r ∈ asks t, ∃ r' ∈ held u, conflict r r'

/-- **No cycle through locks that are taken in order.** Whoever asks for a lock of some kind holds
only what conflicts with locks of that kind, and with lower ones. -/
theorem notMem_cycle {β : Type*} [Preorder β] (kind : ρ → Prop) (rank : ρ → β)
    (hheld : ∀ t ∈ tasks, ∀ r ∈ asks t, kind r →
      ∀ r' ∈ held t, ∀ q, conflict q r' → kind q ∧ rank q < rank r)
    (hi : tasks[i]? = some t) (hr : asks t = some r) (hkind : kind r) :
    ¬ Relation.TransGen (Waits conflict held asks tasks) i i := by
  -- who waits, however indirectly, asks for a lower lock of the kind
  have hback : ∀ j, Relation.TransGen (Waits conflict held asks tasks) j i →
      ∃ u q, tasks[j]? = some u ∧ asks u = some q ∧ kind q ∧ rank q < rank r := by
    intro j hj
    induction hj using Relation.TransGen.head_induction_on with
    | single hwaits =>
      obtain ⟨-, u, v, hu, hv, q, hq, r', hr', hc⟩ := hwaits
      obtain rfl := Option.some.inj (hv.symm.trans hi)
      obtain ⟨hk, hlt⟩ := hheld v (List.mem_of_getElem? hi) r hr hkind r' hr' q hc
      exact ⟨u, q, hu, hq, hk, hlt⟩
    | head hwaits _ ih =>
      obtain ⟨-, u, v, hu, hv, q, hq, r', hr', hc⟩ := hwaits
      obtain ⟨w, p, hw, hp, hkp, hlt⟩ := ih
      obtain rfl := Option.some.inj (hv.symm.trans hw)
      obtain ⟨hk, hlt'⟩ := hheld v (List.mem_of_getElem? hv) p hp hkp r' hr' q hc
      exact ⟨u, q, hu, hq, hk, hlt'.trans hlt⟩
  intro hcycle
  obtain ⟨u, q, hu, hq, -, hlt⟩ := hback i hcycle
  obtain rfl := Option.some.inj (hu.symm.trans hi)
  obtain rfl := Option.some.inj (hq.symm.trans hr)
  exact lt_irrefl _ hlt

end Conflicts
