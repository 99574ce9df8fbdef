import Hibari.Conflicts
import Hibari.TransitionSystem

/-!
# Transactions as lists of locks

A transaction is here the list of locks that it asks for in turn, and a set of transactions that run
at once a list of them. A lock is given when nobody else holds one that conflicts with it, a
transaction may end at any moment – whether it commits or not – and gives up all that it holds, and
the locks that are asked for have modes, or whatever else decides which of them conflict.

Where all transactions ask for locks of rising ranks, and conflicting locks have the same rank, no
cycle of waiting transactions is reached (`not_deadlocked`). Ranks may also stay, where whoever
asks for a lock of the rank of one that it has holds a gate by then (`not_deadlocked_of_gates`).
Two transactions get into a cycle where each asks for what the other has by then
(`deadlocked_pair`); so they do where the first, having some locks that the second asks for, asks
for one that the second asks for before all of those (`exists_deadlocked`).
-/

namespace LockRuns

open List Option

/-- A transaction and how many locks it has, as long as it has not ended. -/
abbrev Task (T : Type*) := T × Option ℕ

variable {T ρ : Type*} (locks : T → List ρ)

/-- The locks that a transaction holds. -/
def held : Task T → List ρ
  | (t, some n) => (locks t).take n
  | (_, none) => []

/-- The lock that a transaction asks for. -/
def asks : Task T → Option ρ
  | (t, some n) => (locks t)[n]?
  | (_, none) => none

/-- **A step**: a transaction gets the lock that it asks for, or ends. -/
inductive Action
  | lock (i : ℕ)
  | finish (i : ℕ)
  deriving DecidableEq

variable (conflict : ρ → ρ → Prop) [∀ r r', Decidable (conflict r r')]

/-- The transactions after a step. -/
def step (tasks : List (Task T)) : Action → Option (List (Task T))
  | .lock i =>
    match tasks[i]? with
    | some (t, some n) =>
      match (locks t)[n]? with
      | some r =>
        if Conflicts.Free conflict (held locks) tasks i r then some (tasks.set i (t, some (n + 1)))
        else none
      | none => none
    | _ => none
  | .finish i =>
    match tasks[i]? with
    | some (t, some _) => some (tasks.set i (t, none))
    | _ => none

/-- Transactions that begin at once. -/
def system (ts : List T) : TransitionSystem (List (Task T)) Action :=
  ⟨fun tasks => tasks = ts.map (·, some 0), step locks conflict⟩

/-- **A cycle of transactions that wait for each other.** -/
def Deadlocked (tasks : List (Task T)) : Prop :=
  ∃ i, Relation.TransGen (Conflicts.Waits conflict (held locks) (asks locks) tasks) i i

variable {locks conflict} {ts : List T} {tasks : List (Task T)} {t u : T} {i j n : ℕ} {r : ρ}

/-- The transactions stay the same. -/
theorem map_fst_of_reachable (hs : (system locks conflict ts).Reachable tasks) :
    tasks.map Prod.fst = ts := by
  have hset : ∀ {tasks : List (Task T)} {i : ℕ} {t : T} {m m' : Option ℕ},
      tasks[i]? = some (t, m) → (tasks.set i (t, m')).map Prod.fst = tasks.map Prod.fst := by
    intro tasks i t m m' hi
    rw [map_set]
    refine ext_getElem? fun j => ?_
    by_cases hj : i = j
    · subst hj
      rw [getElem?_set_self', getElem?_map, hi]
      rfl
    · rw [getElem?_set_ne hj]
  refine hs.invariant (I := fun tasks => tasks.map Prod.fst = ts) (fun tasks hinit => ?_)
    fun tasks action tasks' h _ hstep => ?_
  · obtain rfl : tasks = _ := hinit
    rw [List.map_map]
    exact List.map_id ts
  · rw [← h]
    cases action with
    | lock =>
      simp only [system, step] at hstep
      split at hstep
      · next hi =>
        split at hstep
        · split at hstep
          · cases hstep
            exact hset hi
          · cases hstep
        · cases hstep
      · cases hstep
    | finish =>
      simp only [system, step] at hstep
      split at hstep
      · next hi =>
        cases hstep
        exact hset hi
      · cases hstep

/-- **No cycle where ranks rise.** -/
theorem not_deadlocked {β : Type*} [Preorder β] (rank : ρ → β)
    (hconflict : ∀ r r', conflict r r' → rank r = rank r')
    (hrising : ∀ t ∈ ts, (locks t).Pairwise fun r r' => rank r < rank r')
    (hs : (system locks conflict ts).Reachable tasks) : ¬ Deadlocked locks conflict tasks := by
  rintro ⟨i, hcycle⟩
  obtain ⟨k, hwaits, -⟩ := Relation.TransGen.head'_iff.mp hcycle
  obtain ⟨-, task, -, hi, -, r, hr, -⟩ := hwaits
  refine Conflicts.notMem_cycle (fun _ => True) rank (fun task htask r hr _ r' hr' q hq =>
    ⟨trivial, ?_⟩) hi hr trivial hcycle
  -- what a transaction has is of a lower rank than what it asks for
  obtain ⟨t, m⟩ := task
  have ht : t ∈ ts := map_fst_of_reachable hs ▸ List.mem_map_of_mem htask
  cases m with
  | none => cases hr
  | some n =>
    rw [hconflict q r' hq]
    obtain ⟨k, hk, rfl⟩ := mem_take_iff_getElem.mp hr'
    obtain ⟨hn, rfl⟩ := List.getElem?_eq_some_iff.mp hr
    exact pairwise_iff_getElem.mp (hrising t ht) k n _ hn (lt_of_lt_of_le hk (min_le_left n _))

/-- **What different transactions hold does not conflict.** -/
theorem compatible_of_reachable (hsymm : ∀ r r', conflict r r' → conflict r' r)
    (hs : (system locks conflict ts).Reachable tasks) :
    Conflicts.Compatible conflict (held locks) tasks := by
  refine hs.invariant (I := Conflicts.Compatible conflict (held locks)) (fun tasks hinit => ?_)
    fun tasks action tasks' h _ hstep => ?_
  · obtain rfl : tasks = _ := hinit
    intro i j t u _ hi _ r hr
    rw [getElem?_map] at hi
    obtain ⟨t', -, rfl⟩ := map_eq_some_iff.mp hi
    have hnone : r ∈ (locks t').take 0 := hr
    rw [take_zero] at hnone
    cases hnone
  · cases action with
    | lock =>
      simp only [system, step] at hstep
      split at hstep
      · next t n hi =>
        split at hstep
        · next r hr =>
          split at hstep
          · next hfree =>
            cases hstep
            refine h.set hsymm hi fun q hq => ?_
            have hin : q ∈ (locks t).take (n + 1) := hq
            rw [take_add_one, hr] at hin
            rcases mem_append.mp hin with hin | hin
            · exact .inl hin
            · exact .inr ((mem_singleton.mp hin).symm ▸ hfree)
          · cases hstep
        · cases hstep
      · cases hstep
    | finish =>
      simp only [system, step] at hstep
      split at hstep
      · next hi =>
        cases hstep
        exact h.set hsymm hi nofun
      · cases hstep

/-- A transaction asks for a lock of the rank of one that it has. -/
def Stays {β : Type*} (rank : ρ → β) (l : List ρ) (n : ℕ) : Prop :=
  ∃ r, l[n]? = some r ∧ ∃ p ∈ l.take n, rank p = rank r

section Gates

variable {β : Type*} [PartialOrder β] (rank : ρ → β)
  (hconflict : ∀ r r', conflict r r' → rank r = rank r')
  (hrising : ∀ t ∈ ts, (locks t).Pairwise fun r r' => rank r ≤ rank r')

include hconflict hrising

/-- Who waits asks for a lock of no higher rank than those that it waits for do. -/
theorem rank_le_of_waits (hs : (system locks conflict ts).Reachable tasks)
    (hwaits : Conflicts.Waits conflict (held locks) (asks locks) tasks i j) {t u : T} {n m : ℕ}
    {r q : ρ} (hi : tasks[i]? = some (t, some n)) (hr : (locks t)[n]? = some r)
    (hj : tasks[j]? = some (u, some m)) (hq : (locks u)[m]? = some q) :
    ∃ p ∈ (locks u).take m, rank p = rank r ∧ rank p ≤ rank q := by
  obtain ⟨-, task, task', hti, htj, r', hr', p, hp, hc⟩ := hwaits
  obtain rfl := some.inj (hti.symm.trans hi)
  obtain rfl := some.inj (htj.symm.trans hj)
  obtain rfl : r' = r := some.inj (mem_def.mp hr' |>.symm.trans hr)
  have hu : u ∈ ts := map_fst_of_reachable hs ▸ List.mem_map_of_mem (mem_of_getElem? hj)
  refine ⟨p, hp, (hconflict r' p hc).symm, ?_⟩
  obtain ⟨k, hk, rfl⟩ := mem_take_iff_getElem.mp hp
  obtain ⟨hm, rfl⟩ := List.getElem?_eq_some_iff.mp hq
  exact pairwise_iff_getElem.mp (hrising u hu) k m _ hm (lt_of_lt_of_le hk (min_le_left m _))

omit [∀ r r', Decidable (conflict r r')] hconflict hrising in
/-- Who waits asks for a lock. -/
theorem asks_of_waits (hwaits : Conflicts.Waits conflict (held locks) (asks locks) tasks i j) :
    ∃ t n r, tasks[i]? = some (t, some n) ∧ (locks t)[n]? = some r := by
  obtain ⟨-, ⟨t, m⟩, -, hi, -, r, hr, -⟩ := hwaits
  cases m with
  | none => cases hr
  | some n => exact ⟨t, n, r, hi, hr⟩

/-- Along waiting transactions the ranks of what is asked for do not fall. -/
theorem rank_le_of_transGen (hs : (system locks conflict ts).Reachable tasks)
    (hpath : Relation.TransGen (Conflicts.Waits conflict (held locks) (asks locks) tasks) i j)
    {t u : T} {n m : ℕ} {r q : ρ} (hi : tasks[i]? = some (t, some n))
    (hr : (locks t)[n]? = some r) (hj : tasks[j]? = some (u, some m))
    (hq : (locks u)[m]? = some q) : rank r ≤ rank q := by
  induction hpath using Relation.TransGen.head_induction_on generalizing t n r with
  | single hwaits =>
    obtain ⟨p, -, hpr, hle⟩ := rank_le_of_waits rank hconflict hrising hs hwaits hi hr hj hq
    exact hpr ▸ hle
  | head hwaits hrest ih =>
    obtain ⟨k, hk, -⟩ := Relation.TransGen.head'_iff.mp hrest
    obtain ⟨v, l, p, hv, hp⟩ := asks_of_waits hk
    obtain ⟨p', -, hpr, hle⟩ := rank_le_of_waits rank hconflict hrising hs hwaits hi hr hv hp
    exact (hpr ▸ hle).trans (ih hv hp)

/-- **No cycle behind gates.** Ranks may stay where two transactions that both ask for a lock of a
rank that they have already have a gate in common by then, which only one of them can have. -/
theorem not_deadlocked_of_gates (hsymm : ∀ r r', conflict r r' → conflict r' r)
    (hgate : ∀ (i j : ℕ) (t u : T) (n m : ℕ), i ≠ j → ts[i]? = some t → ts[j]? = some u →
      Stays rank (locks t) n → Stays rank (locks u) m →
        ∃ g ∈ (locks t).take n, ∃ g' ∈ (locks u).take m, conflict g g')
    (hs : (system locks conflict ts).Reachable tasks) : ¬ Deadlocked locks conflict tasks := by
  rintro ⟨i, hcycle⟩
  obtain ⟨j, hij, hback⟩ := Relation.TransGen.head'_iff.mp hcycle
  obtain ⟨k, hjk, hki⟩ := Relation.TransGen.tail'_iff.mp hcycle
  have hne : i ≠ j := hij.1
  -- what `i`, the one after it and the one before it ask for is of one rank
  have hji : Relation.TransGen (Conflicts.Waits conflict (held locks) (asks locks) tasks) j i :=
    (Relation.reflTransGen_iff_eq_or_transGen.mp hback).resolve_left hne
  obtain ⟨t, n, r, hi, hr⟩ := asks_of_waits hij
  obtain ⟨l, hjl, -⟩ := Relation.TransGen.head'_iff.mp hji
  obtain ⟨u, m, q, hj, hq⟩ := asks_of_waits hjl
  obtain ⟨v, o, p, hk, hp⟩ := asks_of_waits hki
  obtain ⟨x, hx, hxr, hxq⟩ := rank_le_of_waits rank hconflict hrising hs hij hi hr hj hq
  have hqr := rank_le_of_transGen rank hconflict hrising hs hji hj hq hi hr
  obtain ⟨y, hy, hyp, hyr⟩ := rank_le_of_waits rank hconflict hrising hs hki hk hp hi hr
  have hrp : rank r ≤ rank p := by
    rcases Relation.reflTransGen_iff_eq_or_transGen.mp hjk with rfl | hik
    · exact le_of_eq (congrArg rank (some.inj (by
        obtain ⟨rfl, hn⟩ := Prod.mk.inj (some.inj (hi.symm.trans hk))
        rw [← hr, ← hp, some.inj hn])))
    · exact rank_le_of_transGen rank hconflict hrising hs hik hi hr hk hp
  have hstays : Stays rank (locks t) n :=
    ⟨r, hr, y, hy, le_antisymm hyr (hrp.trans_eq hyp.symm)⟩
  have hstays' : Stays rank (locks u) m :=
    ⟨q, hq, x, hx, le_antisymm hxq (hqr.trans_eq hxr.symm)⟩
  have hts : ∀ {a : ℕ} {w : T} {b : Option ℕ}, tasks[a]? = some (w, b) → ts[a]? = some w := by
    intro a w b ha
    rw [← map_fst_of_reachable hs, getElem?_map, ha]
    rfl
  obtain ⟨g, hg, g', hg', hc⟩ := hgate i j t u n m hne (hts hi) (hts hj) hstays hstays'
  exact compatible_of_reachable hsymm hs i j _ _ hne hi hj g hg g' hg' hc

end Gates

/-! ## Two that stand in each other's way -/

/-- The transactions before any of them has a lock. -/
def start (ts : List T) : List (Task T) := ts.map (·, some 0)

theorem held_start {k : ℕ} {task : Task T} (h : (start ts)[k]? = some task) :
    held locks task = [] := by
  obtain ⟨t, -, rfl⟩ := map_eq_some_iff.mp (getElem?_map ▸ h)
  exact (take_zero : (locks t).take 0 = [])

/-- **A lock is taken** that nobody holds. -/
theorem reachable_lock (hs : (system locks conflict ts).Reachable tasks)
    (hi : tasks[i]? = some (t, some n)) (hr : (locks t)[n]? = some r)
    (hfree : Conflicts.Free conflict (held locks) tasks i r) :
    (system locks conflict ts).Reachable (tasks.set i (t, some (n + 1))) := by
  refine hs.tail (a := .lock i) trivial ?_
  show step locks conflict tasks (.lock i) = _
  simp only [step, hi, hr, if_pos hfree]

variable (hi : ts[i]? = some t)
include hi

/-- While the others have nothing, a transaction gets what it likes. -/
theorem reachable_first : ∀ n ≤ (locks t).length,
      (system locks conflict ts).Reachable ((start ts).set i (t, some n)) := by
  have hstart : (start ts)[i]? = some (t, some 0) := by
    rw [start, getElem?_map, hi]
    rfl
  obtain ⟨hlt, -⟩ := List.getElem?_eq_some_iff.mp hstart
  intro n
  induction n with
  | zero =>
    intro _
    rw [show (start ts).set i (t, some 0) = start ts from ext_getElem? fun k => ?_]
    · exact TransitionSystem.ReachableBy.start rfl
    · by_cases hk : i = k
      · rw [← hk, getElem?_set_self hlt, hstart]
      · rw [getElem?_set_ne hk]
  | succ _ ih =>
    intro hn
    have hstep := reachable_lock (ih (by omega)) (getElem?_set_self hlt)
      (getElem?_eq_getElem (by omega)) fun k _ hne task htask r' hr' => ?_
    · rwa [set_set] at hstep
    · rw [getElem?_set_ne hne.symm] at htask
      rw [held_start htask] at hr'
      cases hr'

/-- **Two transactions come as far as they like** where what they take does not conflict. -/
theorem reachable_pair (hj : ts[j]? = some u) (hij : i ≠ j) {m : ℕ} (hm : m ≤ (locks t).length)
    (hapart : ∀ r ∈ (locks u).take n, ∀ r' ∈ (locks t).take m, ¬ conflict r r')
    (hn : n ≤ (locks u).length) :
    (system locks conflict ts).Reachable (((start ts).set i (t, some m)).set j (u, some n)) := by
  have hstart : ((start ts).set i (t, some m))[j]? = some (u, some 0) := by
    rw [getElem?_set_ne hij, start, getElem?_map, hj]
    rfl
  obtain ⟨hlt, -⟩ := List.getElem?_eq_some_iff.mp hstart
  have hall : ∀ k ≤ n, (system locks conflict ts).Reachable
      (((start ts).set i (t, some m)).set j (u, some k)) := by
    intro k
    induction k with
    | zero =>
      intro _
      rw [show ((start ts).set i (t, some m)).set j (u, some 0) = (start ts).set i (t, some m) from
        ext_getElem? fun k => ?_]
      · exact reachable_first hi m hm
      · by_cases hk : j = k
        · rw [← hk, getElem?_set_self hlt, hstart]
        · rw [getElem?_set_ne hk]
    | succ k ih =>
      intro hk
      have hget : (locks u)[k]? = some (locks u)[k] := getElem?_eq_getElem (by omega)
      have hstep := reachable_lock (ih (by omega)) (getElem?_set_self hlt) hget
        fun l _ hne task htask r' hr' => ?_
      · rwa [set_set] at hstep
      · rw [getElem?_set_ne hne.symm] at htask
        obtain ⟨rfl, rfl⟩ | ⟨-, hold⟩ := HeldRows.getElem?_set_cases htask
        · refine hapart _ (mem_take_iff_getElem.mpr ⟨k, ?_, rfl⟩) r' hr'
          omega
        · rw [held_start hold] at hr'
          cases hr'
  exact hall n le_rfl

/-- **Two transactions stand in each other's way** when each asks for what the other has. -/
theorem deadlocked_pair {q : ρ} {pre post pre' post' : List ρ}
    (hj : ts[j]? = some u) (hij : i ≠ j) (hsplit : locks t = pre ++ r :: post)
    (hsplit' : locks u = pre' ++ q :: post')
    (hapart : ∀ x ∈ pre', ∀ y ∈ pre, ¬ conflict x y) (hr : ∃ x ∈ pre', conflict r x)
    (hq : ∃ y ∈ pre, conflict q y) :
    ∃ tasks, (system locks conflict ts).Reachable tasks ∧ Deadlocked locks conflict tasks := by
  obtain ⟨r', hr', hrr'⟩ := hr
  obtain ⟨p, hp, hqp⟩ := hq
  have htake : (locks t).take pre.length = pre := by rw [hsplit, take_left]
  have htake' : (locks u).take pre'.length = pre' := by rw [hsplit', take_left]
  refine ⟨_, reachable_pair hi hj hij (m := pre.length) (n := pre'.length) ?_ ?_ ?_, i, ?_⟩
  · rw [hsplit, length_append]
    exact Nat.le_add_right _ _
  · rw [htake, htake']
    exact hapart
  · rw [hsplit', length_append]
    exact Nat.le_add_right _ _
  · have hilt := (List.getElem?_eq_some_iff.mp hi).1
    have hjlt := (List.getElem?_eq_some_iff.mp hj).1
    have hfirst : (((start ts).set i (t, some pre.length)).set j (u, some pre'.length))[i]? =
        some (t, some pre.length) := by
      rw [getElem?_set_ne hij.symm, getElem?_set_self (by rwa [start, length_map])]
    have hsecond : (((start ts).set i (t, some pre.length)).set j (u, some pre'.length))[j]? =
        some (u, some pre'.length) :=
      getElem?_set_self (by rwa [length_set, start, length_map])
    have hasks : asks locks (t, some pre.length) = some r := by
      show (locks t)[pre.length]? = some r
      rw [hsplit, getElem?_append_right le_rfl, Nat.sub_self]
      rfl
    have hasks' : asks locks (u, some pre'.length) = some q := by
      show (locks u)[pre'.length]? = some q
      rw [hsplit', getElem?_append_right le_rfl, Nat.sub_self]
      rfl
    have hhas : r' ∈ held locks (u, some pre'.length) := by
      show r' ∈ (locks u).take pre'.length
      rwa [htake']
    have hhas' : p ∈ held locks (t, some pre.length) := by
      show p ∈ (locks t).take pre.length
      rwa [htake]
    refine (Relation.TransGen.single ?_).tail ?_ (b := j)
    · exact ⟨hij, _, _, hfirst, hsecond, r, hasks, r', hhas, hrr'⟩
    · exact ⟨hij.symm, _, _, hsecond, hfirst, q, hasks', p, hhas', hqp⟩

omit hi

/-- **A cycle is reached** where one transaction asks for a lock when it has others, all of higher
ranks, and another one asks for all of these that it needs after that one. -/
theorem exists_deadlocked {β : Type*} [Preorder β] (rank : ρ → β)
    (hconflict : ∀ r r', conflict r r' → rank r = rank r') {pre post : List ρ}
    (hi : ts[i]? = some t) (hj : ts[j]? = some u) (hij : i ≠ j)
    (hsplit : locks t = pre ++ r :: post) (hlow : ∀ p ∈ pre, rank r < rank p)
    (hrising : (locks u).Pairwise fun q q' => rank q < rank q')
    (hwanted : ∃ q ∈ locks u, conflict r q) (hmeet : ∃ p ∈ pre, ∃ q ∈ locks u, conflict q p) :
    ∃ tasks, (system locks conflict ts).Reachable tasks ∧ Deadlocked locks conflict tasks := by
  -- the first lock of the other one that it does not get
  let blocked (q : ρ) : Bool := decide (∃ p ∈ pre, conflict q p)
  obtain ⟨q, hq⟩ : ∃ q, (locks u).find? blocked = some q := by
    obtain ⟨p, hp, q, hq, hc⟩ := hmeet
    exact isSome_iff_exists.mp (find?_isSome.mpr ⟨q, hq, decide_eq_true ⟨p, hp, hc⟩⟩)
  obtain ⟨hblocked, pre', post', hsplit', hbefore⟩ := find?_eq_some_iff_append.mp hq
  obtain ⟨p, hp, hqp⟩ : ∃ p ∈ pre, conflict q p := of_decide_eq_true hblocked
  have hrank : rank r < rank q := hconflict q p hqp ▸ hlow p hp
  obtain ⟨r', hr', hrr'⟩ := hwanted
  -- it has the one that the first transaction asks for by then
  have hheld : r' ∈ pre' := by
    rw [hsplit'] at hr' hrising
    obtain hmem | hmem := mem_append.mp hr'
    · exact hmem
    · have hle : rank q ≤ rank r' := by
        obtain rfl | hmem := mem_cons.mp hmem
        · exact le_rfl
        · exact (rel_of_pairwise_cons (pairwise_append.mp hrising).2.1 hmem).le
      exact absurd (hconflict r r' hrr' ▸ hrank) (not_lt_of_ge hle)
  refine deadlocked_pair hi hj hij hsplit hsplit' (fun x hx y hy hc => ?_) ⟨r', hheld, hrr'⟩
    ⟨p, hp, hqp⟩
  have hfree := hbefore x hx
  simp only [blocked, Bool.not_eq_true', decide_eq_false_iff_not] at hfree
  exact hfree ⟨y, hy, hc⟩

end LockRuns
