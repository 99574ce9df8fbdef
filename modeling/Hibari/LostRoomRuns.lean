import Hibari.LostRooms

/-!
# A room that is lost stays lost

A room that was taken away is in no list, and nothing of it is shown; and no answer that was read while it
could be read is on its way (`Kept`). Answers that are read later do not have it. A room that was put into
the list when the user joined is in what `loadRooms` will bring (`rooms_stay`).
-/

namespace Hibari

open List Option Function

namespace ShelfState

variable {isPublic : Ulid → Bool} {workspaceOf rootRoom : Ulid → Ulid} {s s' : ShelfState} {r w : Ulid}
  {j k : ℕ} {key : Loader} {rooms : Finset Ulid} {a : ShelfAction} {change : RoomChange}
  {x : Ulid} {status : LoadStatus}

/-- The user does not get a room again after an event. -/
def NoGain (s : ShelfState) (r : Ulid) (j : ℕ) : Prop := ∀ i, j < i → s.log[i]? ≠ some (.gained r)

/-- **Nothing of a room is shown.** -/
structure Hidden (s : ShelfState) (r : Ulid) : Prop where
  lists : ∀ w ids, s.roomLists w = some ids → r ∉ ids
  timeline : ∀ e, s.timelines r = some e → e.Empty
  members : ∀ e, s.roomMembers r = some e → e.Empty
  pins : ∀ e, s.pins r = some e → e.Empty
  threads : ∀ rootId e, s.threads rootId = some (r, e) → e.Empty

theorem empty_loading : Entry.loading.Empty := by decide

theorem update_cases {α : Type} {f : Ulid → Option α} {y : Ulid} {v : Option α} {b : α}
    (h : update f x v y = some b) : y = x ∧ v = some b ∨ y ≠ x ∧ f y = some b := by
  by_cases hy : y = x
  · rw [hy, update_self] at h
    exact .inl ⟨hy, h⟩
  · rw [update_of_ne hy] at h
    exact .inr ⟨hy, h⟩

/-! ## What the user may read -/

theorem roomsAt_succ (hchange : s.log[j]? = some change) :
    s.roomsAt isPublic (j + 1) = readable isPublic (s.roomsAt isPublic j) change := by
  show (s.log.take (j + 1)).foldl _ s.base = _
  rw [take_add_one, hchange, foldl_append]
  rfl

/-- A room that was lost, and not gained again, cannot be read. -/
theorem notMem_roomsAt (hlost : s.log[j]? = some (.deleted r) ∨
      s.log[j]? = some (.lost r) ∧ isPublic r = false)
    (hno : s.NoGain r j) (hjk : j < k) (hk : k ≤ s.log.length) : r ∉ s.roomsAt isPublic k := by
  induction k, Nat.succ_le_of_lt hjk using Nat.le_induction with
  | base =>
    rcases hlost with hdeleted | ⟨hlost, hprivate⟩
    · rw [roomsAt_succ hdeleted]
      exact Finset.notMem_erase r _
    · rw [roomsAt_succ hlost]
      show r ∉ if isPublic r then _ else _
      rw [hprivate, if_neg Bool.false_ne_true]
      exact Finset.notMem_erase r _
  | succ k hle ih =>
    have hbefore := ih (Nat.lt_of_succ_le hle) (Nat.le_of_succ_le hk)
    obtain ⟨change, hchange⟩ : ∃ change, s.log[k]? = some change := ⟨_, getElem?_eq_getElem hk⟩
    rw [roomsAt_succ hchange]
    cases change with
    | gained x =>
      show r ∉ insert x _
      refine fun hmem => (Finset.mem_insert.mp hmem).elim (fun heq => ?_) hbefore
      exact hno k (Nat.lt_of_succ_le hle) (heq ▸ hchange)
    | lost x =>
      show r ∉ if isPublic x then _ else _
      split
      · exact hbefore
      · exact fun hmem => hbefore (Finset.mem_of_mem_erase hmem)
    | deleted => exact fun hmem => hbefore (Finset.mem_of_mem_erase hmem)

/-! ## What stays hidden -/

section

variable (h : s.Hidden r)
include h

theorem Hidden.loading (key : Loader) : (s.loading key).Hidden r := by
  cases key with
  | loadRooms w =>
    refine ⟨fun w' ids hids => ?_, h.timeline, h.members, h.pins, h.threads⟩
    rcases update_cases hids with ⟨-, heq⟩ | ⟨-, hold⟩
    · rw [← some.inj heq]
      cases hlist : s.roomLists w with
      | none => exact Finset.notMem_empty r
      | some ids => exact h.lists w ids hlist
    · exact h.lists w' ids hold
  | openRoom _ cached =>
    cases cached with
    | true => exact h
    | false =>
      refine ⟨h.lists, fun e he => ?_, h.members, h.pins, h.threads⟩
      rcases update_cases he with ⟨-, heq⟩ | ⟨-, hold⟩
      · exact some.inj heq ▸ empty_loading
      · exact h.timeline e hold
  | members =>
    refine ⟨h.lists, h.timeline, fun e he => ?_, h.pins, h.threads⟩
    rcases update_cases he with ⟨hx, heq⟩ | ⟨-, hold⟩
    · rw [← some.inj heq, ← hx]
      cases hmembers : s.roomMembers r with
      | none => exact empty_loading
      | some e => exact h.members e hmembers
    · exact h.members e hold
  | pins =>
    refine ⟨h.lists, h.timeline, h.members, fun e he => ?_, h.threads⟩
    rcases update_cases he with ⟨hx, heq⟩ | ⟨-, hold⟩
    · rw [← some.inj heq, ← hx]
      cases hpins : s.pins r with
      | none => exact empty_loading
      | some e => exact h.pins e hpins
    · exact h.pins e hold
  | thread =>
    show (if _ then s else _ : ShelfState).Hidden r
    split
    · exact h
    · refine ⟨h.lists, h.timeline, h.members, h.pins, fun root' e he => ?_⟩
      rcases update_cases he with ⟨-, heq⟩ | ⟨-, hold⟩
      · rw [← (Prod.mk.inj (some.inj heq)).2]
        exact empty_loading
      · exact h.threads root' e hold
  | _ => exact h

theorem Hidden.list (hx : x ≠ r) : (s.list workspaceOf x).Hidden r := by
  refine ⟨fun w ids hids => ?_, h.timeline, h.members, h.pins, h.threads⟩
  rcases update_cases hids with ⟨-, heq⟩ | ⟨-, hold⟩
  · obtain ⟨before, hbefore, rfl⟩ := map_eq_some_iff.mp heq
    exact fun hmem => (Finset.mem_insert.mp hmem).elim hx.symm (h.lists _ before hbefore)
  · exact h.lists w ids hold

/-- **An answer that does not show a room** leaves it hidden. -/
theorem Hidden.apply (hshows : shows workspaceOf r key = true → r ∉ rooms)
    (hroom : (roomOf key).all fun x => x ∈ rooms) (hfits : fits rootRoom key = true)
    (hthreads : ∀ root x e, s.threads root = some (x, e) → rootRoom root = x) :
    (s.apply workspaceOf rooms k key).Hidden r := by
  have hne : ∀ x, roomOf key = some x → (x = r → shows workspaceOf r key = true) → x ≠ r := by
    intro x hx hkey heq
    rw [hx] at hroom
    exact hshows (hkey heq) (heq ▸ of_decide_eq_true hroom)
  cases key with
  | loadRooms =>
    refine ⟨fun w' ids hids => ?_, h.timeline, h.members, h.pins, h.threads⟩
    rcases update_cases hids with ⟨-, heq⟩ | ⟨-, hold⟩
    · rw [← some.inj heq]
      intro hmem
      obtain ⟨hrooms, hw⟩ := Finset.mem_filter.mp hmem
      exact hshows (decide_eq_true hw) hrooms
    · exact h.lists w' ids hold
  | openRoom x cached =>
    cases cached with
    | true => exact ⟨h.lists, h.timeline, h.members, h.pins, h.threads⟩
    | false =>
      have hx := hne x rfl fun heq => decide_eq_true ⟨heq, rfl⟩
      refine ⟨h.lists, fun e he => ?_, h.members, h.pins, h.threads⟩
      replace he : update s.timelines x (some .ready) r = some e := he
      rw [update_of_ne hx.symm] at he
      exact h.timeline e he
  | joinedRoom x =>
    have hlist : (s.list workspaceOf x).Hidden r := h.list (hne x rfl fun heq => decide_eq_true heq)
    exact ⟨hlist.lists, hlist.timeline, hlist.members, hlist.pins, hlist.threads⟩
  | refreshRoom => exact ⟨h.lists, h.timeline, h.members, h.pins, h.threads⟩
  | addRoom x =>
    have hlist : (s.list workspaceOf x).Hidden r := h.list (hne x rfl fun heq => decide_eq_true heq)
    exact ⟨hlist.lists, hlist.timeline, hlist.members, hlist.pins, hlist.threads⟩
  | members x =>
    have hx := hne x rfl fun heq => decide_eq_true heq
    refine ⟨h.lists, h.timeline, fun e he => ?_, h.pins, h.threads⟩
    replace he : update s.roomMembers x (some .ready) r = some e := he
    rw [update_of_ne hx.symm] at he
    exact h.members e he
  | pins x =>
    have hx := hne x rfl fun heq => decide_eq_true heq
    refine ⟨h.lists, h.timeline, h.members, fun e he => ?_, h.threads⟩
    replace he : update s.pins x (some .ready) r = some e := he
    rw [update_of_ne hx.symm] at he
    exact h.pins e he
  | thread x =>
    have hx := hne x rfl fun heq => decide_eq_true heq
    refine ⟨h.lists, h.timeline, h.members, h.pins, fun root' e he => ?_⟩
    rcases update_cases he with ⟨-, heq⟩ | ⟨-, hold⟩
    · exact absurd (Prod.mk.inj (some.inj heq)).1 hx
    · exact h.threads root' e hold
  | jump x =>
    have hx := hne x rfl fun heq => decide_eq_true heq
    refine ⟨h.lists, fun e he => ?_, h.members, h.pins, h.threads⟩
    replace he : update s.timelines x _ r = some e := he
    rw [update_of_ne hx.symm] at he
    exact h.timeline e he
  | page x =>
    have hx := hne x rfl fun heq => decide_eq_true heq
    refine ⟨h.lists, fun e he => ?_, h.members, h.pins, h.threads⟩
    replace he : update s.timelines x _ r = some e := he
    rw [update_of_ne hx.symm] at he
    exact h.timeline e he
  | threadPage x root =>
    have hx := hne x rfl fun heq => decide_eq_true heq
    refine ⟨h.lists, h.timeline, h.members, h.pins, fun root' e he => ?_⟩
    rcases update_cases he with ⟨-, heq⟩ | ⟨-, hold⟩
    · obtain ⟨t, ht, htr⟩ := map_eq_some_iff.mp heq
      have hroot : rootRoom root = r := (hthreads root t.1 t.2 ht).trans (Prod.mk.inj htr).1
      exact absurd ((of_decide_eq_true hfits).symm.trans hroot) hx
    · exact h.threads root' e hold

theorem Hidden.fail (hstatus : status ≠ .ready) (key : Loader) : (s.fail status key).Hidden r := by
  cases key with
  | loadRooms w =>
    have hloading := h.loading (.loadRooms w)
    exact ⟨hloading.lists, h.timeline, h.members, h.pins, h.threads⟩
  | openRoom =>
    refine ⟨h.lists, fun e he => ?_, h.members, h.pins, h.threads⟩
    rcases update_cases he with ⟨hx, heq⟩ | ⟨-, hold⟩
    · obtain ⟨before, hbefore, rfl⟩ := map_eq_some_iff.mp heq
      exact ⟨hstatus, (h.timeline before (hx ▸ hbefore)).2⟩
    · exact h.timeline e hold
  | members =>
    refine ⟨h.lists, h.timeline, fun e he => ?_, h.pins, h.threads⟩
    rcases update_cases he with ⟨hx, heq⟩ | ⟨-, hold⟩
    · rw [← some.inj heq, ← hx]
      refine ⟨hstatus, ?_⟩
      cases hmembers : s.roomMembers r with
      | none => rfl
      | some e => exact (h.members e hmembers).2
    · exact h.members e hold
  | pins =>
    refine ⟨h.lists, h.timeline, h.members, fun e he => ?_, h.threads⟩
    rcases update_cases he with ⟨hx, heq⟩ | ⟨-, hold⟩
    · rw [← some.inj heq, ← hx]
      refine ⟨hstatus, ?_⟩
      cases hpins : s.pins r with
      | none => rfl
      | some e => exact (h.pins e hpins).2
    · exact h.pins e hold
  | thread _ root =>
    refine ⟨h.lists, h.timeline, h.members, h.pins, fun root' e he => ?_⟩
    rcases update_cases he with ⟨-, heq⟩ | ⟨-, hold⟩
    · obtain ⟨t, ht, htr⟩ := map_eq_some_iff.mp heq
      obtain ⟨hroom, he'⟩ := Prod.mk.inj htr
      have hbefore : s.threads root = some (r, t.2) := by
        rw [ht, ← hroom]
      rw [← he']
      exact ⟨hstatus, (h.threads root t.2 hbefore).2⟩
    · exact h.threads root' e hold
  | _ => exact h

/-- What takes a room away shows no other. -/
theorem Hidden.drop (x : Ulid) : (s.drop workspaceOf x).Hidden r := by
  refine ⟨fun w ids hids => ?_, fun e he => ?_, fun e he => ?_, h.pins, fun root e he => ?_⟩
  · rcases update_cases hids with ⟨-, heq⟩ | ⟨-, hold⟩
    · obtain ⟨before, hbefore, rfl⟩ := map_eq_some_iff.mp heq
      exact fun hmem => h.lists _ before hbefore (Finset.mem_of_mem_erase hmem)
    · exact h.lists w ids hold
  · rcases update_cases he with ⟨-, heq⟩ | ⟨-, hold⟩
    · cases heq
    · exact h.timeline e hold
  · rcases update_cases he with ⟨-, heq⟩ | ⟨-, hold⟩
    · cases heq
    · exact h.members e hold
  · replace he : (if (s.threads root).any (fun t => t.1 = x) then none else s.threads root) =
      some (r, e) := he
    split at he
    · cases he
    · exact h.threads root e he

end

variable (hlists : ∀ w ids, s.roomLists w = some ids → ∀ x ∈ ids, workspaceOf x = w)
include hlists

/-- **A room that is taken away is hidden**, its pins apart. -/
theorem hidden_drop
    (hpins : ∀ e, s.pins r = some e → e.Empty) : (s.drop workspaceOf r).Hidden r := by
  refine ⟨fun w ids hids => ?_, fun e he => ?_, fun e he => ?_, hpins, fun root e he => ?_⟩
  · rcases update_cases hids with ⟨-, heq⟩ | ⟨hw, hold⟩
    · obtain ⟨before, -, rfl⟩ := map_eq_some_iff.mp heq
      exact Finset.notMem_erase r before
    · exact fun hmem => hw (hlists w ids hold r hmem).symm
  · replace he : update s.timelines r none r = some e := he
    rw [update_self] at he
    cases he
  · replace he : update s.roomMembers r none r = some e := he
    rw [update_self] at he
    cases he
  · replace he : (if (s.threads root).any (fun t => t.1 = r) then none else s.threads root) =
      some (r, e) := he
    split at he
    · cases he
    · next hnone =>
      refine absurd ?_ hnone
      rw [he, any_some]
      exact decide_eq_true rfl

/-- A deleted room is hidden with its pins. -/
theorem hidden_roomDeleted : (s.roomDeleted workspaceOf r).Hidden r := by
  let s₁ : ShelfState := { s with pins := update s.pins r none }
  have hpins : ∀ e, s₁.pins r = some e → e.Empty := by
    intro e he
    replace he : update s.pins r none r = some e := he
    rw [update_self] at he
    cases he
  have hdrop : (s₁.drop workspaceOf r).Hidden r := hidden_drop hlists hpins
  exact hdrop

omit hlists

theorem Hidden.roomDeleted (h : s.Hidden r) (x : Ulid) : (s.roomDeleted workspaceOf x).Hidden r := by
  have hdrop : (s.drop workspaceOf x).Hidden r := h.drop x
  refine ⟨hdrop.lists, hdrop.timeline, hdrop.members, fun e he => ?_, hdrop.threads⟩
  rcases update_cases he with ⟨-, heq⟩ | ⟨-, hold⟩
  · cases heq
  · exact h.pins e hold

/-! ## Where rooms and threads are -/

/-- **Each room is in the list of its workspace, and each thread in the room of its root.** -/
structure Placed (workspaceOf rootRoom : Ulid → Ulid) (s : ShelfState) : Prop where
  lists : ∀ w ids, s.roomLists w = some ids → ∀ x ∈ ids, workspaceOf x = w
  threads : ∀ root x e, s.threads root = some (x, e) → rootRoom root = x

section

variable (h : s.Placed workspaceOf rootRoom)
include h

theorem Placed.loading (hfits : fits rootRoom key = true) :
    (s.loading key).Placed workspaceOf rootRoom := by
  cases key with
  | loadRooms w =>
    refine ⟨fun w' ids hids x hx => ?_, h.threads⟩
    rcases update_cases hids with ⟨hw, heq⟩ | ⟨-, hold⟩
    · rw [← some.inj heq] at hx
      rw [hw]
      cases hlist : s.roomLists w with
      | none =>
        rw [hlist] at hx
        exact absurd hx (Finset.notMem_empty x)
      | some ids =>
        rw [hlist] at hx
        exact h.lists w ids hlist x hx
    · exact h.lists w' ids hold x hx
  | openRoom _ cached => cases cached <;> exact ⟨h.lists, h.threads⟩
  | thread =>
    show (if _ then s else _ : ShelfState).Placed workspaceOf rootRoom
    split
    · exact h
    · refine ⟨h.lists, fun root' y e he => ?_⟩
      rcases update_cases he with ⟨hroot, heq⟩ | ⟨-, hold⟩
      · rw [hroot, ← (Prod.mk.inj (some.inj heq)).1]
        exact of_decide_eq_true hfits
      · exact h.threads root' y e hold
  | members | pins => exact ⟨h.lists, h.threads⟩
  | _ => exact h

theorem Placed.list (x : Ulid) : (s.list workspaceOf x).Placed workspaceOf rootRoom := by
  refine ⟨fun w ids hids y hy => ?_, h.threads⟩
  rcases update_cases hids with ⟨hw, heq⟩ | ⟨-, hold⟩
  · obtain ⟨before, hbefore, rfl⟩ := map_eq_some_iff.mp heq
    rcases Finset.mem_insert.mp hy with hyx | hmem
    · rw [hyx, hw]
    · rw [hw]
      exact h.lists _ before hbefore y hmem
  · exact h.lists w ids hold y hy

theorem Placed.mapThread {root root' : Ulid} {e : Entry} {f : Entry → Entry}
    (he : update s.threads root ((s.threads root).map fun t => (t.1, f t.2)) root' =
      some (x, e)) : rootRoom root' = x := by
  rcases update_cases he with ⟨hroot, heq⟩ | ⟨-, hold⟩
  · obtain ⟨t, ht, htx⟩ := map_eq_some_iff.mp heq
    rw [hroot, h.threads root t.1 t.2 ht]
    exact (Prod.mk.inj htx).1
  · exact h.threads root' x e hold

theorem Placed.apply (hfits : fits rootRoom key = true) :
    (s.apply workspaceOf rooms k key).Placed workspaceOf rootRoom := by
  cases key with
  | loadRooms =>
    refine ⟨fun w' ids hids x hx => ?_, h.threads⟩
    rcases update_cases hids with ⟨hw, heq⟩ | ⟨-, hold⟩
    · rw [← some.inj heq] at hx
      rw [hw]
      exact (Finset.mem_filter.mp hx).2
    · exact h.lists w' ids hold x hx
  | joinedRoom x | addRoom x => exact ⟨(h.list x).lists, (h.list x).threads⟩
  | thread =>
    refine ⟨h.lists, fun root' y e he => ?_⟩
    rcases update_cases he with ⟨hroot, heq⟩ | ⟨-, hold⟩
    · rw [hroot, ← (Prod.mk.inj (some.inj heq)).1]
      exact of_decide_eq_true hfits
    · exact h.threads root' y e hold
  | threadPage =>
    exact ⟨h.lists, fun root' y e he => h.mapThread (f := fun e => { e with filled := true }) he⟩
  | _ => exact ⟨h.lists, h.threads⟩

theorem Placed.fail (key : Loader) : (s.fail status key).Placed workspaceOf rootRoom := by
  cases key with
  | loadRooms w =>
    have hloading : (s.loading (.loadRooms w)).Placed workspaceOf rootRoom := h.loading rfl
    exact ⟨hloading.lists, h.threads⟩
  | thread =>
    exact ⟨h.lists, fun root' y e he => h.mapThread (f := fun e => { e with status := status }) he⟩
  | openRoom | members | pins => exact ⟨h.lists, h.threads⟩
  | _ => exact h

theorem Placed.drop (x : Ulid) : (s.drop workspaceOf x).Placed workspaceOf rootRoom := by
  refine ⟨fun w ids hids y hy => ?_, fun root y e he => ?_⟩
  · rcases update_cases hids with ⟨hw, heq⟩ | ⟨-, hold⟩
    · obtain ⟨before, hbefore, rfl⟩ := map_eq_some_iff.mp heq
      rw [hw]
      exact h.lists _ before hbefore y (Finset.mem_of_mem_erase hy)
    · exact h.lists w ids hold y hy
  · replace he : (if (s.threads root).any (fun t => t.1 = x) then none else s.threads root) =
      some (y, e) := he
    split at he
    · cases he
    · exact h.threads root y e he

/-! ## What is kept -/

end

/-- An event has taken a room away. -/
def WasLost (isPublic : Ulid → Bool) (s : ShelfState) (r : Ulid) (j : ℕ) : Prop :=
  s.log[j]? = some (.deleted r) ∨ s.log[j]? = some (.lost r) ∧ isPublic r = false

theorem WasLost.lt (h : s.WasLost isPublic r j) : j < s.log.length := by
  rcases h with hdeleted | ⟨hlost, -⟩
  · exact (List.getElem?_eq_some_iff.mp hdeleted).1
  · exact (List.getElem?_eq_some_iff.mp hlost).1

/-- What the lists on their way were read with, or after it. -/
def Covered (isPublic : Ulid → Bool) (workspaceOf : Ulid → Ulid) (s : ShelfState) (r : Ulid) (k₀ : ℕ) :
    Prop :=
  ∀ q ∈ s.inflight, q.key = .loadRooms (workspaceOf r) → ∀ k ∈ q.read,
    k₀ ≤ k ∨ r ∈ s.roomsAt isPublic k

/-- **What is so at every moment**: what was taken away is hidden, and no answer that shows it is on its
way; what was put into a list is in the lists that are on their way. -/
structure Kept (isPublic : Ulid → Bool) (workspaceOf rootRoom : Ulid → Ulid) (s : ShelfState) : Prop where
  readLe : ∀ q ∈ s.inflight, ∀ k ∈ q.read, k ≤ s.log.length
  fitting : ∀ q ∈ s.inflight, fits rootRoom q.key = true
  placed : s.Placed workspaceOf rootRoom
  lost : ∀ r j, (r, j) ∈ s.taken → s.WasLost isPublic r j
  hidden : ∀ r j, (r, j) ∈ s.taken → s.NoGain r j → s.Hidden r ∧ s.Clear isPublic workspaceOf r
  puts : ∀ r k₀, (r, k₀) ∈ s.puts → k₀ ≤ s.log.length ∧ s.Covered isPublic workspaceOf r k₀

theorem kept_of_init (h : (system isPublic workspaceOf rootRoom).init s) :
    s.Kept isPublic workspaceOf rootRoom := by
  obtain ⟨-, hinflight, -, hlists, -, -, -, hthreads, -, htaken, hputs⟩ := h
  refine ⟨?_, ?_, ⟨?_, ?_⟩, ?_, ?_, ?_⟩
  · exact hinflight ▸ nofun
  · exact hinflight ▸ nofun
  · exact hlists ▸ nofun
  · exact hthreads ▸ nofun
  · exact htaken ▸ nofun
  · exact htaken ▸ nofun
  · exact hputs ▸ nofun

theorem roomsAt_congr (hbase : s'.base = s.base) (hlog : s'.log = s.log) :
    s'.roomsAt isPublic k = s.roomsAt isPublic k := by
  unfold roomsAt
  rw [hbase, hlog]

/-- **A step of the store alone**: the server is the same, and what is in flight was in flight, or was not
answered yet. -/
theorem Kept.of_store (h : s.Kept isPublic workspaceOf rootRoom) (hbase : s'.base = s.base)
    (hlog : s'.log = s.log)
    (hflight : ∀ q ∈ s'.inflight, q ∈ s.inflight ∨ q.read = none ∧ fits rootRoom q.key = true)
    (hplaced : s'.Placed workspaceOf rootRoom)
    (htaken : ∀ r j, (r, j) ∈ s'.taken →
      (r, j) ∈ s.taken ∧ (s.Hidden r → s.Clear isPublic workspaceOf r → s'.Hidden r) ∨
      s.WasLost isPublic r j ∧ s'.Hidden r ∧ s.Clear isPublic workspaceOf r)
    (hputs : ∀ r k₀, (r, k₀) ∈ s'.puts → (r, k₀) ∈ s.puts ∨
      k₀ ≤ s.log.length ∧ ∀ q ∈ s'.inflight, q.key = .loadRooms (workspaceOf r) → ∀ k ∈ q.read,
        k₀ ≤ k ∨ r ∈ s.roomsAt isPublic k) :
    s'.Kept isPublic workspaceOf rootRoom := by
  have hrooms : ∀ k, s'.roomsAt isPublic k = s.roomsAt isPublic k := fun k => roomsAt_congr hbase hlog
  have hread : ∀ q ∈ s'.inflight, ∀ k ∈ q.read, q ∈ s.inflight := by
    intro q hq k hk
    rcases hflight q hq with hmem | ⟨hnone, -⟩
    · exact hmem
    · rw [hnone] at hk
      cases hk
  have hclear : ∀ r, s.Clear isPublic workspaceOf r → s'.Clear isPublic workspaceOf r := by
    intro r hclear q hq hshows k hk
    rw [hrooms]
    exact hclear q (hread q hq k hk) hshows k hk
  refine ⟨fun q hq k hk => ?_, fun q hq => ?_, hplaced, fun r j hmem => ?_, fun r j hmem hno => ?_,
    fun r k₀ hmem => ?_⟩
  · rw [hlog]
    exact h.readLe q (hread q hq k hk) k hk
  · exact (hflight q hq).elim (h.fitting q) And.right
  · unfold WasLost
    rw [hlog]
    exact (htaken r j hmem).elim (fun hold => h.lost r j hold.1) And.left
  · rcases htaken r j hmem with ⟨hold, hstay⟩ | ⟨-, hhidden, hnow⟩
    · unfold NoGain at hno
      rw [hlog] at hno
      obtain ⟨hhidden, hnow⟩ := h.hidden r j hold hno
      exact ⟨hstay hhidden hnow, hclear r hnow⟩
    · exact ⟨hhidden, hclear r hnow⟩
  · rw [hlog]
    rcases hputs r k₀ hmem with hold | ⟨hle, hnow⟩
    · obtain ⟨hle, hcovered⟩ := h.puts r k₀ hold
      refine ⟨hle, fun q hq hkey k hk => ?_⟩
      rw [hrooms]
      exact hcovered q (hread q hq k hk) hkey k hk
    · refine ⟨hle, fun q hq hkey k hk => ?_⟩
      rw [hrooms]
      exact hnow q hq hkey k hk

/-! ## Each step -/

theorem roomsAt_happen (hk : k ≤ s.log.length) :
    ({ s with log := s.log ++ [change] } : ShelfState).roomsAt isPublic k = s.roomsAt isPublic k := by
  show ((s.log ++ [change]).take k).foldl _ s.base = (s.log.take k).foldl _ s.base
  rw [take_append_of_le_length hk]

section

variable (h : s.Kept isPublic workspaceOf rootRoom)
include h

theorem Kept.happen (change : RoomChange) :
    ({ s with log := s.log ++ [change] } : ShelfState).Kept isPublic workspaceOf rootRoom := by
  have hlength : (s.log ++ [change]).length = s.log.length + 1 := length_append
  refine ⟨fun q hq k hk => ?_, h.fitting, ⟨h.placed.lists, h.placed.threads⟩, fun r j hmem => ?_,
    fun r j hmem hno => ?_, fun r k₀ hmem => ?_⟩
  · exact (h.readLe q hq k hk).trans (hlength ▸ Nat.le_succ _)
  · have hwas := h.lost r j hmem
    show (s.log ++ [change])[j]? = _ ∨ (s.log ++ [change])[j]? = _ ∧ _
    rw [getElem?_append_left hwas.lt]
    exact hwas
  · have hnoGain : s.NoGain r j := by
      intro i hi hgain
      refine hno i hi ?_
      rw [getElem?_append_left (List.getElem?_eq_some_iff.mp hgain).1]
      exact hgain
    obtain ⟨hhidden, hclear⟩ := h.hidden r j hmem hnoGain
    refine ⟨⟨hhidden.lists, hhidden.timeline, hhidden.members, hhidden.pins, hhidden.threads⟩, ?_⟩
    intro q hq hshows k hk
    rw [roomsAt_happen (h.readLe q hq k hk)]
    exact hclear q hq hshows k hk
  · obtain ⟨hle, hcovered⟩ := h.puts r k₀ hmem
    refine ⟨hle.trans (hlength ▸ Nat.le_succ _), fun q hq hkey k hk => ?_⟩
    rw [roomsAt_happen (h.readLe q hq k hk)]
    exact hcovered q hq hkey k hk

/-- **What is read now has nothing that was lost**, and everything that was put into a list before. -/
theorem Kept.answer (i : ℕ) :
    ({ s with inflight := Request.answer i s.log.length s.inflight } : ShelfState).Kept isPublic
      workspaceOf rootRoom := by
  refine ⟨fun q hq k hk => ?_, fun q hq => ?_, ⟨h.placed.lists, h.placed.threads⟩, h.lost,
    fun r j hmem hno => ?_, fun r k₀ hmem => ?_⟩
  · obtain ⟨q', hq', -, -, hsame | ⟨-, hnow⟩⟩ := Request.mem_answer hq
    · exact h.readLe q' hq' k (hsame ▸ hk)
    · exact (some.inj (hnow.symm.trans hk)).ge
  · obtain ⟨q', hq', hkey, -, -⟩ := Request.mem_answer hq
    exact hkey ▸ h.fitting q' hq'
  · obtain ⟨hhidden, hclear⟩ := h.hidden r j hmem hno
    refine ⟨⟨hhidden.lists, hhidden.timeline, hhidden.members, hhidden.pins, hhidden.threads⟩, ?_⟩
    intro q hq hshows k hk
    obtain ⟨q', hq', hkey, -, hsame | ⟨-, hnow⟩⟩ := Request.mem_answer hq
    · exact hclear q' hq' (hkey ▸ hshows) k (hsame ▸ hk)
    · obtain rfl : s.log.length = k := some.inj (hnow.symm.trans hk)
      have hwas := h.lost r j hmem
      exact notMem_roomsAt hwas hno hwas.lt le_rfl
  · obtain ⟨hle, hcovered⟩ := h.puts r k₀ hmem
    refine ⟨hle, fun q hq hkey k hk => ?_⟩
    obtain ⟨q', hq', hkey', -, hsame | ⟨-, hnow⟩⟩ := Request.mem_answer hq
    · exact hcovered q' hq' (hkey'.trans hkey) k (hsame ▸ hk)
    · exact .inl (some.inj (hnow.symm.trans hk) ▸ hle)

end

/-- What a loader writes before it asks is its own. -/
theorem loading_rest (s : ShelfState) (key : Loader) : (s.loading key).base = s.base ∧
    (s.loading key).log = s.log ∧ (s.loading key).taken = s.taken ∧ (s.loading key).puts = s.puts := by
  cases key with
  | openRoom _ cached => cases cached <;> exact ⟨rfl, rfl, rfl, rfl⟩
  | thread =>
    show (if _ then s else _ : ShelfState).base = _ ∧ (if _ then s else _ : ShelfState).log = _ ∧
      (if _ then s else _ : ShelfState).taken = _ ∧ (if _ then s else _ : ShelfState).puts = _
    split <;> exact ⟨rfl, rfl, rfl, rfl⟩
  | _ => exact ⟨rfl, rfl, rfl, rfl⟩

theorem fits_asking (s : ShelfState) (key : Loader) :
    fits rootRoom (s.asking key) = fits rootRoom key := by
  cases key <;> rfl

section

variable (h : s.Kept isPublic workspaceOf rootRoom)
include h

theorem Kept.start (hfits : fits rootRoom key = true) :
    (s.start key).Kept isPublic workspaceOf rootRoom := by
  unfold ShelfState.start
  split
  · exact h
  · have hfits' : fits rootRoom (s.asking key) = true := (fits_asking s key).trans hfits
    obtain ⟨hbase, hlog, htaken, hputs⟩ := loading_rest s (s.asking key)
    have hplaced := h.placed.loading hfits'
    have hflight : ∀ q ∈ s.inflight ++ [⟨s.asking key, s.log.length, none⟩],
        q ∈ s.inflight ∨ q.read = none ∧ fits rootRoom q.key = true := by
      intro q hq
      refine (mem_append.mp hq).imp_right fun hnew => ?_
      rw [mem_singleton.mp hnew]
      exact ⟨rfl, hfits'⟩
    refine h.of_store hbase hlog hflight ⟨hplaced.lists, hplaced.threads⟩ (fun r j hmem => ?_)
      fun r k₀ hmem => ?_
    · refine .inl ⟨htaken ▸ hmem, fun hhidden _ => ?_⟩
      have hloading := hhidden.loading (s.asking key)
      exact ⟨hloading.lists, hloading.timeline, hloading.members, hloading.pins, hloading.threads⟩
    · exact .inl (hputs ▸ hmem)

/-- **What takes a room away** hides it, if no answer on its way shows it. -/
theorem Kept.take (hbase : s'.base = s.base)
    (hlog : s'.log = s.log) (hinflight : s'.inflight = s.inflight) (hputs : s'.puts = s.puts)
    (htaken : s'.taken = (r, j) :: s.taken) (hplaced : s'.Placed workspaceOf rootRoom)
    (hstay : ∀ x, s.Hidden x → s'.Hidden x) (hwas : s.WasLost isPublic r j) (hhidden : s'.Hidden r)
    (hclear : s.Clear isPublic workspaceOf r) : s'.Kept isPublic workspaceOf rootRoom := by
  refine h.of_store hbase hlog (fun q hq => .inl (hinflight ▸ hq)) hplaced (fun x i hmem => ?_)
    fun x k₀ hmem => .inl (hputs ▸ hmem)
  rw [htaken] at hmem
  rcases mem_cons.mp hmem with heq | hold
  · cases heq
    exact .inr ⟨hwas, hhidden, hclear⟩
  · exact .inl ⟨hold, fun hhidden _ => hstay x hhidden⟩

theorem Kept.drop (r : Ulid) : (s.drop workspaceOf r).Kept isPublic workspaceOf rootRoom :=
  h.of_store rfl rfl (fun _ hq => .inl hq) (h.placed.drop r)
    (fun _ _ hmem => .inl ⟨hmem, fun hhidden _ => hhidden.drop r⟩) fun _ _ hmem => .inl hmem

theorem Kept.deliver (hturn : s.InTurn isPublic workspaceOf (.deliver j))
    (hact : act isPublic workspaceOf rootRoom s (.deliver j) = some s') :
    s'.Kept isPublic workspaceOf rootRoom := by
  obtain ⟨change, hchange, rfl⟩ := map_eq_some_iff.mp hact
  have hcondition := hturn change hchange
  cases change with
  | gained => exact h.start rfl
  | lost r =>
    show (if isPublic r then _ else _ : ShelfState).Kept isPublic workspaceOf rootRoom
    split
    · show (if r ∈ s.known ∧ isPublic r = true then s else s.drop workspaceOf r).Kept isPublic
        workspaceOf rootRoom
      split
      · exact h
      · exact h.drop r
    · next hpublic =>
      have hprivate : isPublic r = false := Bool.not_eq_true _ ▸ hpublic
      have hremoved : s.removedFromRoom isPublic workspaceOf r = s.drop workspaceOf r :=
        if_neg fun hknown => hpublic hknown.2
      obtain ⟨hclear, hpins⟩ := hcondition hprivate
      have hhidden : (s.drop workspaceOf r).Hidden r := hidden_drop h.placed.lists hpins
      have hplaced : (s.drop workspaceOf r).Placed workspaceOf rootRoom := h.placed.drop r
      rw [hremoved]
      refine h.take rfl rfl rfl rfl rfl ⟨hplaced.lists, hplaced.threads⟩ (fun x hx => ?_)
        (.inr ⟨hchange, hprivate⟩) ?_ hclear
      · have hdrop : (s.drop workspaceOf r).Hidden x := hx.drop r
        exact ⟨hdrop.lists, hdrop.timeline, hdrop.members, hdrop.pins, hdrop.threads⟩
      · exact ⟨hhidden.lists, hhidden.timeline, hhidden.members, hhidden.pins, hhidden.threads⟩
  | deleted r =>
    have hplaced : (s.drop workspaceOf r).Placed workspaceOf rootRoom := h.placed.drop r
    have hhidden : (s.roomDeleted workspaceOf r).Hidden r := hidden_roomDeleted h.placed.lists
    refine h.take rfl rfl rfl rfl rfl ⟨hplaced.lists, hplaced.threads⟩ (fun x hx => ?_)
      (.inl hchange) ?_ hcondition
    · have hdrop : (s.roomDeleted workspaceOf r).Hidden x := hx.roomDeleted r
      exact ⟨hdrop.lists, hdrop.timeline, hdrop.members, hdrop.pins, hdrop.threads⟩
    · exact ⟨hhidden.lists, hhidden.timeline, hhidden.members, hhidden.pins, hhidden.threads⟩

end

theorem apply_rest (s : ShelfState) (workspaceOf : Ulid → Ulid) (rooms : Finset Ulid) (k : ℕ)
    (key : Loader) : (s.apply workspaceOf rooms k key).base = s.base ∧
    (s.apply workspaceOf rooms k key).log = s.log ∧
    (s.apply workspaceOf rooms k key).inflight = s.inflight ∧
    (s.apply workspaceOf rooms k key).taken = s.taken := by
  cases key <;> exact ⟨rfl, rfl, rfl, rfl⟩

/-- What an answer puts into a list. -/
theorem apply_puts {k₀ : ℕ} (h : (r, k₀) ∈ (s.apply workspaceOf rooms k key).puts) :
    (r, k₀) ∈ s.puts ∨ k₀ = k ∧ (key = .joinedRoom r ∨ key = .addRoom r) := by
  cases key with
  | joinedRoom =>
    refine (mem_cons.mp h).symm.imp_right fun heq => ?_
    cases heq
    exact ⟨rfl, .inl rfl⟩
  | addRoom =>
    refine (mem_cons.mp h).symm.imp_right fun heq => ?_
    cases heq
    exact ⟨rfl, .inr rfl⟩
  | _ => exact .inl h

theorem fail_rest (s : ShelfState) (status : LoadStatus) (key : Loader) :
    (s.fail status key).base = s.base ∧ (s.fail status key).log = s.log ∧
    (s.fail status key).inflight = s.inflight ∧ (s.fail status key).taken = s.taken ∧
    (s.fail status key).puts = s.puts := by
  cases key <;> exact ⟨rfl, rfl, rfl, rfl, rfl⟩

section

variable (h : s.Kept isPublic workspaceOf rootRoom)
include h

/-- A request that did not work. -/
theorem Kept.fail (hstatus : status ≠ .ready) (i : ℕ) (key : Loader) :
    (({ s with inflight := s.inflight.eraseIdx i } : ShelfState).fail status key).Kept isPublic
      workspaceOf rootRoom := by
  let rest : ShelfState := { s with inflight := s.inflight.eraseIdx i }
  obtain ⟨hbase, hlog, hinflight, htaken, hputs⟩ := fail_rest rest status key
  have hplaced : rest.Placed workspaceOf rootRoom := ⟨h.placed.lists, h.placed.threads⟩
  refine h.of_store hbase hlog (fun q hq => ?_) (hplaced.fail key) (fun r j hmem => ?_)
    fun r k₀ hmem => .inl (hputs ▸ hmem)
  · rw [hinflight] at hq
    exact .inl (mem_of_mem_eraseIdx hq)
  · refine .inl ⟨htaken ▸ hmem, fun hhidden _ => ?_⟩
    have hrest : rest.Hidden r :=
      ⟨hhidden.lists, hhidden.timeline, hhidden.members, hhidden.pins, hhidden.threads⟩
    exact hrest.fail hstatus key

/-- **An answer** shows nothing that was taken away. -/
theorem Kept.apply {i : ℕ} {q : Request Loader}
    (hq : s.inflight[i]? = some q) (hk : q.read = some k)
    (hroom : (roomOf q.key).all fun x => x ∈ s.roomsAt isPublic k)
    (hturn : s.InTurn isPublic workspaceOf (.settle i)) :
    (({ s with inflight := s.inflight.eraseIdx i } : ShelfState).apply workspaceOf
      (s.roomsAt isPublic k) k q.key).Kept isPublic workspaceOf rootRoom := by
  let rest : ShelfState := { s with inflight := s.inflight.eraseIdx i }
  have hmem : q ∈ s.inflight := mem_of_getElem? hq
  obtain ⟨hbase, hlog, hinflight, htaken⟩ :=
    apply_rest rest workspaceOf (s.roomsAt isPublic k) k q.key
  have hplaced : rest.Placed workspaceOf rootRoom := ⟨h.placed.lists, h.placed.threads⟩
  refine h.of_store hbase hlog (fun q' hq' => ?_) (hplaced.apply (h.fitting q hmem))
    (fun r j hr => ?_) fun r k₀ hr => ?_
  · rw [hinflight] at hq'
    exact .inl (mem_of_mem_eraseIdx hq')
  · refine .inl ⟨htaken ▸ hr, fun hhidden hclear => ?_⟩
    have hrest : rest.Hidden r :=
      ⟨hhidden.lists, hhidden.timeline, hhidden.members, hhidden.pins, hhidden.threads⟩
    exact hrest.apply (fun hshows => hclear q hmem hshows k hk) hroom (h.fitting q hmem)
      h.placed.threads
  · refine (apply_puts hr).imp_right fun ⟨heq, hkey⟩ => ?_
    rw [heq]
    refine ⟨h.readLe q hmem k hk, fun q' hq' hkey' k' hk' => ?_⟩
    rw [hinflight] at hq'
    have hcondition := hturn q hq
    rcases hkey with hjoined | hadded
    · rw [hjoined] at hcondition
      exact hcondition k hk q' hq' hkey' k' hk'
    · rw [hadded] at hcondition
      exact hcondition k hk q' hq' hkey' k' hk'

theorem Kept.act (hturn : s.InTurn isPublic workspaceOf a)
    (hact : ShelfState.act isPublic workspaceOf rootRoom s a = some s') :
    s'.Kept isPublic workspaceOf rootRoom := by
  cases a with
  | happen change =>
    cases hact
    exact h.happen change
  | deliver => exact h.deliver hturn hact
  | start key =>
    replace hact : (if fits rootRoom key then some (s.start key) else none) = some s' := hact
    split at hact
    · next hfits =>
      cases hact
      exact h.start hfits
    · cases hact
  | answer i =>
    cases hact
    exact h.answer i
  | settle i =>
    obtain ⟨q, hq, hrest⟩ := bind_eq_some_iff.mp hact
    obtain ⟨k, hk, heq⟩ := map_eq_some_iff.mp hrest
    by_cases hroom : (roomOf q.key).all fun x => x ∈ s.roomsAt isPublic k
    · rw [← heq]
      exact (if_pos hroom).symm ▸ h.apply hq hk hroom hturn
    · rw [← heq]
      exact (if_neg hroom).symm ▸ h.fail (by decide) i q.key
  | fail i =>
    obtain ⟨q, hq, rfl⟩ := map_eq_some_iff.mp hact
    exact h.fail (by decide) i q.key

end

/-- A room can be read from a moment on. -/
def ReadableFrom (isPublic : Ulid → Bool) (s : ShelfState) (r : Ulid) (k₀ : ℕ) : Prop :=
  ∀ k, k₀ ≤ k → k ≤ s.log.length → r ∈ s.roomsAt isPublic k

/-- **A room that is lost stays lost, and a room that is gained stays listed.** Nothing is shown of a room
that was taken away and not gained again; and a list that arrives has the rooms that were put into the list
before and can be read since. -/
theorem rooms_stay (hs : (system isPublic workspaceOf rootRoom).ReachableBy
      (fun s a => s.InTurn isPublic workspaceOf a) s) :
    (∀ r j, (r, j) ∈ s.taken → s.NoGain r j → s.Hidden r) ∧
    ∀ i q k w, s.inflight[i]? = some q → q.key = .loadRooms w → q.read = some k →
      ∃ s' ids, act isPublic workspaceOf rootRoom s (.settle i) = some s' ∧ s'.roomLists w = some ids ∧
        ∀ r k₀, (r, k₀) ∈ s.puts → workspaceOf r = w → s.ReadableFrom isPublic r k₀ → r ∈ ids := by
  have h : s.Kept isPublic workspaceOf rootRoom := hs.invariant
    (I := Kept isPublic workspaceOf rootRoom) (fun _ => kept_of_init)
    fun _ _ _ h hturn hact => h.act hturn hact
  refine ⟨fun r j hmem hno => (h.hidden r j hmem hno).1, fun i q k w hq hkey hk => ?_⟩
  have hmem : q ∈ s.inflight := mem_of_getElem? hq
  let rest : ShelfState := { s with inflight := s.inflight.eraseIdx i }
  let ids := (s.roomsAt isPublic k).filter fun r => workspaceOf r = w
  have hact : act isPublic workspaceOf rootRoom s (.settle i) =
      some (rest.apply workspaceOf (s.roomsAt isPublic k) k (.loadRooms w)) := by
    show (s.inflight[i]?.bind fun q => q.read.map fun k => _) = _
    rw [hq, bind_some, hk, map_some, hkey]
    rfl
  have hlist : (rest.apply workspaceOf (s.roomsAt isPublic k) k (.loadRooms w)).roomLists w =
      some ids := by
    show Function.update rest.roomLists w (some ids) w = some ids
    rw [update_self]
  refine ⟨_, ids, hact, hlist, fun r k₀ hput hw hreadable => ?_⟩
  refine Finset.mem_filter.mpr ⟨?_, hw⟩
  rcases (h.puts r k₀ hput).2 q hmem (hkey.trans (hw ▸ rfl)) k hk with hle | hhas
  · exact hreadable k hle (h.readLe q hmem k hk)
  · exact hhas

/-! ## A list that was read before -/

/-- A store that has nothing. -/
def empty : ShelfState where
  base := ∅
  log := []
  inflight := []
  known := ∅
  roomLists := fun _ => none
  timelines := fun _ => none
  roomMembers := fun _ => none
  pins := fun _ => none
  threads := fun _ => none
  removedRooms := fun _ => false
  taken := []
  puts := []

/-- Private rooms of one workspace. -/
abbrev privateRooms : TransitionSystem ShelfState ShelfAction :=
  system (fun _ => false) (fun _ => 1) (fun _ => 0)

theorem empty_init : privateRooms.init empty :=
  ⟨rfl, rfl, rfl, rfl, rfl, rfl, rfl, rfl, rfl, rfl, rfl⟩

/-- The user joins two rooms, opens the one and is listed in the other. -/
def joinedBoth : List ShelfAction := [.happen (.gained 5), .happen (.gained 6), .start (.loadRooms 1),
  .answer 0, .settle 0, .start (.openRoom 5 false), .answer 0, .settle 0, .deliver 1, .answer 0, .settle 0]

/-- She is taken out of the one while a list is asked for that is read after that. -/
theorem rooms_stay_taken : ∃ s, privateRooms.ReachableBy
      (fun s a => s.InTurn (fun _ => false) (fun _ => 1) a) s ∧ (5, 2) ∈ s.taken ∧ s.Hidden 5 ∧
    ∃ s' ids, act (fun _ => false) (fun _ => 1) (fun _ => 0) s (.settle 0) = some s' ∧
      s'.roomLists 1 = some ids ∧ 6 ∈ ids := by
  have hrun : (privateRooms.runBy (fun s a => s.InTurn (fun _ => false) (fun _ => 1) a) empty
      (joinedBoth ++ [.start (.loadRooms 1), .happen (.lost 5), .deliver 2, .answer 0])).any (fun s =>
        decide ((5, 2) ∈ s.taken ∧ (6, 2) ∈ s.puts ∧ s.log.length = 3 ∧
          s.inflight[0]? = some ⟨.loadRooms 1, 2, some 3⟩ ∧ 6 ∈ s.roomsAt (fun _ => false) 2 ∧
          6 ∈ s.roomsAt (fun _ => false) 3)) = true := by decide +kernel
  obtain ⟨s, hreach, htest⟩ := TransitionSystem.exists_of_runBy hrun empty_init
  obtain ⟨htaken, hput, hlength, hq, hsecond, hthird⟩ := of_decide_eq_true htest
  obtain ⟨hhidden, hlisted⟩ := rooms_stay hreach
  have hno : s.NoGain 5 2 := by
    intro i hi hgain
    have hlt := (List.getElem?_eq_some_iff.mp hgain).1
    omega
  have hreadable : s.ReadableFrom (fun _ => false) 6 2 := by
    intro k hle hk
    obtain rfl | rfl : k = 2 ∨ k = 3 := by omega
    · exact hsecond
    · exact hthird
  obtain ⟨s', ids, hact, hlist, hin⟩ := hlisted 0 _ 3 1 hq rfl rfl
  exact ⟨s, hreach, htaken, hhidden 5 2 htaken hno, s', ids, hact, hlist, hin 6 2 hput rfl hreadable⟩

/-- **A list that was read before** the user was taken out of a room shows it again. -/
theorem lost_room_listed : ∃ s, privateRooms.Reachable s ∧ (5, 1) ∈ s.taken ∧ s.NoGain 5 1 ∧
    ¬ s.Hidden 5 := by
  have hrun : (privateRooms.run empty [.happen (.gained 5), .start (.loadRooms 1), .answer 0,
      .happen (.lost 5), .deliver 1, .settle 0]).any (fun s => decide ((5, 1) ∈ s.taken ∧
        s.log.length = 2) && (s.roomLists 1).any fun ids => 5 ∈ ids) = true := by decide +kernel
  obtain ⟨s, hreach, htest⟩ := TransitionSystem.exists_of_run hrun empty_init
  obtain ⟨hnow, hlisted⟩ := Bool.and_eq_true_iff.mp htest
  obtain ⟨htaken, hlength⟩ := of_decide_eq_true hnow
  obtain ⟨ids, hids, hmem⟩ := (Option.any_eq_true _ _).mp hlisted
  refine ⟨s, hreach, htaken, fun i hi hgain => ?_, fun h => h.lists 1 ids hids (of_decide_eq_true hmem)⟩
  have hlt := (List.getElem?_eq_some_iff.mp hgain).1
  omega

end ShelfState

end Hibari
