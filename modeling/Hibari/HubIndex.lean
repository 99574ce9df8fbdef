import Hibari.Hub

/-!
# The indices of the hub and its references

A connection is in five places of the hub at once, and each of its channels is
counted by the broker. Whatever the calls are and however their steps
interleave, the places agree (`Hub.Indexed`): the indices hold exactly what the
records of the registered connections say, and no key without a connection. And
nothing is counted twice or forgotten: of every channel, what was acquired and
not given back is what the registered connections hold and what calls hold that
are not done (`Balanced`).

The balance needs that a connection unsubscribes before it is unregistered, as
the handler of a connection does, which calls one after the other.
`unregister` leaves the record with its subscriptions and gives the channels
back; an `unsubscribe` after it finds them in the record and gives them back
again (`released_twice`).
-/

namespace Hibari

open List Option Function Threads Bool

/-! ## Indices -/

namespace Index

variable {set : Finset ClientId}

/-- No key is in the index without a connection. -/
def NoEmpty (m : Index) : Prop := ∀ key, m key ≠ some ∅

theorem at_eq_of_some {m : Index} {key : Ulid} (h : m key = some set) :
    m.at_ key = set := by rw [at_, h, getD_some]

theorem at_eq_of_none {m : Index} {key : Ulid} (h : m key = none) : m.at_ key = ∅ := by
  rw [at_, h, getD_none]

variable {m : Index} {key k : Ulid} {c d : ClientId} {gone : Ulid → ClientId → Bool}

theorem mem_addTo : d ∈ (m.addTo key c).at_ k ↔ d ∈ m.at_ k ∨ k = key ∧ d = c := by
  by_cases hk : k = key
  · subst hk
    have hat : (m.addTo k c).at_ k = insert c (m.at_ k) := at_eq_of_some (update_self _ _ _)
    rw [hat, Finset.mem_insert]
    tauto
  · have hat : (m.addTo key c).at_ k = m.at_ k := by
      unfold at_ addTo
      rw [update_of_ne hk]
    rw [hat]
    tauto

theorem removeFrom_of_none (h : m key = none) : m.removeFrom key c = m := by
  simp only [removeFrom, h]

theorem removeFrom_of_some (h : m key = some set) : m.removeFrom key c
      = update m key (if set.erase c = ∅ then none else some (set.erase c)) := by
  simp only [removeFrom, h]

theorem mem_removeFrom : d ∈ (m.removeFrom key c).at_ k ↔ d ∈ m.at_ k ∧ ¬ (k = key ∧ d = c) := by
  cases hm : m key with
  | none =>
    rw [removeFrom_of_none hm]
    refine ⟨fun h => ⟨h, fun hk => ?_⟩, And.left⟩
    rw [hk.1, at_eq_of_none hm] at h
    exact absurd h (Finset.notMem_empty d)
  | some set =>
    rw [removeFrom_of_some hm]
    by_cases hk : k = key
    · subst hk
      have hat : Index.at_ (update m k
          (if set.erase c = ∅ then none else some (set.erase c))) k = set.erase c := by
        unfold at_
        rw [update_self]
        split
        · next hempty => rw [getD_none, hempty]
        · rw [getD_some]
      rw [hat, at_eq_of_some hm, Finset.mem_erase]
      tauto
    · have hat : Index.at_ (update m key
          (if set.erase c = ∅ then none else some (set.erase c))) k = m.at_ k := by
        unfold at_
        rw [update_of_ne hk]
      rw [hat]
      tauto

theorem removeAll_of_none (h : m k = none) : m.removeAll gone k = none := by
  simp only [removeAll, h]

theorem removeAll_of_some (h : m k = some set) :
    m.removeAll gone k = if set.filter (fun c => !gone k c) = ∅ then none
      else some (set.filter (fun c => !gone k c)) := by
  simp only [removeAll, h]

theorem mem_removeAll : d ∈ (m.removeAll gone).at_ k ↔ d ∈ m.at_ k ∧ gone k d = false := by
  cases hk : m k with
  | none => simp [at_eq_of_none hk, at_eq_of_none (removeAll_of_none hk)]
  | some set =>
    have hat : (m.removeAll gone).at_ k = set.filter (fun c => !gone k c) := by
      unfold at_
      rw [removeAll_of_some hk]
      split
      · next hempty => rw [getD_none, hempty]
      · rw [getD_some]
    rw [hat, at_eq_of_some hk, Finset.mem_filter, not_eq_true']

theorem NoEmpty.addTo (h : NoEmpty m) : NoEmpty (m.addTo key c) := by
  intro k hk
  by_cases hkey : k = key
  · subst hkey
    have hinsert : insert c (m.at_ k) = ∅ :=
      some.inj ((update_self k _ m).symm.trans hk)
    exact absurd hinsert (Finset.insert_ne_empty c _)
  · exact h k ((update_of_ne hkey _ m).symm.trans hk)

theorem NoEmpty.removeFrom (h : NoEmpty m) : NoEmpty (m.removeFrom key c) := by
  intro k hk
  cases hm : m key with
  | none => exact h k (by rwa [removeFrom_of_none hm] at hk)
  | some =>
    rw [removeFrom_of_some hm] at hk
    by_cases hkey : k = key
    · subst hkey
      rw [update_self] at hk
      split at hk
      · cases hk
      · next hne => exact hne (some.inj hk)
    · rw [update_of_ne hkey] at hk
      exact h k hk

theorem NoEmpty.removeAll : NoEmpty (m.removeAll gone) := by
  intro k hk
  cases hm : m k with
  | none => cases (removeAll_of_none hm).symm.trans hk
  | some =>
    rw [removeAll_of_some hm] at hk
    split at hk
    · cases hk
    · next hne => exact hne (some.inj hk)

end Index

open Index

/-! ## Connections -/

namespace Client

variable {c : Client} {t t' : Topic} {p : Topic → Bool} {workspaceId : Ulid}

theorem subscribed_room_iff {r : Ulid} : c.subscribed (.room r) = true ↔ ∃ w, (r, w) ∈ c.rooms := by
  simp [subscribed]

theorem subscribed_workspace_iff {w : Ulid} :
    c.subscribed (.workspace w) = true ↔ w ∈ c.workspaces := by
  simp [subscribed]

/-- A connection has the subscription that is added, and those it had. -/
theorem subscribed_add :
    (c.add t workspaceId).subscribed t' = true ↔ t' = t ∨ c.subscribed t' = true := by
  cases t with
  | room =>
    cases t' with
    | room =>
      simp only [subscribed_room_iff, add, Finset.mem_insert, Prod.mk.injEq, Topic.room.injEq]
      exact ⟨fun ⟨w, h⟩ => h.imp And.left fun h => ⟨w, h⟩,
        fun h => h.elim (fun h => ⟨workspaceId, .inl ⟨h, rfl⟩⟩) fun ⟨w, h⟩ => ⟨w, .inr h⟩⟩
    | workspace => exact ⟨.inr, fun h => h.resolve_left Topic.noConfusion⟩
  | workspace =>
    cases t' with
    | room => exact ⟨.inr, fun h => h.resolve_left Topic.noConfusion⟩
    | workspace =>
      simp only [subscribed_workspace_iff, add, Finset.mem_insert, Topic.workspace.injEq]

/-- A connection keeps the subscriptions that are not removed. -/
theorem subscribed_without :
    (c.without p).subscribed t = true ↔ c.subscribed t = true ∧ p t = false := by
  cases t with
  | room =>
    simp only [subscribed_room_iff, without, Finset.mem_filter, not_eq_true',
      exists_and_right]
  | workspace =>
    simp only [subscribed_workspace_iff, without, Finset.mem_filter, not_eq_true']

@[simp] theorem registered_add : (c.add t workspaceId).registered = c.registered := by
  cases t <;> rfl

@[simp] theorem identity_add : (c.add t workspaceId).identity = c.identity := by
  cases t <;> rfl

/-- The channels of some subscriptions and those of the rest are all. -/
theorem channels_add_channels_without (c : Client) (p : Topic → Bool) :
    c.channels p + (c.without p).channels (fun _ => true) = c.channels (fun _ => true) := by
  have hrooms := Multiset.filter_add_not (fun r : Ulid × Ulid => p (.room r.1) = true) c.rooms.val
  have hworkspaces := Multiset.filter_add_not (fun w : Ulid => p (.workspace w) = true)
    c.workspaces.val
  have hleft := congrArg (Multiset.map fun r : Ulid × Ulid => Channel.room r.1) hrooms
  have hright := congrArg (Multiset.map Channel.workspace) hworkspaces
  rw [Multiset.map_add] at hleft hright
  unfold channels without
  simp only [Finset.filter_val, not_eq_true', not_eq_true, Multiset.filter_true] at *
  rw [← hleft, ← hright]
  abel

end Client

open Client

/-! ## The places agree -/

namespace Hub

/-- **The indices say what the records say**: a connection is in `clients` and
in the indices of its user and session when it is registered, in the index of
a topic when it is registered and subscribed to it, and in no other place; and
no key is there without a connection. -/
structure Indexed (h : Hub) : Prop where
  clients : ∀ c, c ∈ h.clients ↔ (h.records c).registered = true
  byUser : ∀ userId c,
    c ∈ h.byUser.at_ userId ↔ (h.records c).registered = true ∧ h.userOf c = userId
  bySession : ∀ sessionId c, c ∈ h.bySession.at_ sessionId
    ↔ (h.records c).registered = true ∧ (h.records c).identity.sessionId = sessionId
  subscribers : ∀ t c, c ∈ h.subscribers t
    ↔ (h.records c).registered = true ∧ (h.records c).subscribed t = true
  noEmpty : h.byUser.NoEmpty ∧ h.bySession.NoEmpty ∧ h.roomSubs.NoEmpty ∧ h.workspaceSubs.NoEmpty

/-- The indices, and what they rest on: connections are numbered as they come,
and a room is kept with the workspace it is in. -/
structure Consistent (home : Ulid → Ulid) (h : Hub) : Prop extends Indexed h where
  fresh : ∀ c, h.next ≤ c → (h.records c).registered = false
  homes : ∀ c r w, (r, w) ∈ (h.records c).rooms → w = home r

variable {home : Ulid → Ulid} {h : Hub} {c : ClientId}

/-- What the indices do not depend on may change. -/
theorem Consistent.congr (hc : h.Consistent home) (h' : Hub) (hrecords : h'.records = h.records)
    (hnext : h'.next = h.next) (hclients : h'.clients = h.clients) (hbyUser : h'.byUser = h.byUser)
    (hbySession : h'.bySession = h.bySession) (hrooms : h'.roomSubs = h.roomSubs)
    (hworkspaces : h'.workspaceSubs = h.workspaceSubs) : h'.Consistent home := by
  have hsubscribers : ∀ t, h'.subscribers t = h.subscribers t := by
    intro t
    cases t with
    | room r => show h'.roomSubs.at_ r = h.roomSubs.at_ r; rw [hrooms]
    | workspace w => show h'.workspaceSubs.at_ w = h.workspaceSubs.at_ w; rw [hworkspaces]
  have huser : ∀ c, h'.userOf c = h.userOf c := fun c => by rw [userOf, userOf, hrecords]
  constructor
  · constructor
    · simpa only [hclients, hrecords] using hc.clients
    · simpa only [hbyUser, hrecords, huser] using hc.byUser
    · simpa only [hbySession, hrecords] using hc.bySession
    · simpa only [hsubscribers, hrecords] using hc.subscribers
    · simpa only [hbyUser, hbySession, hrooms, hworkspaces] using hc.noEmpty
  · simpa only [hnext, hrecords] using hc.fresh
  · simpa only [hrecords] using hc.homes

theorem consistent_empty : Hub.empty.Consistent home := by
  constructor
  · constructor
    · intro c
      exact iff_of_false (Finset.notMem_empty c) false_ne_true
    · intro u c
      exact iff_of_false (Finset.notMem_empty c) fun h => false_ne_true h.1
    · intro u c
      exact iff_of_false (Finset.notMem_empty c) fun h => false_ne_true h.1
    · intro t c
      cases t <;> exact iff_of_false (Finset.notMem_empty c) fun h => false_ne_true h.1
    · exact ⟨fun _ => nofun, fun _ => nofun, fun _ => nofun, fun _ => nofun⟩
  · exact fun _ _ => rfl
  · intro c r w hmem
    exact absurd hmem (Finset.notMem_empty _)

section

variable (hc : h.Consistent home)
include hc

theorem Consistent.closeDrained : h.closeDrained.Consistent home := by
  unfold Hub.closeDrained
  split
  · exact hc.congr _ rfl rfl rfl rfl rfl rfl rfl
  · exact hc

theorem Consistent.shutdown : h.shutdown.Consistent home :=
  (hc.congr { h with shuttingDown := true } rfl rfl rfl rfl rfl rfl rfl).closeDrained

theorem Consistent.finishUnregister : h.finishUnregister.Consistent home :=
  (hc.congr { h with unregistering := h.unregistering - 1 }
    rfl rfl rfl rfl rfl rfl rfl).closeDrained

theorem Consistent.bumpEpoch (userId : Ulid) :
    (h.bumpEpoch userId).Consistent home := hc.congr _ rfl rfl rfl rfl rfl rfl rfl

end

theorem records_register (h : Hub) (id : Identity) (d : ClientId) :
    (h.register id).records d = if d = h.next then ⟨id, ∅, ∅, true⟩ else h.records d := by
  by_cases hd : d = h.next
  · subst hd
    rw [if_pos rfl]
    exact update_self _ _ _
  · rw [if_neg hd]
    exact update_of_ne hd _ _

theorem Consistent.register (hc : h.Consistent home) (id : Identity) :
    (h.register id).Consistent home := by
  have hnew := hc.fresh h.next le_rfl
  have hother : ∀ d, d ≠ h.next → (h.register id).records d = h.records d := fun d hd => by
    rw [records_register, if_neg hd]
  have hself : (h.register id).records h.next = ⟨id, ∅, ∅, true⟩ := by
    rw [records_register, if_pos rfl]
  constructor
  · constructor
    · intro d
      show d ∈ insert h.next h.clients ↔ _
      rw [Finset.mem_insert, hc.clients]
      by_cases hd : d = h.next
      · subst hd
        rw [hself]
        simp
      · rw [hother d hd]
        simp [hd]
    · intro u d
      show d ∈ (h.byUser.addTo id.userId h.next).at_ u ↔ _
      rw [mem_addTo, hc.byUser, userOf, userOf]
      by_cases hd : d = h.next
      · subst hd
        rw [hself]
        simp [hnew, eq_comm]
      · rw [hother d hd]
        simp [hd]
    · intro u d
      show d ∈ (h.bySession.addTo id.sessionId h.next).at_ u ↔ _
      rw [mem_addTo, hc.bySession]
      by_cases hd : d = h.next
      · subst hd
        rw [hself]
        simp [hnew, eq_comm]
      · rw [hother d hd]
        simp [hd]
    · intro t d
      show d ∈ h.subscribers t ↔ _
      rw [hc.subscribers]
      by_cases hd : d = h.next
      · subst hd
        rw [hself]
        cases t <;> simp [hnew, Client.subscribed]
      · rw [hother d hd]
    · exact ⟨hc.noEmpty.1.addTo, hc.noEmpty.2.1.addTo, hc.noEmpty.2.2⟩
  · intro d hd
    have hd' : h.next + 1 ≤ d := hd
    rw [hother d (Nat.ne_of_gt hd')]
    exact hc.fresh d (Nat.le_of_succ_le hd')
  · intro d r w hmem
    by_cases hd : d = h.next
    · subst hd
      rw [hself] at hmem
      exact absurd hmem (Finset.notMem_empty _)
    · rw [hother d hd] at hmem
      exact hc.homes d r w hmem

theorem records_unregister (h : Hub) (c d : ClientId) : (h.unregister c).records d
      = if d = c then { h.records c with registered := false } else h.records d := by
  by_cases hd : d = c
  · subst hd
    rw [if_pos rfl]
    exact update_self _ _ _
  · rw [if_neg hd]
    exact update_of_ne hd _ _

theorem registered_unregister (h : Hub) (c d : ClientId) :
    ((h.unregister c).records d).registered = true ↔ (h.records d).registered = true ∧ d ≠ c := by
  rw [records_unregister]
  by_cases hd : d = c
  · simp [hd]
  · simp [hd]

theorem userOf_unregister (h : Hub) (c d : ClientId) : (h.unregister c).userOf d = h.userOf d := by
  rw [userOf, userOf, records_unregister]
  by_cases hd : d = c
  · rw [if_pos hd, hd]
  · rw [if_neg hd]

theorem Consistent.unregister (hc : h.Consistent home) (c : ClientId) :
    (h.unregister c).Consistent home := by
  have hidentity : ∀ d, ((h.unregister c).records d).identity = (h.records d).identity := by
    intro d
    rw [records_unregister]
    by_cases hd : d = c
    · rw [if_pos hd, hd]
    · rw [if_neg hd]
  have hrooms : ∀ d, ((h.unregister c).records d).rooms = (h.records d).rooms := by
    intro d
    rw [records_unregister]
    by_cases hd : d = c
    · rw [if_pos hd, hd]
    · rw [if_neg hd]
  have hsubscribed : ∀ d t,
      ((h.unregister c).records d).subscribed t = (h.records d).subscribed t := by
    intro d t
    rw [records_unregister]
    by_cases hd : d = c
    · rw [if_pos hd, hd]
      cases t <;> rfl
    · rw [if_neg hd]
  constructor
  · constructor
    · intro d
      show d ∈ h.clients.erase c ↔ _
      rw [Finset.mem_erase, hc.clients, registered_unregister]
      exact and_comm
    · intro u d
      show d ∈ (h.byUser.removeFrom (h.userOf c) c).at_ u ↔ _
      rw [mem_removeFrom, hc.byUser, registered_unregister, userOf_unregister]
      constructor
      · rintro ⟨⟨hreg, rfl⟩, hne⟩
        exact ⟨⟨hreg, fun hd => hne ⟨by rw [hd], hd⟩⟩, rfl⟩
      · rintro ⟨⟨hreg, hd⟩, huser⟩
        exact ⟨⟨hreg, huser⟩, fun hne => hd hne.2⟩
    · intro u d
      show d ∈ (h.bySession.removeFrom (h.records c).identity.sessionId c).at_ u ↔ _
      rw [mem_removeFrom, hc.bySession, registered_unregister, hidentity]
      constructor
      · rintro ⟨⟨hreg, rfl⟩, hne⟩
        exact ⟨⟨hreg, fun hd => hne ⟨by rw [hd], hd⟩⟩, rfl⟩
      · rintro ⟨⟨hreg, hd⟩, huser⟩
        exact ⟨⟨hreg, huser⟩, fun hne => hd hne.2⟩
    · intro t d
      have hmem : d ∈ (h.unregister c).subscribers t
          ↔ d ∈ h.subscribers t ∧ (decide (d = c) && (h.records c).subscribed t) = false := by
        cases t with
        | _ => exact mem_removeAll
      rw [hmem, hc.subscribers, registered_unregister, hsubscribed]
      by_cases hd : d = c
      · subst hd
        simp
      · simp [hd]
    · exact ⟨hc.noEmpty.1.removeFrom, hc.noEmpty.2.1.removeFrom, Index.NoEmpty.removeAll,
        Index.NoEmpty.removeAll⟩
  · intro d hd
    rw [eq_false_iff, Ne, registered_unregister]
    exact fun hreg => false_ne_true ((hc.fresh d hd).symm.trans hreg.1)
  · intro d r w hmem
    exact hc.homes d r w (hrooms d ▸ hmem)

/-- A subscription is entered for a connection, and every other connection is
as it was. -/
theorem records_enter (h : Hub) (c d : ClientId) (t : Topic) (w : Ulid) :
    (h.enter c t w).records d = if d = c then (h.records c).add t w else h.records d := by
  by_cases hd : d = c
  · subst hd
    rw [if_pos rfl]
    exact update_self _ _ _
  · rw [if_neg hd]
    exact update_of_ne hd _ _

theorem registered_enter (h : Hub) (c d : ClientId) (t : Topic) (w : Ulid) :
    ((h.enter c t w).records d).registered = (h.records d).registered := by
  rw [records_enter]
  by_cases hd : d = c
  · rw [if_pos hd, registered_add, hd]
  · rw [if_neg hd]

theorem identity_enter (h : Hub) (c d : ClientId) (t : Topic) (w : Ulid) :
    ((h.enter c t w).records d).identity = (h.records d).identity := by
  rw [records_enter]
  by_cases hd : d = c
  · rw [if_pos hd, identity_add, hd]
  · rw [if_neg hd]

theorem userOf_enter (h : Hub) (c d : ClientId) (t : Topic) (w : Ulid) :
    (h.enter c t w).userOf d = h.userOf d := by
  rw [userOf, userOf, identity_enter]

theorem subscribed_enter (h : Hub) (c d : ClientId) (t t' : Topic) (w : Ulid) :
    ((h.enter c t w).records d).subscribed t' = true
      ↔ (h.records d).subscribed t' = true ∨ d = c ∧ t' = t := by
  rw [records_enter]
  by_cases hd : d = c
  · rw [if_pos hd, subscribed_add, hd]
    tauto
  · rw [if_neg hd]
    tauto

theorem Consistent.enter (hc : h.Consistent home) (hreg : (h.records c).registered = true)
    {t : Topic} {w : Ulid} (hw : ∀ r, t = .room r → w = home r) :
    (h.enter c t w).Consistent home := by
  constructor
  · constructor
    · intro d
      rw [registered_enter]
      exact hc.clients d
    · intro u d
      rw [registered_enter, userOf_enter]
      exact hc.byUser u d
    · intro u d
      rw [registered_enter, identity_enter]
      exact hc.bySession u d
    · intro t' d
      have hmem : d ∈ (h.enter c t w).subscribers t' ↔ d ∈ h.subscribers t' ∨ t' = t ∧ d = c := by
        cases t with
        | room =>
          cases t' with
          | room => exact mem_addTo.trans (by rw [Topic.room.injEq]; rfl)
          | workspace => exact ⟨.inl, fun h => h.resolve_right fun h => Topic.noConfusion h.1⟩
        | workspace =>
          cases t' with
          | room => exact ⟨.inl, fun h => h.resolve_right fun h => Topic.noConfusion h.1⟩
          | workspace => exact mem_addTo.trans (by rw [Topic.workspace.injEq]; rfl)
      rw [hmem, hc.subscribers, registered_enter, subscribed_enter]
      constructor
      · rintro (⟨hd, hsub⟩ | ⟨ht, rfl⟩)
        · exact ⟨hd, .inl hsub⟩
        · exact ⟨hreg, .inr ⟨rfl, ht⟩⟩
      · rintro ⟨hd, hsub | ⟨rfl, ht⟩⟩
        · exact .inl ⟨hd, hsub⟩
        · exact .inr ⟨ht, rfl⟩
    · refine ⟨hc.noEmpty.1, hc.noEmpty.2.1, ?_, ?_⟩
      · cases t with
        | room => exact hc.noEmpty.2.2.1.addTo
        | workspace => exact hc.noEmpty.2.2.1
      · cases t with
        | room => exact hc.noEmpty.2.2.2
        | workspace => exact hc.noEmpty.2.2.2.addTo
  · intro d hd
    rw [registered_enter]
    exact hc.fresh d hd
  · intro d r w' hmem
    rw [records_enter] at hmem
    by_cases hd : d = c
    · rw [if_pos hd] at hmem
      cases t with
      | room =>
        rcases Finset.mem_insert.mp hmem with heq | hmem
        · cases heq
          exact hw r rfl
        · exact hc.homes c r w' hmem
      | workspace => exact hc.homes c r w' hmem
    · rw [if_neg hd] at hmem
      exact hc.homes d r w' hmem

section Drop

variable (h : Hub) (who : Finset ClientId) (p : ClientId → Topic → Bool)

theorem registered_drop (d : ClientId) :
    ((h.drop who p).records d).registered = (h.records d).registered := by
  show (if d ∈ who then (h.records d).without (p d) else h.records d).registered = _
  split <;> rfl

theorem identity_drop (d : ClientId) :
    ((h.drop who p).records d).identity = (h.records d).identity := by
  show (if d ∈ who then (h.records d).without (p d) else h.records d).identity = _
  split <;> rfl

theorem userOf_drop (d : ClientId) : (h.drop who p).userOf d = h.userOf d := by
  rw [userOf, userOf, identity_drop]

theorem subscribed_drop (d : ClientId) (t : Topic) : ((h.drop who p).records d).subscribed t = true
      ↔ (h.records d).subscribed t = true ∧ ¬ (d ∈ who ∧ p d t = true) := by
  show (if d ∈ who then (h.records d).without (p d) else h.records d).subscribed t = true ↔ _
  by_cases hd : d ∈ who
  · rw [if_pos hd, subscribed_without]
    simp [hd]
  · rw [if_neg hd]
    simp [hd]

end Drop

theorem Consistent.drop (hc : h.Consistent home) (who : Finset ClientId)
    (p : ClientId → Topic → Bool) : (h.drop who p).Consistent home := by
  constructor
  · constructor
    · intro d
      rw [registered_drop]
      exact hc.clients d
    · intro u d
      rw [registered_drop, userOf_drop]
      exact hc.byUser u d
    · intro u d
      rw [registered_drop, identity_drop]
      exact hc.bySession u d
    · intro t d
      have hmem : d ∈ (h.drop who p).subscribers t ↔ d ∈ h.subscribers t
          ∧ (decide (d ∈ who) && (p d t && (h.records d).subscribed t)) = false := by
        cases t with
        | _ => exact mem_removeAll
      rw [hmem, hc.subscribers, registered_drop, subscribed_drop]
      by_cases hd : d ∈ who
      · cases p d t <;> cases (h.records d).subscribed t <;> simp [hd]
      · simp [hd]
    · exact ⟨hc.noEmpty.1, hc.noEmpty.2.1, Index.NoEmpty.removeAll, Index.NoEmpty.removeAll⟩
  · intro d hd
    rw [registered_drop]
    exact hc.fresh d hd
  · intro d r w hmem
    refine hc.homes d r w ?_
    have hmem' : (r, w) ∈ (if d ∈ who then (h.records d).without (p d) else h.records d).rooms :=
      hmem
    split at hmem'
    · exact (Finset.mem_filter.mp hmem').1
    · exact hmem'

end Hub

/-! ## The references balance -/

namespace Client

/-- A subscription that is new brings its channel. -/
theorem channels_add (c : Client) {t : Topic} (w : Ulid) (ht : c.subscribed t = false) :
    (c.add t w).channels (fun _ => true) = t.channel ::ₘ c.channels (fun _ => true) := by
  cases t with
  | room r =>
    have hr : (r, w) ∉ c.rooms := fun hmem =>
      false_ne_true (ht.symm.trans (subscribed_room_iff.mpr ⟨w, hmem⟩))
    simp [channels, add, Topic.channel, Finset.filter_true, Finset.insert_val_of_notMem hr]
  | workspace id =>
    have hid : id ∉ c.workspaces := fun hmem =>
      false_ne_true (ht.symm.trans (subscribed_workspace_iff.mpr hmem))
    simp [channels, add, Topic.channel, Finset.filter_true, Finset.insert_val_of_notMem hid]

/-- One subscription has one channel. -/
theorem channels_one {c : Client} {home : Ulid → Ulid}
    (hhomes : ∀ r w, (r, w) ∈ c.rooms → w = home r) {t : Topic} (ht : c.subscribed t = true) :
    c.channels (fun t' => decide (t' = t)) = {t.channel} := by
  cases t with
  | room r =>
    obtain ⟨w, hw⟩ := subscribed_room_iff.mp ht
    have hrooms : c.rooms.filter (fun r' => decide (Topic.room r'.1 = .room r)) = {(r, w)} := by
      ext ⟨r', w'⟩
      simp only [Finset.mem_filter, decide_eq_true_eq, Topic.room.injEq, Finset.mem_singleton,
        Prod.mk.injEq]
      constructor
      · rintro ⟨hmem, rfl⟩
        exact ⟨rfl, (hhomes r' w' hmem).trans (hhomes r' w hw).symm⟩
      · rintro ⟨rfl, rfl⟩
        exact ⟨hw, rfl⟩
    unfold channels
    rw [hrooms]
    simp [Topic.channel]
  | workspace id =>
    have hworkspaces :
        c.workspaces.filter (fun w => decide (Topic.workspace w = .workspace id)) = {id} := by
      ext w
      simp only [Finset.mem_filter, decide_eq_true_eq, Topic.workspace.injEq, Finset.mem_singleton]
      constructor
      · exact And.right
      · rintro rfl
        exact ⟨subscribed_workspace_iff.mp ht, rfl⟩
    unfold channels
    rw [hworkspaces]
    simp [Topic.channel]

end Client

namespace Hub

variable {home : Ulid → Ulid} {h : Hub} {c : ClientId}

/-- How often a channel is held by the registered connections. -/
def held (h : Hub) (ch : Channel) : ℕ := ∑ c ∈ h.clients, (h.unregisterChannels c).count ch

/-- Whether a connection holds a channel: its user's own, and those of its
subscriptions. -/
def holds (h : Hub) (ch : Channel) (c : ClientId) : Bool :=
  match ch with
  | .user id => decide (h.userOf c = id)
  | .room id => (h.records c).subscribed (.room id)
  | .workspace id => (h.records c).subscribed (.workspace id)

/-- The registered connections that hold a channel. -/
def holders (h : Hub) (ch : Channel) : Finset ClientId :=
  h.clients.filter (fun c => h.holds ch c)

/-- A connection holds a channel at most once. -/
theorem count_unregisterChannels (hc : h.Consistent home) (ch : Channel) (c : ClientId) :
    (h.unregisterChannels c).count ch = if h.holds ch c then 1 else 0 := by
  have hall : ∀ t, (h.records c).channels (fun _ => true)
      = (h.records c).channels (fun t' => decide (t' = t))
        + ((h.records c).without (fun t' => decide (t' = t))).channels (fun _ => true) :=
    fun t => (channels_add_channels_without _ _).symm
  -- without a topic, no channel of it is left
  have hrest : ∀ t, t.channel ∉
      ((h.records c).without (fun t' => decide (t' = t))).channels (fun _ => true) := by
    intro t
    cases t <;> simp [Client.channels, Client.without, Topic.channel]
  have htopic : ∀ t, ((h.records c).channels (fun _ => true)).count t.channel
      = if (h.records c).subscribed t then 1 else 0 := by
    intro t
    rw [hall t, Multiset.count_add, Multiset.count_eq_zero_of_notMem (hrest t), add_zero]
    by_cases ht : (h.records c).subscribed t
    · rw [if_pos ht, channels_one (hc.homes c) ht, Multiset.count_singleton_self]
    · rw [if_neg ht, Multiset.count_eq_zero]
      intro hmem
      refine ht ?_
      cases t with
      | room r =>
        have hmem' : ∃ w, (r, w) ∈ (h.records c).rooms := by
          simpa [Client.channels, Topic.channel] using hmem
        exact subscribed_room_iff.mpr hmem'
      | workspace w =>
        have hmem' : w ∈ (h.records c).workspaces := by
          simpa [Client.channels, Topic.channel] using hmem
        exact subscribed_workspace_iff.mpr hmem'
  unfold unregisterChannels
  cases ch with
  | user id =>
    have hnone : Channel.user id ∉ (h.records c).channels (fun _ => true) := by
      simp [Client.channels]
    rw [Multiset.count_cons, Multiset.count_eq_zero_of_notMem hnone, zero_add]
    simp [holds, eq_comm]
  | room id =>
    rw [Multiset.count_cons_of_ne Channel.noConfusion]
    exact htopic (.room id)
  | workspace id =>
    rw [Multiset.count_cons_of_ne Channel.noConfusion]
    exact htopic (.workspace id)

/-- **A channel is held as often as there are connections that hold it.** -/
theorem held_eq_card_holders (hc : h.Consistent home) (ch : Channel) :
    h.held ch = (h.holders ch).card := by
  unfold held holders
  rw [Finset.card_filter]
  exact Finset.sum_congr rfl fun c _ => count_unregisterChannels hc ch c

theorem held_congr {h' : Hub} (hclients : h'.clients = h.clients)
    (hrecords : h'.records = h.records) (ch : Channel) : h'.held ch = h.held ch := by
  unfold held unregisterChannels userOf
  rw [hclients, hrecords]

theorem held_closeDrained (h : Hub) (ch : Channel) : h.closeDrained.held ch = h.held ch := by
  unfold closeDrained
  split
  · exact held_congr rfl rfl ch
  · rfl

section

variable (hc : h.Consistent home)
include hc

theorem held_register (id : Identity) (ch : Channel) :
    (h.register id).held ch = h.held ch + ({Channel.user id.userId} : Multiset Channel).count ch := by
  have hnew : h.next ∉ h.clients := fun hmem =>
    false_ne_true ((hc.fresh h.next le_rfl).symm.trans ((hc.clients _).mp hmem))
  have hself : (h.register id).unregisterChannels h.next = {Channel.user id.userId} := by
    unfold unregisterChannels userOf
    rw [records_register, if_pos rfl]
    rfl
  show ∑ c ∈ insert h.next h.clients, ((h.register id).unregisterChannels c).count ch = _
  rw [Finset.sum_insert hnew, hself, add_comm]
  congr 1
  refine Finset.sum_congr rfl fun d hd => ?_
  have hne : d ≠ h.next := fun hc => hnew (hc ▸ hd)
  unfold unregisterChannels userOf
  rw [records_register, if_neg hne]

variable (hreg : (h.records c).registered = true)
include hreg

theorem held_unregister (ch : Channel) :
    (h.unregister c).held ch + (h.unregisterChannels c).count ch = h.held ch := by
  show ∑ d ∈ h.clients.erase c, ((h.unregister c).unregisterChannels d).count ch + _ = _
  unfold held
  rw [← Finset.sum_erase_add _ _ ((hc.clients c).mpr hreg)]
  congr 1
  refine Finset.sum_congr rfl fun d hd => ?_
  unfold unregisterChannels
  rw [userOf_unregister, records_unregister, if_neg (Finset.ne_of_mem_erase hd)]

theorem held_enter {t : Topic} (w : Ulid) (ht : (h.records c).subscribed t = false) (ch : Channel) :
    (h.enter c t w).held ch = h.held ch + ({t.channel} : Multiset Channel).count ch := by
  have hmem := (hc.clients c).mpr hreg
  show ∑ d ∈ h.clients, ((h.enter c t w).unregisterChannels d).count ch = _
  unfold held
  rw [← Finset.sum_erase_add _ _ hmem, ← Finset.sum_erase_add h.clients _ hmem, add_assoc]
  congr 1
  · refine Finset.sum_congr rfl fun d hd => ?_
    unfold unregisterChannels
    rw [userOf_enter, records_enter, if_neg (Finset.ne_of_mem_erase hd)]
  · unfold unregisterChannels
    rw [userOf_enter, records_enter, if_pos rfl, channels_add _ w ht, Multiset.cons_swap,
      ← Multiset.singleton_add, Multiset.count_add, add_comm]

omit hreg

theorem held_drop (who : Finset ClientId)
    (hwho : ∀ c ∈ who, (h.records c).registered = true) (p : ClientId → Topic → Bool)
    (ch : Channel) :
    (h.drop who p).held ch + (h.dropped who p).count ch = h.held ch := by
  have hsub : who ⊆ h.clients := fun c hmem => (hc.clients c).mpr (hwho c hmem)
  have hdropped : (h.dropped who p).count ch
      = ∑ c ∈ h.clients, if c ∈ who then ((h.records c).channels (p c)).count ch else 0 := by
    unfold dropped
    rw [Multiset.count_sum', ← Finset.sum_filter, Finset.filter_mem_eq_inter,
      Finset.inter_eq_right.mpr hsub]
  rw [hdropped]
  show ∑ c ∈ h.clients, ((h.drop who p).unregisterChannels c).count ch + _ = _
  unfold held
  rw [← Finset.sum_add_distrib]
  refine Finset.sum_congr rfl fun c _ => ?_
  unfold unregisterChannels
  rw [userOf_drop]
  show Multiset.count ch (Channel.user (h.userOf c) ::ₘ
    (if c ∈ who then (h.records c).without (p c) else h.records c).channels (fun _ => true)) + _ = _
  by_cases hmem : c ∈ who
  · rw [if_pos hmem, if_pos hmem, ← Multiset.count_add, Multiset.cons_add, add_comm,
      channels_add_channels_without]
  · rw [if_neg hmem, if_neg hmem, add_zero]

include hreg

theorem held_unsubscribeLocked {t : Topic} (ht : (h.records c).subscribed t = true) (ch : Channel) :
    (h.unsubscribeLocked c t).held ch + ({t.channel} : Multiset Channel).count ch = h.held ch := by
  have hdrop := held_drop hc {c} (fun d hd => by rwa [Finset.mem_singleton.mp hd])
    (fun _ t' => decide (t' = t)) ch
  have hdropped : h.dropped {c} (fun _ t' => decide (t' = t)) = {t.channel} := by
    unfold dropped
    rw [Finset.sum_singleton, channels_one (hc.homes c) ht]
  rw [hdropped] at hdrop
  exact hdrop

end

end Hub

/-! ## Calls -/

namespace HubTask

/-- What a call has acquired and has neither entered in the hub nor given
back. -/
def held : HubTask → Multiset Channel
  | .registerEnter id => {.user id.userId}
  | .enter _ t _ _ => {t.channel}
  | .release channels next => channels + next.held
  | .revalidate _ _ next => next.held
  | .allowedRooms _ _ _ next => next.held
  | .allowedWorkspaces _ _ _ _ next => next.held
  | .removeDisallowed _ _ _ _ _ next => next.held
  | _ => 0

/-- A call that is about to enter a room has the room's workspace. -/
def Homed (home : Ulid → Ulid) : HubTask → Prop
  | .acquire _ t _ w => ∀ r, t = .room r → w = home r
  | .enter _ t _ w => ∀ r, t = .room r → w = home r
  | .release _ next => next.Homed home
  | .revalidate _ _ next => next.Homed home
  | .allowedRooms _ _ _ next => next.Homed home
  | .allowedWorkspaces _ _ _ _ next => next.Homed home
  | .removeDisallowed _ _ _ _ _ next => next.Homed home
  | _ => True

variable {home : Ulid → Ulid}

theorem held_releasing (channels : Multiset Channel) (next : HubTask) :
    (releasing channels next).held = channels + next.held := by
  unfold releasing
  split
  · next h => rw [h, zero_add]
  · rfl

theorem homed_releasing {channels : Multiset Channel} {next : HubTask} (h : next.Homed home) :
    (releasing channels next).Homed home := by
  unfold releasing
  split
  · exact h
  · exact h

theorem held_start (call : Call) : call.start.held = 0 := by
  cases call with
  | deliverLocal ev =>
    show (Call.deliverLocalTask ev).held = 0
    unfold Call.deliverLocalTask
    induction ev.accessChanges with
    | nil => rfl
    | cons _ _ ih => exact ih
  | revalidate userIds =>
    show (Call.revalidateTask userIds).held = 0
    unfold Call.revalidateTask
    induction userIds with
    | nil => rfl
    | cons _ _ ih => exact ih
  | _ => rfl

theorem homed_start (call : Call) : call.start.Homed home := by
  cases call with
  | deliverLocal ev =>
    show (Call.deliverLocalTask ev).Homed home
    unfold Call.deliverLocalTask
    induction ev.accessChanges with
    | nil => trivial
    | cons _ _ ih => exact ih
  | revalidate userIds =>
    show (Call.revalidateTask userIds).Homed home
    unfold Call.revalidateTask
    induction userIds with
    | nil => trivial
    | cons _ _ ih => exact ih
  | _ => trivial

end HubTask

open HubTask

/-- A call does not unsubscribe a connection that is unregistered. The handler
of a connection calls one after the other, and unregisters last. -/
def UnsubscribesFirst (w : World) : HubTask → Prop
  | .unsubscribe c t =>
    (w.hub.records c).registered = true ∨ (w.hub.records c).subscribed t = false
  | _ => True

instance (w : World) (t : HubTask) : Decidable (UnsubscribesFirst w t) := by
  unfold UnsubscribesFirst
  split <;> infer_instance

/-- What a step of a call does to the count of each channel: what is acquired
is held by somebody, and what is given back was. -/
def References (w w' : World) (t t' : HubTask) : Prop := ∀ ch,
  w'.acquired.count ch + (w.released.count ch + w.hub.held ch + t.held.count ch)
    = w.acquired.count ch + (w'.released.count ch + w'.hub.held ch + t'.held.count ch)

section Step

variable {home : Ulid → Ulid} {ok : Bool} {w w' : World} {t t' : HubTask}

/-- **The hub step lemma**: a critical section keeps the indices. -/
theorem Moves.consistent (hmove : Moves home ok w t w' t') (hc : w.hub.Consistent home)
    (ht : t.Homed home) : w'.hub.Consistent home ∧ t'.Homed home := by
  cases hmove with
  | registerEnter id => exact ⟨hc.register id, trivial⟩
  | authorize _ _ _ _ _ hhome => exact ⟨hc, hhome⟩
  | registerRefused | retry | notAdded =>
    exact ⟨hc, homed_releasing trivial⟩
  | enter _ _ _ _ _ hreg => exact ⟨hc.enter hreg ht, trivial⟩
  | unregister c => exact ⟨hc.unregister c, homed_releasing trivial⟩
  | unregistered => exact ⟨hc.finishUnregister, trivial⟩
  | nothing userId | revalidate userId =>
    exact ⟨hc.bumpEpoch userId, ht⟩
  | removeDisallowed =>
    exact ⟨hc.drop _ _, homed_releasing ht⟩
  | ends _ | registerStart id | registerAcquire id | subscribe c topic hreg | deliver ev hclosed
  | deliverClosed => exact ⟨hc, trivial⟩
  | unsubscribe | closeRooms =>
    exact ⟨hc.drop _ _, homed_releasing trivial⟩
  | _ => exact ⟨hc, ht⟩

/-- **The reference step lemma**: what a step acquires, enters and leaves to be
given back is accounted for. -/
theorem Moves.settles (hmove : Moves home ok w t w' t') (hc : w.hub.Consistent home)
    (ht : UnsubscribesFirst w t) : References w w' t t' := by
  intro ch
  cases hmove with
  | ends h =>
    have hheld : t.held = 0 := by cases t <;> first | rfl | exact h.elim
    rw [hheld]
    rfl
  | registerAcquire id =>
    show Multiset.count ch (Channel.user id.userId ::ₘ w.acquired) + _
      = _ + (_ + Multiset.count ch {Channel.user id.userId})
    rw [← Multiset.singleton_add, Multiset.count_add]
    simp only [HubTask.held, World.acquire, Multiset.count_zero]
    omega
  | registerEnter id =>
    have hheld := Hub.held_register hc id ch
    simp only [HubTask.held, World.setHub, Multiset.count_zero]
    omega
  | acquire _ topic =>
    show Multiset.count ch (topic.channel ::ₘ w.acquired) + _
      = _ + (_ + Multiset.count ch {topic.channel})
    rw [← Multiset.singleton_add, Multiset.count_add]
    simp only [HubTask.held, World.acquire, Multiset.count_zero]
    omega
  | registerRefused | retry | notAdded =>
    rw [held_releasing]
    simp [HubTask.held]
  | enter _ _ _ workspaceId _ hreg hsub =>
    have hheld := Hub.held_enter hc hreg workspaceId hsub ch
    simp only [HubTask.held, World.setHub, Multiset.count_zero]
    omega
  | unsubscribe c _ hsub =>
    have hreg : (w.hub.records c).registered = true :=
      ht.resolve_right fun hnot => false_ne_true (hnot.symm.trans hsub)
    have hheld := Hub.held_unsubscribeLocked hc hreg hsub ch
    rw [held_releasing]
    simp only [HubTask.held, World.setHub, Multiset.count_zero, add_zero]
    omega
  | unregister _ hreg =>
    have hheld := Hub.held_unregister hc hreg ch
    rw [held_releasing]
    simp only [HubTask.held, World.setHub, Multiset.count_zero, add_zero]
    omega
  | unregistered =>
    have hheld : w.hub.finishUnregister.held ch = w.hub.held ch :=
      (Hub.held_closeDrained _ ch).trans (Hub.held_congr rfl rfl ch)
    simp only [HubTask.held, World.setHub, Multiset.count_zero, hheld]
  | removeDisallowed userId rooms workspaces allowedRooms allowedWorkspaces =>
    have hheld := Hub.held_drop hc (w.hub.byUser.at_ userId)
      (fun c hmem => ((hc.byUser userId c).mp hmem).1)
      (fun _ => disallowed rooms workspaces allowedRooms allowedWorkspaces) ch
    rw [held_releasing, Multiset.count_add]
    simp only [HubTask.held, World.setHub]
    omega
  | closeRooms roomIds =>
    have hwho : ∀ c ∈ w.hub.closedSubscribers roomIds, (w.hub.records c).registered = true := by
      intro c hmem
      obtain ⟨r, -, hr⟩ := Finset.mem_biUnion.mp hmem
      exact ((hc.subscribers (.room r) c).mp hr).1
    have hheld := Hub.held_drop hc (w.hub.closedSubscribers roomIds) hwho
      (w.hub.inClosed roomIds) ch
    rw [held_releasing, Multiset.count_add]
    simp only [HubTask.held, World.setHub, Multiset.count_zero, add_zero]
    omega
  | _ => rfl

end Step

/-- Of every channel, what was acquired was given back, or a registered
connection holds it, or a call does that is not done with it. -/
def Balanced (s : HubState) : Prop := ∀ ch,
  s.world.acquired.count ch = s.world.released.count ch + s.world.hub.held ch
    + (s.tasks.map fun t => t.held.count ch).sum

/-- What every step keeps: the indices agree, and what is about to be entered
has its workspace. -/
structure HubState.Sound (home : Ulid → Ulid) (s : HubState) : Prop where
  consistent : s.world.hub.Consistent home
  homed : ∀ t ∈ s.tasks, t.Homed home

/-- No step unsubscribes a connection that is unregistered. -/
def UnsubscribesInTime (s : HubState) : HubAction → Prop
  | .advance i _ => ∀ t ∈ s.tasks[i]?, UnsubscribesFirst s.world t
  | _ => True

instance (s : HubState) (a : HubAction) : Decidable (UnsubscribesInTime s a) := by
  unfold UnsubscribesInTime
  split <;> infer_instance

section Runs

variable {home : Ulid → Ulid} {s s' : HubState} {a : HubAction}

/-- **Every step keeps the indices.** -/
theorem HubState.Sound.step (h : s.Sound home) (hs : s.step home a = some s') : s'.Sound home := by
  rcases HubState.step_cases hs with ⟨call, rfl, -, rfl⟩ | ⟨i, ok, t, t', w, rfl, ht, hmove, rfl⟩ |
    ⟨i, ch, channels, next, rfl, ht, hmem, rfl⟩ | ⟨rfl, rfl⟩ | ⟨u, t, rfl, rfl⟩ | ⟨u, t, rfl, rfl⟩
  · refine ⟨h.consistent, fun t ht => ?_⟩
    rcases mem_append.mp ht with ht | ht
    · exact h.homed t ht
    · exact mem_singleton.mp ht ▸ homed_start call
  · obtain ⟨hc, hhomed⟩ := hmove.consistent h.consistent (h.homed t (mem_of_getElem? ht))
    refine ⟨hc, fun u hu => ?_⟩
    rcases mem_set hu with hu | rfl
    · exact h.homed u hu
    · exact hhomed
  · have hhomed : (HubTask.release channels next).Homed home :=
      h.homed _ (mem_of_getElem? ht)
    refine ⟨h.consistent, fun u hu => ?_⟩
    rcases mem_set hu with hu | rfl
    · exact h.homed u hu
    · exact homed_releasing hhomed
  · exact ⟨h.consistent.shutdown, h.homed⟩
  · exact ⟨h.consistent, h.homed⟩
  · exact ⟨h.consistent, h.homed⟩

/-- **Every step settles the references** that unsubscribes in time. -/
theorem Balanced.step (hb : Balanced s) (h : s.Sound home) (hP : UnsubscribesInTime s a)
    (hs : s.step home a = some s') : Balanced s' := by
  intro ch'
  have hbalanced := hb ch'
  rcases HubState.step_cases hs with ⟨call, rfl, -, rfl⟩ | ⟨i, ok, t, t', w, rfl, ht, hmove, rfl⟩ |
    ⟨i, ch, channels, next, rfl, ht, hmem, rfl⟩ | ⟨rfl, rfl⟩ | ⟨u, t, rfl, rfl⟩ | ⟨u, t, rfl, rfl⟩
  · show _ = _ + ((s.tasks ++ [call.start]).map fun t => t.held.count ch').sum
    rw [sum_append_one, held_start, Multiset.count_zero, add_zero]
    exact hbalanced
  · have hstep := hmove.settles h.consistent (hP t ht) ch'
    have hsum := sum_set (fun t : HubTask => t.held.count ch') ht t'
    show w.acquired.count ch' = w.released.count ch' + w.hub.held ch'
      + ((s.tasks.set i t').map fun t => t.held.count ch').sum
    omega
  · have hsum := sum_set (fun t : HubTask => t.held.count ch') ht
      (releasing (channels.erase ch) next)
    have hchannels : channels.count ch'
        = (channels.erase ch).count ch' + ({ch} : Multiset Channel).count ch' := by
      rw [← Multiset.count_add, add_comm, Multiset.singleton_add, Multiset.cons_erase hmem]
    simp only [held_releasing, HubTask.held, Multiset.count_add] at hsum
    show s.world.acquired.count ch' = Multiset.count ch' (ch ::ₘ s.world.released)
      + s.world.hub.held ch'
      + ((s.tasks.set i (releasing (channels.erase ch) next)).map fun t => t.held.count ch').sum
    rw [← Multiset.singleton_add, Multiset.count_add]
    omega
  · have hheld : s.world.hub.shutdown.held ch' = s.world.hub.held ch' :=
      (Hub.held_closeDrained _ ch').trans (Hub.held_congr rfl rfl ch')
    show _ = _ + s.world.hub.shutdown.held ch' + _
    rw [hheld]
    exact hbalanced
  · exact hbalanced
  · exact hbalanced

theorem sound_init (h : (hubSystem home).init s) : s.Sound home := by
  obtain ⟨hhub, -, -, htasks⟩ := h
  refine ⟨hhub ▸ Hub.consistent_empty, ?_⟩
  rw [htasks]
  exact nofun

theorem balanced_init (h : (hubSystem home).init s) : Balanced s := by
  obtain ⟨hhub, hacquired, hreleased, htasks⟩ := h
  intro ch
  rw [hacquired, hreleased, htasks, hhub]
  rfl

theorem sound_of_reachable (h : (hubSystem home).Reachable s) : s.Sound home :=
  h.invariant (fun _ => sound_init) fun _ _ _ hsound _ hs => hsound.step hs

theorem balanced_of_reachableBy (h : (hubSystem home).ReachableBy UnsubscribesInTime s) :
    Balanced s := by
  refine (h.invariant (I := fun s => s.Sound home ∧ Balanced s)
    (fun _ hinit => ⟨sound_init hinit, balanced_init hinit⟩) fun _ _ _ hinv hP hs => ?_).2
  exact ⟨hinv.1.step hs, hinv.2.step hinv.1 hP hs⟩

/-- **The indices agree and the references balance.** In every state of every
run each place of the hub says what the records say. In every state of every run
whose connections unsubscribe before they are unregistered, of no channel less
is left acquired than connections hold it, so nothing is given back that is still
held; and when no call holds a channel, what is left acquired is what
connections hold, so nothing leaks. -/
theorem indexed_and_balanced (h : (hubSystem home).Reachable s) : s.world.hub.Indexed ∧
      ((hubSystem home).ReachableBy UnsubscribesInTime s →
        (∀ ch, s.world.released.count ch + (s.world.hub.holders ch).card
          ≤ s.world.acquired.count ch) ∧
        ((∀ t ∈ s.tasks, t.held = 0) → ∀ ch, s.world.acquired.count ch
          = s.world.released.count ch + (s.world.hub.holders ch).card)) := by
  have hsound := sound_of_reachable h
  refine ⟨hsound.consistent.toIndexed, fun hin => ⟨fun ch => ?_, fun hidle ch => ?_⟩⟩
  · have hbalanced := balanced_of_reachableBy hin ch
    rw [Hub.held_eq_card_holders hsound.consistent] at hbalanced
    omega
  · have hbalanced := balanced_of_reachableBy hin ch
    have hsum : (s.tasks.map fun t => t.held.count ch).sum = 0 := by
      refine sum_eq_zero fun n hn => ?_
      obtain ⟨t, ht, rfl⟩ := List.mem_map.mp hn
      rw [hidle t ht, Multiset.count_zero]
    rw [Hub.held_eq_card_holders hsound.consistent, hsum, add_zero] at hbalanced
    exact hbalanced

end Runs

/-! ## Two connections and a room -/

/-- An instance that nothing has happened to, with every permission given. -/
def idleHub : HubState := ⟨⟨Hub.empty, 0, 0, fun _ _ => true, []⟩, []⟩

/-- A connection is registered. -/
def registers (i : ℕ) (userId : Ulid) : List HubAction :=
  [.call (.register ⟨userId, i⟩), .advance i true, .advance i true, .advance i true]

/-- A connection subscribes to a topic. -/
def subscribes (i : ℕ) (c : ClientId) (t : Topic) : List HubAction :=
  [.call (.subscribe c t), .advance i true, .advance i true, .advance i true, .advance i true]

theorem init_idleHub (home : Ulid → Ulid) : (hubSystem home).init idleHub :=
  ⟨rfl, rfl, rfl, rfl⟩

/-- Two connections subscribe to a room and one of them is unregistered: the
room's channel is left acquired once. -/
theorem balanced_after_unregister : ∃ s : HubState, s.world.acquired.count (.room 5)
        = s.world.released.count (.room 5) + (s.world.hub.holders (.room 5)).card
      ∧ (s.world.hub.holders (.room 5)).card = 1 := by
  let test (s : HubState) : Bool :=
    decide (∀ t ∈ s.tasks, t.held = 0) && decide ((s.world.hub.holders (.room 5)).card = 1)
  have hrun : ((hubSystem id).runBy UnsubscribesInTime idleHub (registers 0 1 ++ registers 1 2
      ++ subscribes 2 0 (.room 5) ++ subscribes 3 1 (.room 5)
      ++ [.call (.unregister 0), .advance 4 true, .release 4 (.user 1), .release 4 (.room 5),
        .advance 4 true])).any test = true := by decide +kernel
  obtain ⟨s, hreach, htest⟩ := TransitionSystem.exists_of_runBy hrun (init_idleHub id)
  obtain ⟨hidle, hone⟩ := Bool.and_eq_true_iff.mp htest
  have hboth := indexed_and_balanced (hreach.mono fun _ _ _ => trivial)
  exact ⟨s, (hboth.2 hreach).2 (of_decide_eq_true hidle) (.room 5), of_decide_eq_true hone⟩

/-- **A channel is given back twice.** Two connections subscribe to a room; one
is unregistered and then unsubscribes. No call is left and one connection holds
the room, but nothing is left acquired for it. -/
theorem released_twice : ∃ s, (hubSystem id).Reachable s ∧ (∀ t ∈ s.tasks, t.held = 0)
      ∧ s.world.acquired.count (.room 5) = s.world.released.count (.room 5)
      ∧ 1 ∈ s.world.hub.holders (.room 5) := by
  let test (s : HubState) : Bool :=
    decide ((∀ t ∈ s.tasks, t.held = 0)
      ∧ s.world.acquired.count (.room 5) = s.world.released.count (.room 5)
      ∧ 1 ∈ s.world.hub.holders (.room 5))
  have hrun : ((hubSystem id).run idleHub (registers 0 1 ++ registers 1 2
      ++ subscribes 2 0 (.room 5) ++ subscribes 3 1 (.room 5)
      ++ [.call (.unregister 0), .advance 4 true, .release 4 (.user 1), .release 4 (.room 5),
        .advance 4 true, .call (.unsubscribe 0 (.room 5)), .advance 5 true,
        .release 5 (.room 5)])).any test = true := by decide +kernel
  obtain ⟨s, hreach, htest⟩ := TransitionSystem.exists_of_run hrun (init_idleHub id)
  exact ⟨s, hreach, of_decide_eq_true htest⟩

end Hibari
