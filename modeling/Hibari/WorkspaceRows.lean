import Hibari.Workspaces

/-!
# What calls go by in a workspace

A call goes by what it has read: the roles of the members whose rows it has locked, the rooms of
somebody who is about to be removed, that a user is no member yet. What it has read is still so
when it commits (`WorkspaceTask.Fits`), since every step of the others leaves what somebody else
has locked as it is (`Spares`).
-/

namespace Hibari

open List Option Function Grip

/-! ## Single writes -/

namespace WorkspaceTables

variable {d : WorkspaceTables} {ws ws' user user' id : Ulid}

theorem members_addMember (role : Role) : (d.addMember ws user role).members ws' user' =
    if ws' = ws ∧ user' = user then some ⟨role, d.rows⟩ else d.members ws' user' := by
  unfold addMember
  by_cases hws : ws' = ws
  · subst hws
    by_cases huser : user' = user
    · subst huser
      simp
    · simp [huser]
  · simp [hws]

theorem members_updateRole (role : Role) : (d.updateRole ws user role).members ws' user' =
    if ws' = ws ∧ user' = user then (d.members ws user).map fun m => { m with role := role }
    else d.members ws' user' := by
  unfold updateRole
  by_cases hws : ws' = ws
  · subst hws
    by_cases huser : user' = user
    · subst huser
      simp
    · simp [huser]
  · simp [hws]

theorem members_deleteMember (rooms : List Ulid) : (d.deleteMember ws user rooms).members ws' user' =
    if ws' = ws ∧ user' = user then none else d.members ws' user' := by
  unfold deleteMember
  by_cases hws : ws' = ws
  · subst hws
    by_cases huser : user' = user
    · subst huser
      simp
    · simp [huser]
  · simp [hws]

/-- Somebody is in a room after rows were added. -/
theorem isSome_addJoins {joins : List RoomJoin} : ((d.addJoins joins).roomMembers id user).isSome ↔
      (∃ j ∈ joins, j.roomId = id ∧ j.userId = user) ∨ (d.roomMembers id user).isSome := by
  unfold addJoins
  cases hfind : joins.find? fun j => decide (j.roomId = id ∧ j.userId = user) with
  | some j =>
    have hmem := mem_of_find?_eq_some hfind
    have hj : j.roomId = id ∧ j.userId = user := by simpa using find?_some hfind
    simp only [hfind, elim_some, isSome_some, true_iff]
    exact .inl ⟨j, hmem, hj⟩
  | none =>
    simp only [hfind, elim_none]
    refine ⟨.inr, fun h => h.resolve_left ?_⟩
    rintro ⟨j, hj, hjid⟩
    exact find?_eq_none.mp hfind j hj (decide_eq_true hjid)

/-- A room of a workspace. -/
def InWorkspace (d : WorkspaceTables) (ws id : Ulid) : Prop :=
  ∃ r ∈ d.rooms, r.id = id ∧ r.workspaceId = ws

theorem inWorkspace_room? {r : WorkspaceRoom} (h : d.room? id = some r) :
    r.id = id ∧ d.InWorkspace r.workspaceId id :=
  have hid : r.id = id := by simpa using find?_some h
  ⟨hid, r, mem_of_find?_eq_some h, hid, rfl⟩

/-- Rooms that are written stay where they are. -/
theorem inWorkspace_map {f : WorkspaceRoom → WorkspaceRoom}
    (hf : ∀ r, (f r).id = r.id ∧ (f r).workspaceId = r.workspaceId) :
    ({ d with rooms := d.rooms.map f } : WorkspaceTables).InWorkspace ws id ↔ d.InWorkspace ws id := by
  constructor
  · rintro ⟨r, hr, hid, hws⟩
    obtain ⟨r₀, hr₀, rfl⟩ := List.mem_map.mp hr
    exact ⟨r₀, hr₀, (hf r₀).1.symm.trans hid, (hf r₀).2.symm.trans hws⟩
  · rintro ⟨r, hr, hid, hws⟩
    exact ⟨f r, List.mem_map.mpr ⟨r, hr, rfl⟩, (hf r).1.trans hid, (hf r).2.trans hws⟩

theorem mem_joined : id ∈ d.joined ws user ↔
    d.InWorkspace ws id ∧ ∃ r ∈ d.rooms, r.id = id ∧ r.workspaceId = ws ∧
      (d.roomMembers id user).isSome := by
  unfold joined
  constructor
  · intro h
    obtain ⟨r, hr, rfl⟩ := List.mem_map.mp h
    obtain ⟨hmem, hcond⟩ := mem_filter.mp hr
    obtain ⟨hws, hsome⟩ := Bool.and_eq_true_iff.mp hcond
    exact ⟨⟨r, hmem, rfl, of_decide_eq_true hws⟩, r, hmem, rfl, of_decide_eq_true hws, hsome⟩
  · rintro ⟨-, r, hr, rfl, hws, hsome⟩
    exact List.mem_map.mpr ⟨r, mem_filter.mpr ⟨hr, by simp [hws, hsome]⟩, rfl⟩

theorem mem_joinDefaultRooms {j : RoomJoin} (h : j ∈ d.joinDefaultRooms ws user) :
    j.userId = user ∧ d.InWorkspace ws j.roomId := by
  unfold joinDefaultRooms at h
  obtain ⟨r, hr, rfl⟩ := List.mem_map.mp h
  obtain ⟨hmem, hcond⟩ := mem_filter.mp hr
  obtain ⟨hboth, -⟩ := Bool.and_eq_true_iff.mp hcond
  exact ⟨rfl, r, hmem, rfl, of_decide_eq_true (Bool.and_eq_true_iff.mp hboth).1⟩

end WorkspaceTables

open WorkspaceTables

/-! ## The locks that a call has waited for -/

/-- The locks that a transaction has waited for by what it has written. -/
def WorkspaceWrite.keys : WorkspaceWrite → List WorkspaceLock
  | revoke id _ => [.invite id]
  | accept ws user id _ => [.memberKey ws user, .invite id]
  | _ => []

namespace WorkspaceTask

/-- What a call goes by, if it has locked rows of members. -/
def grip : WorkspaceTask → Option Grip
  | getRoom _ _ | getInvite _ _ | members _ _ _ | done _ => none
  | locking g _ _ | revoking g _ _ | insertRoomMember g _ _ | insertRoom g _ | insertDM g _
  | adding g _ _ _ | welcoming g _ | removing g _ _ | promoting g _ _ | consuming g _ _ _
  | joining g _ _ | addDM g _ _ _ _ | logging g _ _ _ | commit g _ _ => some g

/-- The other locks that it has waited for. -/
def keys : WorkspaceTask → List WorkspaceLock
  | consuming g user _ _ => [.memberKey g.workspaceId user]
  | joining g user invite => [.memberKey g.workspaceId user, .invite invite]
  | logging _ w _ _ | commit _ w _ => w.keys
  | _ => []

/-- **The locks that a call has waited for**, and still has. -/
def kept (t : WorkspaceTask) : List WorkspaceLock := t.grip.elim [] Grip.held ++ t.keys

variable {t : WorkspaceTask} {l : WorkspaceLock}

theorem mem_held_of_keys {w : WorkspaceWrite} (h : l ∈ w.keys) : l ∈ w.held := by
  cases w with
  | revoke => exact h
  | accept =>
    rcases mem_cons.mp h with rfl | h
    · exact .head _
    · rw [mem_singleton.mp h]
      exact .tail _ (.head _)
  | _ => cases h

theorem mem_held (h : l ∈ t.kept) : l ∈ t.held := by
  unfold kept at h
  cases t with
  | logging | commit =>
    rcases mem_append.mp h with h | h
    · exact mem_append_left _ (mem_append_left _ h)
    · exact mem_append_left _ (mem_append_right _ (mem_held_of_keys h))
  | addDM =>
    exact mem_append_left _ (by simpa [grip, keys] using h)
  | removing | promoting =>
    exact mem_append_left _ (by simpa [grip, keys] using h)
  | consuming g user invite now | joining g user invite | getRoom c room | getInvite c codeHash
  | members | done => exact h
  | _ => exact (mem_append.mp h).elim id nofun

end WorkspaceTask

namespace WorkspaceLock

theorem conflict_symm : ∀ l l', Conflict l l' → Conflict l' l := by
  intro l l' h
  cases l with
  | member ws user row mode =>
    cases l' with
    | member =>
      obtain ⟨⟨rfl, rfl, rfl⟩, hmode⟩ := h
      exact ⟨⟨rfl, rfl, rfl⟩, fun hboth => hmode ⟨hboth.2, hboth.1⟩⟩
    | _ => cases show member ws user row mode = _ from h
  | _ =>
    cases l' with
    | member ws' user' row' mode' => cases show _ = member ws' user' row' mode' from h
    | _ => exact Eq.symm h

end WorkspaceLock

namespace WorkspaceService

variable {s s' : WorkspaceService} {a : WorkspaceAction} {t : WorkspaceTask} {l : WorkspaceLock}

theorem kept_begins (c : WorkspaceCall) : c.begins.kept = [] := by
  unfold WorkspaceCall.begins
  split
  · rfl
  · split <;> rfl

theorem mem_kept_decides {g : Grip} {room : Option WorkspaceRoom} (h : l ∈ (s.decides g room).kept) :
    l ∈ g.held := by
  have hkeys : ∀ {u : WorkspaceTask}, u.grip = some g ∨ u.grip = none → u.keys = [] → l ∈ u.kept →
      l ∈ g.held := by
    intro u hgrip hnone hl
    unfold WorkspaceTask.kept at hl
    rw [hnone, append_nil] at hl
    rcases hgrip with hg | hg
    · rwa [hg] at hl
    · rw [hg] at hl
      cases hl
  unfold decides at h
  split at h
  all_goals
    repeat' split at h
    all_goals first
      | exact hkeys (.inr rfl) rfl h
      | exact hkeys (.inl rfl) rfl h

/-- **A lock that a call has by its turn** it had, or asked for. -/
theorem mem_kept_turn (h : l ∈ (s.turn t).kept) : l ∈ t.kept ∨ l ∈ t.asks := by
  have hgrip : ∀ {g : Grip}, t.grip = some g → l ∈ g.held → l ∈ t.kept := fun hg hl =>
    mem_append_left _ (by rw [hg]; exact hl)
  cases t with
  | getInvite =>
    simp only [turn] at h
    split at h
    · split at h <;> cases h
    · cases h
  | members => cases h
  | locking _ _ todo =>
    cases todo with
    | nil => exact .inl (hgrip rfl (mem_kept_decides h))
    | cons p =>
      obtain ⟨user, row⟩ := p
      have hheld : l ∈ Grip.held _ := (mem_append.mp h).resolve_right not_mem_nil
      unfold Grip.held at hheld
      rw [map_append, mem_append] at hheld
      rcases hheld with hheld | hheld
      · exact .inl (hgrip rfl hheld)
      · obtain ⟨q, hq, rfl⟩ := List.mem_map.mp hheld
        obtain ⟨m, hm, rfl⟩ := List.mem_map.mp hq
        obtain ⟨-, hrow⟩ := filter_eq_some_iff.mp (mem_toList.mp hm)
        refine .inr ?_
        rw [of_decide_eq_true hrow]
        rfl
  | revoking =>
    rcases mem_append.mp h with h | h
    · exact .inl (hgrip rfl h)
    · rw [mem_singleton.mp h]
      exact .inr rfl
  | adding =>
    simp only [turn] at h
    split at h
    · exact .inl h
    · rcases mem_append.mp h with h | h
      · exact .inl (hgrip rfl h)
      · rw [mem_singleton.mp h]
        exact .inr rfl
  | getRoom | welcoming =>
    simp only [turn] at h
    split at h <;> cases h
  | consuming =>
    simp only [turn] at h
    split at h
    · split at h
      · rcases mem_append.mp h with h | h
        · exact .inl (hgrip rfl h)
        · rcases mem_cons.mp h with rfl | h
          · exact .inl (mem_append_right _ (.head _))
          · rw [mem_singleton.mp h]
            exact .inr rfl
      · cases h
    · cases h
  | insertRoomMember =>
    simp only [turn] at h
    split at h
    · split at h <;> exact .inl h
    · exact .inl h
  | insertRoom =>
    simp only [turn] at h
    split at h
    · cases h
    · exact .inl h
  | insertDM =>
    simp only [turn] at h
    split at h <;> exact .inl h
  | addDM _ _ _ todo =>
    cases todo with
    | nil => exact .inl h
    | cons =>
      simp only [turn] at h
      split at h <;> exact .inl h
  | logging _ _ todo =>
    cases todo with
    | nil =>
      simp only [turn] at h
      split at h
      · split at h
        · exact .inl h
        · cases h
      · exact .inl h
    | cons => exact .inl h
  | _ => exact .inl h

/-- **What calls have waited for does not conflict.** -/
theorem compatible_act (hs : Conflicts.Compatible WorkspaceLock.Conflict WorkspaceTask.kept s.tasks)
    (hact : s.act a = some s') :
    Conflicts.Compatible WorkspaceLock.Conflict WorkspaceTask.kept s'.tasks := by
  cases step_of_act hact with
  | turn hi hfree =>
    refine hs.set WorkspaceLock.conflict_symm hi fun l hl => ?_
    rcases mem_kept_turn hl with hmine | hasks
    · exact .inl hmine
    · refine .inr fun j hj hne u hu l' hl' => ?_
      exact hfree l hasks j hj hne u hu l' (WorkspaceTask.mem_held hl')
  | commit hi | fail hi =>
    exact hs.set WorkspaceLock.conflict_symm hi nofun
  | start c => exact hs.concat (kept_begins c)
  | _ => exact hs

end WorkspaceService

/-! ## What a call goes by -/

/-- **The rows of members that a call has locked are as they were.** -/
def Grip.Holds (d : WorkspaceTables) (g : Grip) : Prop :=
  ∀ p ∈ g.got, d.members g.workspaceId p.1 = some p.2

/-- A call with input that may be is about the workspace that it names. -/
def WorkspaceCall.Names (c : WorkspaceCall) (ws : Ulid) : Prop :=
  c.refused = false ∧ ∀ ws' ∈ c.workspaceId?, ws' = ws

theorem Grip.mem_got {g : Grip} {user : Ulid} (h : (g.role user).isMember) :
    ∃ m, (user, m) ∈ g.got ∧ m.role = g.role user := by
  unfold Grip.role at h ⊢
  cases hfind : g.got.find? fun p => decide (p.1 = user) with
  | none =>
    rw [hfind] at h
    cases h
  | some p =>
    obtain ⟨u, m⟩ := p
    have hu : u = user := by simpa using find?_some hfind
    subst hu
    exact ⟨m, mem_of_find?_eq_some hfind, rfl⟩

theorem Grip.Holds.role_eq {d : WorkspaceTables} {g : Grip} {user : Ulid} (hg : g.Holds d)
    (h : (g.role user).isMember) : d.role g.workspaceId user = g.role user := by
  obtain ⟨m, hm, hrole⟩ := mem_got h
  unfold WorkspaceTables.role
  rw [hg _ hm, ← hrole]
  rfl

/-- **What a transaction has written fits the tables**, and what it goes by. -/
def WorkspaceWrite.Fits (d : WorkspaceTables) (g : Grip) : WorkspaceWrite → Prop
  | nothing | revoke _ _ => True
  | workspace _ _ => g.got = []
  | role ws target newRole => ws = g.workspaceId ∧ ∃ actor,
      g.call = .changeMemberRole actor ws target newRole ∧
        canChangeRole (g.role actor) (g.role target) newRole
  | remove ws target rooms => ws = g.workspaceId ∧ (∃ actor, g.call = .removeMember actor ws target ∧
      (actor = target ∧ canLeaveWorkspace (g.role target) ∨
        actor ≠ target ∧ canRemoveMember (g.role actor) (g.role target))) ∧
      ∀ id, d.InWorkspace ws id → (d.roomMembers id target).isSome → id ∈ rooms
  | transfer ws actor target => ws = g.workspaceId ∧ actor ≠ target ∧
      g.call = .transferOwnership actor ws target ∧ g.role actor = .owner ∧ (g.role target).isMember
  | invite inv => (d.policies inv.workspaceId).isSome ∧ inv.useCount = 0
  | accept ws user id joins => ws = g.workspaceId ∧ d.members ws user = none ∧
      (∃ inv ∈ d.invites, inv.id = id ∧ inv.workspaceId = ws ∧ inv.revokedAt = none ∧
        ∀ n ∈ inv.maxUses, inv.useCount < n) ∧
      ∀ j ∈ joins, j.userId = user ∧ d.InWorkspace ws j.roomId
  | join joins none => ∀ j ∈ joins, (g.role j.userId).isMember ∧ d.InWorkspace g.workspaceId j.roomId
  | join joins (some row) => row.workspaceId = g.workspaceId ∧
      ∀ j ∈ joins, (g.role j.userId).isMember ∧ j.roomId = row.id

/-- **What a call goes by is so.** -/
def WorkspaceTask.Fits (d : WorkspaceTables) : WorkspaceTask → Prop
  | getRoom c _ => ∀ ws, c.Names ws
  | getInvite _ _ | done _ => True
  | members c ws room => c.Names ws ∧ ∀ r ∈ room, d.InWorkspace ws r.id
  | locking g room _ => g.Holds d ∧ g.call.Names g.workspaceId ∧
      ∀ r ∈ room, d.InWorkspace g.workspaceId r.id
  | revoking g _ _ | welcoming g _ => g.Holds d
  | removing g target rooms => g.Holds d ∧
      (WorkspaceWrite.remove g.workspaceId target rooms).Fits d g
  | promoting g actor target => g.Holds d ∧
      (WorkspaceWrite.transfer g.workspaceId actor target).Fits d g
  | adding g _ id _ => g.Holds d ∧ ∃ inv ∈ d.invites, inv.id = id ∧ inv.workspaceId = g.workspaceId
  | consuming g user id _ => g.Holds d ∧ d.members g.workspaceId user = none ∧
      ∃ inv ∈ d.invites, inv.id = id ∧ inv.workspaceId = g.workspaceId
  | joining g user id => g.Holds d ∧ (WorkspaceWrite.accept g.workspaceId user id []).Fits d g
  | insertRoomMember g room target => g.Holds d ∧ (g.role target).isMember ∧
      d.InWorkspace g.workspaceId room
  | insertRoom g row => g.Holds d ∧ row.workspaceId = g.workspaceId ∧ (g.role g.call.actor).isMember
  | insertDM g row => g.Holds d ∧ row.workspaceId = g.workspaceId ∧
      ∀ user ∈ lockOrder g.call.users, (g.role user).isMember
  | addDM g room new todo joins => g.Holds d ∧ (WorkspaceWrite.join joins new).Fits d g ∧
      (∀ user ∈ todo, (g.role user).isMember) ∧
      (new = some room ∨ new = none ∧ d.InWorkspace g.workspaceId room.id)
  | logging g w _ _ | commit g w _ => g.Holds d ∧ w.Fits d g

/-! ## What others leave -/

/-- **What a step leaves of the tables** that has some locks. -/
structure Spares (locks : List WorkspaceLock) (d d' : WorkspaceTables) : Prop where
  members : ∀ ws user m, d.members ws user = some m →
    .member ws user m.row .exclusive ∉ locks → d'.members ws user = some m
  absent : ∀ ws user, d.members ws user = none → (d.policies ws).isSome →
    .memberKey ws user ∉ locks → d'.members ws user = none
  policies : ∀ ws, (d.policies ws).isSome → (d'.policies ws).isSome
  rooms : ∀ ws id, d.InWorkspace ws id → d'.InWorkspace ws id
  roomMembers : ∀ ws id user, d'.InWorkspace ws id → (d'.roomMembers id user).isSome →
    (d.InWorkspace ws id ∧ (d.roomMembers id user).isSome) ∨ d.members ws user = none ∨
      ∃ m mode, d.members ws user = some m ∧ .member ws user m.row mode ∈ locks
  invites : ∀ inv ∈ d.invites, .invite inv.id ∉ locks → inv ∈ d'.invites
  inviteIds : ∀ inv ∈ d.invites, ∃ inv' ∈ d'.invites, inv'.id = inv.id ∧
    inv'.workspaceId = inv.workspaceId

/-- **The tables fit together**: rows have ids, and refer to rows that are there. -/
structure WorkspaceTables.Linked (d : WorkspaceTables) : Prop where
  rooms : (d.rooms.map WorkspaceRoom.id).Nodup
  invites : (d.invites.map WorkspaceInvite.id).Nodup
  isMember : ∀ ws user m, d.members ws user = some m → m.role.isMember
  policies : ∀ ws user m, d.members ws user = some m → (d.policies ws).isSome
  inviteOf : ∀ inv ∈ d.invites, (d.policies inv.workspaceId).isSome
  inRooms : ∀ id user, (d.roomMembers id user).isSome →
    ∃ ws, d.InWorkspace ws id ∧ (d.members ws user).isSome
  uses : ∀ inv ∈ d.invites, ∀ n ∈ inv.maxUses, inv.useCount ≤ n

/-- They do, and every workspace has one owner. -/
structure WorkspaceTables.Keyed (d : WorkspaceTables) : Prop extends d.Linked where
  owner : ∀ ws, (d.policies ws).isSome → ∃! user, d.role ws user = .owner

namespace WorkspaceTables

variable {d d' : WorkspaceTables} {ws ws' user user' id : Ulid}

theorem Keyed.inWorkspace_unique (hk : d.Keyed) (h : d.InWorkspace ws id)
    (h' : d.InWorkspace ws' id) : ws = ws' := by
  obtain ⟨r, hr, hid, rfl⟩ := h
  obtain ⟨r', hr', hid', rfl⟩ := h'
  rw [inj_on_of_nodup_map hk.rooms hr hr' (hid.trans hid'.symm)]

theorem not_inWorkspace_of_room? (h : ¬ (d.room? id).isSome) : ¬ d.InWorkspace ws id := by
  rintro ⟨r, hr, hid, -⟩
  exact h (find?_isSome.mpr ⟨r, hr, decide_eq_true hid⟩)

theorem role_of_members {m : MemberRow} (h : d.members ws user = some m) :
    d.role ws user = m.role := by
  unfold role
  rw [h]
  rfl

theorem role_of_none (h : d.members ws user = none) : d.role ws user = .none := by
  unfold role
  rw [h]
  rfl

theorem role_updateRole (newRole : Role) (h : (d.members ws user).isSome) :
    (d.updateRole ws user newRole).role ws' user' =
      if ws' = ws ∧ user' = user then newRole else d.role ws' user' := by
  unfold role
  rw [members_updateRole]
  split
  · obtain ⟨m, hm⟩ := isSome_iff_exists.mp h
    rw [hm]
    rfl
  · rfl

theorem owner_of_iff (h : ∃! user, d.role ws user = .owner)
    (hsame : ∀ user, d'.role ws user = .owner ↔ d.role ws user = .owner) :
    ∃! user, d'.role ws user = .owner := by
  obtain ⟨o, ho, hunique⟩ := h
  exact ⟨o, (hsame o).mpr ho, fun u hu => hunique u ((hsame u).mp hu)⟩

end WorkspaceTables

section Others

variable {d d' : WorkspaceTables} {g : Grip} {w : WorkspaceWrite} {t : WorkspaceTask}
  {locks : List WorkspaceLock}

theorem Grip.mem_held {p : Ulid × MemberRow} (h : p ∈ g.got) :
    .member g.workspaceId p.1 p.2.row g.call.mode ∈ g.held :=
  List.mem_map.mpr ⟨p, h, rfl⟩

theorem WorkspaceLock.conflict_member {ws user : Ulid} {row : ℕ} {mode mode' : LockMode}
    (h : mode = .exclusive ∨ mode' = .exclusive) :
    (WorkspaceLock.member ws user row mode).Conflict (.member ws user row mode') := by
  refine ⟨⟨rfl, rfl, rfl⟩, ?_⟩
  rintro ⟨rfl, rfl⟩
  rcases h with h | h <;> cases h

theorem Grip.Holds.of_spares (hg : g.Holds d) (hsp : Spares locks d d')
    (hc : ∀ l ∈ g.held, ∀ l' ∈ locks, ¬ l.Conflict l') : g.Holds d' := fun p hp =>
  hsp.members g.workspaceId p.1 p.2 (hg p hp) fun hmem =>
    hc _ (mem_held hp) _ hmem (WorkspaceLock.conflict_member (.inr rfl))

/-- **What a transaction has written fits** what others leave. -/
theorem WorkspaceWrite.Fits.of_spares (hk : d.Keyed) (hg : g.Holds d) (h : w.Fits d g)
    (hsp : Spares locks d d') (hc : ∀ l ∈ g.held ++ w.keys, ∀ l' ∈ locks, ¬ l.Conflict l') :
    w.Fits d' g := by
  cases w with
  | remove _ target =>
    obtain ⟨rfl, ⟨actor, hcall, hallowed⟩, hall⟩ := h
    refine ⟨rfl, ⟨actor, hcall, hallowed⟩, fun id hid hsome => ?_⟩
    -- the row of whom is removed is locked, so nobody brings them into another room
    have hmember : (g.role target).isMember := by
      rcases hallowed with ⟨-, hleave⟩ | ⟨-, hremove⟩
      · exact (Bool.and_eq_true_iff.mp hleave).1
      · exact (Bool.and_eq_true_iff.mp (Bool.and_eq_true_iff.mp hremove).1).2
    obtain ⟨m, hm, -⟩ := mem_got hmember
    rcases hsp.roomMembers _ id target hid hsome with ⟨hin, hold⟩ | hnone | ⟨m', mode, hm', hlock⟩
    · exact hall id hin hold
    · cases (hg _ hm).symm.trans hnone
    · obtain rfl := some.inj ((hg _ hm).symm.trans hm')
      have hexclusive : g.call.mode = .exclusive := by rw [hcall]; rfl
      exact absurd (WorkspaceLock.conflict_member (.inl hexclusive))
        (hc _ (mem_append_left _ (mem_held hm)) _ hlock)
  | invite => exact ⟨hsp.policies _ h.1, h.2⟩
  | accept _ user =>
    obtain ⟨rfl, hnone, ⟨inv, hinv, rfl, hws, husable⟩, hjoins⟩ := h
    have hpolicy := hk.inviteOf inv hinv
    rw [hws] at hpolicy
    refine ⟨rfl, hsp.absent _ user hnone hpolicy fun hmem => ?_,
      ⟨inv, hsp.invites inv hinv fun hmem => ?_, rfl, hws, husable⟩,
      fun j hj => ⟨(hjoins j hj).1, hsp.rooms _ _ (hjoins j hj).2⟩⟩
    · exact hc _ (mem_append_right _ (.head _)) _ hmem rfl
    · exact hc _ (mem_append_right _ (.tail _ (.head _))) _ hmem rfl
  | join _ new =>
    cases new with
    | none => exact fun j hj => ⟨(h j hj).1, hsp.rooms _ _ (h j hj).2⟩
    | some => exact h
  | _ => exact h

/-- **What a call goes by stays so**, whatever those do whose locks do not conflict with its own. -/
theorem WorkspaceTask.Fits.of_spares (hk : d.Keyed) (h : t.Fits d) (hsp : Spares locks d d')
    (hc : ∀ l ∈ t.kept, ∀ l' ∈ locks, ¬ l.Conflict l') : t.Fits d' := by
  have hgrip : ∀ {g : Grip}, t.grip = some g → g.Holds d → g.Holds d' := fun {g} hsome hg =>
    hg.of_spares hsp fun l hl => hc l (mem_append_left _ (by rw [hsome]; exact hl))
  have hids : ∀ {ws id : Ulid}, (∃ inv ∈ d.invites, inv.id = id ∧ inv.workspaceId = ws) →
      ∃ inv ∈ d'.invites, inv.id = id ∧ inv.workspaceId = ws := by
    rintro ws id ⟨inv, hinv, rfl, rfl⟩
    exact hsp.inviteIds inv hinv
  cases t with
  | getRoom | getInvite | done => exact h
  | members => exact ⟨h.1, fun r hr => hsp.rooms _ _ (h.2 r hr)⟩
  | locking =>
    obtain ⟨hg, hnames, hroom⟩ := h
    exact ⟨hgrip rfl hg, hnames, fun r hr => hsp.rooms _ _ (hroom r hr)⟩
  | revoking | welcoming => exact hgrip rfl h
  | adding => exact ⟨hgrip rfl h.1, hids h.2⟩
  | consuming _ user =>
    obtain ⟨hg, hnone, inv, hinv, rfl, hws⟩ := h
    have hpolicy := hk.inviteOf inv hinv
    rw [hws] at hpolicy
    refine ⟨hgrip rfl hg, hsp.absent _ user hnone hpolicy fun hmem => ?_, hids ⟨inv, hinv, rfl, hws⟩⟩
    exact hc _ (mem_append_right _ (.head _)) _ hmem rfl
  | insertRoomMember => exact ⟨hgrip rfl h.1, h.2.1, hsp.rooms _ _ h.2.2⟩
  | insertRoom | insertDM => exact ⟨hgrip rfl h.1, h.2⟩
  | addDM =>
    obtain ⟨hg, hw, htodo, hnew⟩ := h
    exact ⟨hgrip rfl hg, hw.of_spares hk hg hsp hc, htodo,
      hnew.imp id fun hold => ⟨hold.1, hsp.rooms _ _ hold.2⟩⟩
  | _ => exact ⟨hgrip rfl h.1, h.2.of_spares hk h.1 hsp hc⟩

end Others

/-! ## What a commit leaves -/

section Commit

variable {d d' : WorkspaceTables} {g : Grip} {w : WorkspaceWrite} {locks : List WorkspaceLock}
  {f : WorkspaceRoom → WorkspaceRoom} {target : Ulid} {newRole : Role}
    {joins : List RoomJoin}

theorem Spares.refl (locks : List WorkspaceLock) (d : WorkspaceTables) : Spares locks d d where
  members := fun _ _ _ h _ => h
  absent := fun _ _ h _ _ => h
  policies := fun _ h => h
  rooms := fun _ _ h => h
  roomMembers := fun _ _ _ hin h => .inl ⟨hin, h⟩
  invites := fun _ h _ => h
  inviteIds := fun inv h => ⟨inv, h, rfl, rfl⟩

/-- Rooms may be written where they are. -/
theorem Spares.mapRooms (h : Spares locks d d')
    (hf : ∀ r, (f r).id = r.id ∧ (f r).workspaceId = r.workspaceId) :
    Spares locks d { d' with rooms := d'.rooms.map f } where
  members := h.members
  absent := h.absent
  policies := h.policies
  rooms := fun ws id hin => (inWorkspace_map hf).mpr (h.rooms ws id hin)
  roomMembers := fun ws id user hin =>
    h.roomMembers ws id user ((inWorkspace_map hf).mp hin)
  invites := h.invites
  inviteIds := h.inviteIds

/-- The row of an invite is written. -/
theorem Spares.updateInvite {id : Ulid} {f : WorkspaceInvite → WorkspaceInvite}
    (hf : ∀ i, (f i).id = i.id ∧ (f i).workspaceId = i.workspaceId)
    (h : Spares locks d d') (hlock : .invite id ∈ locks) :
    Spares locks d (d'.updateInvite id f) where
  members := h.members
  absent := h.absent
  policies := h.policies
  rooms := h.rooms
  roomMembers := h.roomMembers
  invites := fun inv hinv hnot => by
    have hne : inv.id ≠ id := fun heq => hnot (heq ▸ hlock)
    refine List.mem_map.mpr ⟨inv, h.invites inv hinv hnot, ?_⟩
    rw [if_neg hne]
  inviteIds := fun inv hinv => by
    obtain ⟨inv', hinv', hid, hws⟩ := h.inviteIds inv hinv
    refine ⟨_, List.mem_map.mpr ⟨inv', hinv', rfl⟩, ?_⟩
    split
    · exact ⟨(hf inv').1.trans hid, (hf inv').2.trans hws⟩
    · exact ⟨hid, hws⟩

/-- The role of somebody is changed whose row is locked for it. -/
theorem Spares.updateRole {ws : Ulid} (h : Spares locks d d')
    (hlock : ∀ m, d.members ws target = some m → .member ws target m.row .exclusive ∈ locks) :
    Spares locks d (d'.updateRole ws target newRole) where
  members := fun ws' user m hm hnot => by
    rw [members_updateRole, if_neg]
    · exact h.members ws' user m hm hnot
    · rintro ⟨rfl, rfl⟩
      exact hnot (hlock m hm)
  absent := fun ws' user hnone hpolicy hnot => by
    have hstill := h.absent ws' user hnone hpolicy hnot
    rw [members_updateRole]
    split
    · next hboth =>
      obtain ⟨rfl, rfl⟩ := hboth
      rw [hstill]
      rfl
    · exact hstill
  policies := h.policies
  rooms := h.rooms
  roomMembers := h.roomMembers
  invites := h.invites
  inviteIds := h.inviteIds

/-- **Members join rooms** of a workspace, whose rows are locked, or who are no members yet. -/
theorem Spares.addJoins {ws : Ulid} (h : Spares locks d d') (hsame : d'.roomMembers = d.roomMembers)
    (hunique : ∀ ws' id, d'.InWorkspace ws id → d'.InWorkspace ws' id → ws' = ws)
    (hold : ∀ ws' id user, d'.InWorkspace ws' id → (d.roomMembers id user).isSome →
      d.InWorkspace ws' id)
    (hjoins : ∀ j ∈ joins, d'.InWorkspace ws j.roomId ∧ (d.members ws j.userId = none ∨
      ∃ m mode, d.members ws j.userId = some m ∧ .member ws j.userId m.row mode ∈ locks)) :
    Spares locks d (d'.addJoins joins) where
  members := h.members
  absent := h.absent
  policies := h.policies
  rooms := h.rooms
  roomMembers := fun ws' id user hin hsome => by
    rcases isSome_addJoins.mp hsome with ⟨j, hj, rfl, rfl⟩ | hbefore
    · obtain ⟨hinj, hlocked⟩ := hjoins j hj
      obtain rfl := hunique ws' j.roomId hinj hin
      exact .inr hlocked
    · rw [hsame] at hbefore
      exact .inl ⟨hold ws' id user hin hbefore, hbefore⟩
  invites := h.invites
  inviteIds := h.inviteIds

variable (hk : d.Keyed)
include hk

/-- **What a commit leaves of the tables.** -/
theorem spares_perform (hg : g.Holds d) (hw : w.Fits d g)
    (hd : d.perform w = some d') : Spares (g.held ++ w.keys) d d' := by
  have hlocked : ∀ user, (g.role user).isMember → ∃ m, d.members g.workspaceId user = some m ∧
      .member g.workspaceId user m.row g.call.mode ∈ g.held := fun user h => by
    obtain ⟨m, hm, -⟩ := mem_got h
    exact ⟨m, hg _ hm, mem_held hm⟩
  cases w with
  | nothing =>
    cases hd
    exact .refl _ d
  | workspace id =>
    simp only [WorkspaceTables.perform] at hd
    split at hd
    · cases hd
    · next hnew =>
      cases hd
      refine ⟨fun ws user m hm _ => ?_, fun ws user hnone hpolicy _ => ?_, fun ws hpolicy => ?_,
        fun _ _ h => h, fun _ _ _ hin h => .inl ⟨hin, h⟩, fun _ h _ => h,
        fun inv h => ⟨inv, h, rfl, rfl⟩⟩
      · have hne : ws ≠ id := fun heq => hnew (heq ▸ hk.policies ws user m hm)
        rw [members_addMember, if_neg fun hboth => hne hboth.1]
        exact hm
      · have hne : ws ≠ id := fun heq => hnew (heq ▸ hpolicy)
        rw [members_addMember, if_neg fun hboth => hne hboth.1]
        exact hnone
      · show (update d.policies id (some .adminsOnly) ws).isSome
        have hne : ws ≠ id := fun heq => hnew (heq ▸ hpolicy)
        rwa [update_of_ne hne]
  | role _ target =>
    cases hd
    obtain ⟨rfl, actor, hcall, hallowed⟩ := hw
    refine (Spares.refl _ d).updateRole fun m hm => mem_append_left _ ?_
    have htarget := (Bool.and_eq_true_iff.mp (Bool.and_eq_true_iff.mp
      (Bool.and_eq_true_iff.mp hallowed).1).1).2
    obtain ⟨m', hm', hlock⟩ := hlocked target htarget
    obtain rfl := some.inj (hm.symm.trans hm')
    rwa [hcall] at hlock
  | remove ws target rooms =>
    cases hd
    obtain ⟨rfl, ⟨actor, hcall, hallowed⟩, hall⟩ := hw
    have htarget : (g.role target).isMember := by
      rcases hallowed with ⟨-, hleave⟩ | ⟨-, hremove⟩
      · exact (Bool.and_eq_true_iff.mp hleave).1
      · exact (Bool.and_eq_true_iff.mp (Bool.and_eq_true_iff.mp hremove).1).2
    obtain ⟨m, hm, hlock⟩ := hlocked target htarget
    rw [hcall] at hlock
    refine ⟨fun ws user m' hm' hnot => ?_, fun ws user hnone hpolicy _ => ?_, fun _ h => h,
      fun _ _ h => h, fun ws id user hin hsome => .inl ⟨hin, ?_⟩, fun _ h _ => h,
      fun inv h => ⟨inv, h, rfl, rfl⟩⟩
    · rw [members_deleteMember, if_neg]
      · exact hm'
      · rintro ⟨rfl, rfl⟩
        obtain rfl := some.inj (hm.symm.trans hm')
        exact hnot (mem_append_left _ hlock)
    · rw [members_deleteMember]
      split
      · rfl
      · exact hnone
    · change ((if id ∈ rooms ∧ user = target then none else d.roomMembers id user) :
        Option ReadMark).isSome at hsome
      split at hsome
      · cases hsome
      · exact hsome
  | transfer _ actor target =>
    cases hd
    obtain ⟨rfl, hne, hcall, hactor, htarget⟩ := hw
    have hexclusive : ∀ user, (g.role user).isMember → ∀ m, d.members g.workspaceId user = some m →
        .member g.workspaceId user m.row .exclusive ∈ g.held := fun user hmember m hm => by
      obtain ⟨m', hm', hlock⟩ := hlocked user hmember
      obtain rfl := some.inj (hm.symm.trans hm')
      rwa [hcall] at hlock
    refine ((Spares.refl _ d).updateRole fun m hm => mem_append_left _ ?_).updateRole
      fun m hm => mem_append_left _ (hexclusive target htarget m hm)
    exact hexclusive actor (by rw [hactor]; rfl) m hm
  | invite =>
    simp only [WorkspaceTables.perform] at hd
    split at hd
    · cases hd
    · cases hd
      exact ⟨fun _ _ _ h _ => h, fun _ _ h _ _ => h, fun _ h => h, fun _ _ h => h,
        fun _ _ _ hin h => .inl ⟨hin, h⟩, fun _ h _ => mem_append_left _ h,
        fun inv' h => ⟨inv', mem_append_left _ h, rfl, rfl⟩⟩
  | revoke =>
    cases hd
    exact (Spares.refl _ d).updateInvite (fun i => ⟨rfl, rfl⟩) (mem_append_right _ (.head _))
  | accept _ user id joins =>
    cases hd
    obtain ⟨rfl, hnone, hinv, hjoins⟩ := hw
    have hmember : Spares (g.held ++ (WorkspaceWrite.accept g.workspaceId user id joins).keys) d
        (d.addMember g.workspaceId user .member) := by
      refine ⟨fun ws' user' m hm _ => ?_, fun ws' user' hnone' _ hnot => ?_, fun _ h => h,
        fun _ _ h => h, fun _ _ _ hin h => .inl ⟨hin, h⟩, fun _ h _ => h,
        fun inv h => ⟨inv, h, rfl, rfl⟩⟩
      · rw [members_addMember, if_neg]
        · exact hm
        · rintro ⟨rfl, rfl⟩
          cases hnone.symm.trans hm
      · rw [members_addMember, if_neg]
        · exact hnone'
        · rintro ⟨rfl, rfl⟩
          exact hnot (mem_append_right _ (.head _))
    have huse : Spares (g.held ++ (WorkspaceWrite.accept g.workspaceId user id joins).keys) d
        ((d.addMember g.workspaceId user .member).updateInvite id fun i =>
          { i with useCount := i.useCount + 1 }) :=
      hmember.updateInvite (fun i => ⟨rfl, rfl⟩) (mem_append_right _ (.tail _ (.head _)))
    refine huse.addJoins rfl (fun ws' id hin hin' => hk.inWorkspace_unique hin' hin)
      (fun _ _ _ hin _ => hin) fun j hj => ⟨(hjoins j hj).2, .inl ?_⟩
    rw [(hjoins j hj).1]
    exact hnone
  | join joins new =>
    have hrows : ∀ j ∈ joins, (g.role j.userId).isMember → ∃ m mode,
        d.members g.workspaceId j.userId = some m ∧
          .member g.workspaceId j.userId m.row mode ∈ g.held ++ (WorkspaceWrite.join joins new).keys :=
      fun j hj hmember => by
        obtain ⟨m, hm, hlock⟩ := hlocked j.userId hmember
        exact ⟨m, g.call.mode, hm, mem_append_left _ hlock⟩
    cases new with
    | none =>
      cases hd
      exact (Spares.refl _ d).addJoins rfl (fun ws' id hin hin' => hk.inWorkspace_unique hin' hin)
        (fun _ _ _ hin _ => hin)
        fun j hj => ⟨(hw j hj).2, .inr (hrows j hj (hw j hj).1)⟩
    | some row =>
      simp only [WorkspaceTables.perform] at hd
      split at hd
      · cases hd
      · next hnew =>
        cases hd
        obtain ⟨hws, hjoins⟩ := hw
        -- a room is the new one, or was there before
        have hcases : ∀ ws' id,
            ({ d with rooms := d.rooms ++ [row] } : WorkspaceTables).InWorkspace ws' id →
            d.InWorkspace ws' id ∨ (id = row.id ∧ ws' = g.workspaceId) := by
          rintro ws' id ⟨r, hr, rfl, rfl⟩
          rcases mem_append.mp hr with hr | hr
          · exact .inl ⟨r, hr, rfl, rfl⟩
          · rw [mem_singleton.mp hr]
            exact .inr ⟨rfl, hws⟩
        have hadd : Spares (g.held ++ (WorkspaceWrite.join joins (some row)).keys) d
            { d with rooms := d.rooms ++ [row] } := by
          refine ⟨fun _ _ _ h _ => h, fun _ _ h _ _ => h, fun _ h => h, ?_, ?_, fun _ h _ => h,
            fun inv h => ⟨inv, h, rfl, rfl⟩⟩
          · rintro ws id ⟨r, hr, hid⟩
            exact ⟨r, mem_append_left _ hr, hid⟩
          · intro ws id user hin hsome
            rcases hcases ws id hin with hold | ⟨rfl, -⟩
            · exact .inl ⟨hold, hsome⟩
            · obtain ⟨ws', hin', -⟩ := hk.inRooms _ user hsome
              exact absurd hin' (not_inWorkspace_of_room? hnew)
        have hunique : ∀ ws' id,
            ({ d with rooms := d.rooms ++ [row] } : WorkspaceTables).InWorkspace g.workspaceId id →
            ({ d with rooms := d.rooms ++ [row] } : WorkspaceTables).InWorkspace ws' id →
            ws' = g.workspaceId := fun ws' id hin hin' => by
          rcases hcases ws' id hin' with hold' | ⟨-, hws'⟩
          · rcases hcases _ id hin with hold | ⟨rfl, -⟩
            · exact hk.inWorkspace_unique hold' hold
            · exact absurd hold' (not_inWorkspace_of_room? hnew)
          · exact hws'
        refine hadd.addJoins rfl hunique (fun ws' id user hin hsome => ?_)
          fun j hj => ⟨?_, .inr (hrows j hj (hjoins j hj).1)⟩
        · rcases hcases _ id hin with hold | ⟨rfl, -⟩
          · exact hold
          · obtain ⟨ws'', hin', -⟩ := hk.inRooms _ user hsome
            exact absurd hin' (not_inWorkspace_of_room? hnew)
        · exact ⟨row, mem_append_right _ (.head _), (hjoins j hj).2.symm, hws⟩

/-! ### The tables still fit together -/

theorem WorkspaceTables.Keyed.mapRooms
    (hf : ∀ r, (f r).id = r.id ∧ (f r).workspaceId = r.workspaceId) :
    ({ d with rooms := d.rooms.map f } : WorkspaceTables).Keyed where
  rooms := by
    have hids : (d.rooms.map f).map WorkspaceRoom.id = d.rooms.map WorkspaceRoom.id := by
      rw [List.map_map]
      exact map_congr_left fun r _ => (hf r).1
    rw [hids]
    exact hk.rooms
  invites := hk.invites
  isMember := hk.isMember
  policies := hk.policies
  inviteOf := hk.inviteOf
  inRooms := fun id user hsome => by
    obtain ⟨ws, hin, hmember⟩ := hk.inRooms id user hsome
    exact ⟨ws, (inWorkspace_map hf).mpr hin, hmember⟩
  uses := hk.uses
  owner := hk.owner

/-- An invite is written, within its limit. -/
theorem WorkspaceTables.Keyed.updateInvite {id : Ulid}
    {f : WorkspaceInvite → WorkspaceInvite}
    (hf : ∀ i, (f i).id = i.id ∧ (f i).workspaceId = i.workspaceId)
    (huses : ∀ i ∈ d.invites, i.id = id → ∀ n ∈ (f i).maxUses, (f i).useCount ≤ n) :
    (d.updateInvite id f).Keyed where
  rooms := hk.rooms
  invites := by
    have hids : (d.updateInvite id f).invites.map WorkspaceInvite.id =
        d.invites.map WorkspaceInvite.id := by
      show (d.invites.map _).map WorkspaceInvite.id = _
      rw [List.map_map]
      refine map_congr_left fun i _ => ?_
      show WorkspaceInvite.id (if i.id = id then f i else i) = i.id
      split
      · exact (hf i).1
      · rfl
    rw [hids]
    exact hk.invites
  isMember := hk.isMember
  policies := hk.policies
  inviteOf := fun inv hinv => by
    obtain ⟨i, hi, rfl⟩ := List.mem_map.mp hinv
    have hws : (if i.id = id then f i else i).workspaceId = i.workspaceId := by
      split
      · exact (hf i).2
      · rfl
    rw [hws]
    exact hk.inviteOf i hi
  inRooms := hk.inRooms
  uses := fun inv hinv => by
    obtain ⟨i, hi, rfl⟩ := List.mem_map.mp hinv
    split
    · next hid => exact huses i hi hid
    · exact hk.uses i hi
  owner := hk.owner

theorem WorkspaceTables.Keyed.addJoins
    (hjoins : ∀ j ∈ joins, ∃ ws, d.InWorkspace ws j.roomId ∧ (d.members ws j.userId).isSome) :
    (d.addJoins joins).Keyed where
  rooms := hk.rooms
  invites := hk.invites
  isMember := hk.isMember
  policies := hk.policies
  inviteOf := hk.inviteOf
  inRooms := fun id user hsome => by
    rcases isSome_addJoins.mp hsome with ⟨j, hj, rfl, rfl⟩ | hbefore
    · exact hjoins j hj
    · exact hk.inRooms id user hbefore
  uses := hk.uses
  owner := hk.owner

omit hk

/-- A role is changed. -/
theorem WorkspaceTables.Linked.updateRole (hk : d.Linked) {ws : Ulid}
    (hrole : newRole.isMember) : (d.updateRole ws target newRole).Linked where
  rooms := hk.rooms
  invites := hk.invites
  isMember := fun ws' user m hm => by
    rw [members_updateRole] at hm
    split at hm
    · obtain ⟨m₀, -, rfl⟩ := map_eq_some_iff.mp hm
      exact hrole
    · exact hk.isMember ws' user m hm
  policies := fun ws' user m hm => by
    rw [members_updateRole] at hm
    split at hm
    · next hboth =>
      obtain ⟨rfl, rfl⟩ := hboth
      obtain ⟨m₀, hm₀, rfl⟩ := map_eq_some_iff.mp hm
      exact hk.policies _ _ m₀ hm₀
    · exact hk.policies ws' user m hm
  inviteOf := hk.inviteOf
  inRooms := fun id user hsome => by
    obtain ⟨ws', hin, hmember⟩ := hk.inRooms id user hsome
    refine ⟨ws', hin, ?_⟩
    rw [members_updateRole]
    split
    · next hboth =>
      obtain ⟨rfl, rfl⟩ := hboth
      rw [isSome_map]
      exact hmember
    · exact hmember
  uses := hk.uses

theorem WorkspaceTables.role_updateRole_of_ne {ws ws' user : Ulid}
    (hne : ws' ≠ ws) : (d.updateRole ws target newRole).role ws' user = d.role ws' user := by
  unfold WorkspaceTables.role
  rw [members_updateRole, if_neg fun hboth => hne hboth.1]

/-- Somebody comes to a workspace that is there. -/
theorem WorkspaceTables.Linked.addMember (hk : d.Linked) {ws user : Ulid} {role : Role}
    (hpolicy : (d.policies ws).isSome) (hrole : role.isMember) :
    (d.addMember ws user role).Linked where
  rooms := hk.rooms
  invites := hk.invites
  isMember := fun ws' user' m hm => by
    rw [members_addMember] at hm
    split at hm
    · cases hm
      exact hrole
    · exact hk.isMember ws' user' m hm
  policies := fun ws' user' m hm => by
    rw [members_addMember] at hm
    split at hm
    · next hboth =>
      rw [hboth.1]
      exact hpolicy
    · exact hk.policies ws' user' m hm
  inviteOf := hk.inviteOf
  inRooms := fun id user' hsome => by
    obtain ⟨ws', hin, hold⟩ := hk.inRooms id user' hsome
    refine ⟨ws', hin, ?_⟩
    rw [members_addMember]
    split
    · rfl
    · exact hold
  uses := hk.uses

theorem not_owner_of_lt {actor target : Role} (h : decide (target.rank < actor.rank) = true) :
    target ≠ .owner := by
  rintro rfl
  cases actor <;> cases h

/-- A row with an id of its own is added. -/
theorem nodup_concat_of_find {α : Type} {l : List α} {x : α} {id : α → Ulid}
    (h : (l.map id).Nodup) (hnew : ¬ (l.find? fun y => decide (id y = id x)).isSome) :
    ((l ++ [x]).map id).Nodup := by
  rw [map_append, nodup_append]
  refine ⟨h, nodup_singleton _, fun i hi j hj heq => hnew ?_⟩
  obtain ⟨y, hy, rfl⟩ := List.mem_map.mp hi
  exact find?_isSome.mpr ⟨y, hy, decide_eq_true (heq.trans (mem_singleton.mp hj))⟩

/-- **The tables still fit together** after a commit. -/
theorem keyed_perform (hk : d.Keyed) (hg : g.Holds d) (hw : w.Fits d g)
    (hd : d.perform w = some d') : d'.Keyed := by
  have hmember : ∀ user, (g.role user).isMember → (d.members g.workspaceId user).isSome :=
    fun user h => by
      obtain ⟨m, hm, -⟩ := mem_got h
      rw [hg _ hm]
      rfl
  cases w with
  | nothing =>
    cases hd
    exact hk
  | workspace id owner =>
    simp only [WorkspaceTables.perform] at hd
    split at hd
    · cases hd
    · next hnew =>
      cases hd
      -- nobody was in a workspace that was not there
      have hnone : ∀ user, d.members id user = none := fun user => by
        cases hm : d.members id user with
        | none => rfl
        | some m => exact absurd (hk.policies id user m hm) hnew
      have hpolicy : ∀ ws, (d.policies ws).isSome →
          (update d.policies id (some .adminsOnly) ws).isSome := fun ws h => by
        have hne : ws ≠ id := fun heq => hnew (heq ▸ h)
        rwa [update_of_ne hne]
      have hlinked : ({ d with policies := update d.policies id (some .adminsOnly) } :
          WorkspaceTables).Linked :=
        { hk.toLinked with
          policies := fun ws user m hm => hpolicy ws (hk.policies ws user m hm)
          inviteOf := fun inv hinv => hpolicy _ (hk.inviteOf inv hinv) }
      refine ⟨hlinked.addMember (congrArg Option.isSome (update_self id _ d.policies)) rfl,
        fun ws hws => ?_⟩
      · by_cases heq : ws = id
        · subst heq
          refine ⟨owner, ?_, fun user huser => ?_⟩
          · show WorkspaceTables.role _ ws owner = .owner
            unfold WorkspaceTables.role
            rw [members_addMember, if_pos ⟨rfl, rfl⟩]
            rfl
          · by_contra hne
            have hm : (({ d with policies := update d.policies ws (some .adminsOnly) } :
                WorkspaceTables).addMember ws owner .owner).members ws user = none := by
              rw [members_addMember, if_neg fun hboth => hne hboth.2]
              exact hnone user
            cases (role_of_none hm).symm.trans huser
        · have hold : (d.policies ws).isSome := by
            change (update d.policies id (some .adminsOnly) ws).isSome at hws
            rwa [update_of_ne heq] at hws
          refine owner_of_iff (hk.owner ws hold) fun user => ?_
          unfold WorkspaceTables.role
          rw [members_addMember, if_neg fun hboth => heq hboth.1]
  | role ws target =>
    cases hd
    obtain ⟨rfl, actor, -, hallowed⟩ := hw
    obtain ⟨hmanage, hgrant⟩ := Bool.and_eq_true_iff.mp hallowed
    obtain ⟨hboth, hlt⟩ := Bool.and_eq_true_iff.mp hmanage
    have htarget := (Bool.and_eq_true_iff.mp hboth).2
    obtain ⟨hrest, hle⟩ := Bool.and_eq_true_iff.mp hgrant
    obtain ⟨hroles, hnotOwner⟩ := Bool.and_eq_true_iff.mp hrest
    refine ⟨hk.toLinked.updateRole (Bool.and_eq_true_iff.mp hroles).2, fun ws hpolicy => ?_⟩
    -- neither the old nor the new role is that of an owner
    refine owner_of_iff (hk.owner ws hpolicy) fun user => ?_
    rw [role_updateRole _ (hmember target htarget)]
    split
    · next heq =>
      obtain ⟨rfl, rfl⟩ := heq
      rw [hg.role_eq htarget]
      exact iff_of_false (of_decide_eq_true hnotOwner) (not_owner_of_lt hlt)
    · exact .rfl
  | remove ws target rooms =>
    cases hd
    obtain ⟨rfl, ⟨actor, -, hallowed⟩, hall⟩ := hw
    have htarget : (g.role target).isMember ∧ g.role target ≠ .owner := by
      rcases hallowed with ⟨-, hleave⟩ | ⟨-, hremove⟩
      · obtain ⟨hm, hne⟩ := Bool.and_eq_true_iff.mp hleave
        exact ⟨hm, of_decide_eq_true hne⟩
      · obtain ⟨hboth, hlt⟩ := Bool.and_eq_true_iff.mp hremove
        exact ⟨(Bool.and_eq_true_iff.mp hboth).2, not_owner_of_lt hlt⟩
    have hmembers : ∀ {ws user m}, (d.deleteMember g.workspaceId target rooms).members ws user = some m →
        d.members ws user = some m := fun {ws user m} hm => by
      rw [members_deleteMember] at hm
      split at hm
      · cases hm
      · exact hm
    refine ⟨⟨hk.rooms, hk.invites, fun ws user m hm => hk.isMember ws user m (hmembers hm),
      fun ws user m hm => hk.policies ws user m (hmembers hm), hk.inviteOf,
      fun id user hsome => ?_, hk.uses⟩, fun ws hpolicy => ?_⟩
    · change ((if id ∈ rooms ∧ user = target then none else d.roomMembers id user) :
        Option ReadMark).isSome at hsome
      split at hsome
      · cases hsome
      · next hnot =>
        obtain ⟨ws, hin, hold⟩ := hk.inRooms id user hsome
        refine ⟨ws, hin, ?_⟩
        rw [members_deleteMember, if_neg]
        · exact hold
        · rintro ⟨rfl, rfl⟩
          exact hnot ⟨hall id hin hsome, rfl⟩
    · refine owner_of_iff (hk.owner ws hpolicy) fun user => ?_
      unfold WorkspaceTables.role
      rw [members_deleteMember]
      split
      · next heq =>
        obtain ⟨rfl, rfl⟩ := heq
        refine iff_of_false (by decide) fun howner => htarget.2 ?_
        rw [← hg.role_eq htarget.1]
        exact howner
      · exact .rfl
  | transfer ws actor target =>
    cases hd
    obtain ⟨rfl, hne, -, hactor, htarget⟩ := hw
    have hisMember : (g.role actor).isMember := by rw [hactor]; rfl
    have howns : d.role g.workspaceId actor = .owner := (hg.role_eq hisMember).trans hactor
    have hrole : ∀ user, ((d.updateRole g.workspaceId actor .admin).updateRole g.workspaceId target
        .owner).role g.workspaceId user =
          if user = target then .owner else if user = actor then .admin
          else d.role g.workspaceId user := fun user => by
      have hstill : ((d.updateRole g.workspaceId actor .admin).members g.workspaceId target).isSome := by
        rw [members_updateRole, if_neg fun hboth => hne hboth.2.symm]
        exact hmember target htarget
      rw [role_updateRole _ hstill, role_updateRole _ (hmember actor hisMember)]
      simp only [true_and]
    refine ⟨(hk.toLinked.updateRole rfl).updateRole rfl, fun ws hpolicy => ?_⟩
    by_cases hws : ws = g.workspaceId
    · subst hws
      refine ⟨target, ?_, fun user huser => ?_⟩
      · show WorkspaceTables.role _ g.workspaceId target = .owner
        rw [hrole, if_pos rfl]
      · -- the old owner is not an owner any more, and there was no other one
        by_contra hother
        change WorkspaceTables.role _ g.workspaceId user = .owner at huser
        rw [hrole, if_neg hother] at huser
        split at huser
        · cases huser
        · next hnot => exact hnot ((hk.owner _ hpolicy).unique huser howns)
    · refine owner_of_iff (hk.owner ws hpolicy) fun user => ?_
      rw [role_updateRole_of_ne hws, role_updateRole_of_ne hws]
  | invite =>
    simp only [WorkspaceTables.perform] at hd
    split at hd
    · cases hd
    · next hnew =>
      cases hd
      refine ⟨⟨hk.rooms, nodup_concat_of_find hk.invites hnew, hk.isMember, hk.policies, fun inv' hinv' => ?_, hk.inRooms,
        fun inv' hinv' n hn => ?_⟩, hk.owner⟩
      · rcases mem_append.mp hinv' with hinv' | hinv'
        · exact hk.inviteOf inv' hinv'
        · rw [mem_singleton.mp hinv']
          exact hw.1
      · rcases mem_append.mp hinv' with hinv' | hinv'
        · exact hk.uses inv' hinv' n hn
        · rw [mem_singleton.mp hinv', hw.2]
          exact Nat.zero_le n
  | revoke =>
    cases hd
    exact hk.updateInvite (fun i => ⟨rfl, rfl⟩) fun i hi _ => hk.uses i hi
  | accept ws user id =>
    cases hd
    obtain ⟨rfl, hnone, ⟨inv, hinv, rfl, hws, -, huses⟩, hjoins⟩ := hw
    have hpolicy := hk.inviteOf inv hinv
    rw [hws] at hpolicy
    have hadd : (d.addMember g.workspaceId user .member).Keyed := by
      refine ⟨hk.toLinked.addMember hpolicy rfl, fun ws hpolicy => ?_⟩
      refine owner_of_iff (hk.owner ws hpolicy) fun user' => ?_
      unfold WorkspaceTables.role
      rw [members_addMember]
      split
      · next heq =>
        obtain ⟨rfl, rfl⟩ := heq
        rw [hnone]
        exact iff_of_false (fun h => nomatch show Role.member = .owner from h) (by decide)
      · exact .rfl
    have huse : ((d.addMember g.workspaceId user .member).updateInvite inv.id fun i =>
        { i with useCount := i.useCount + 1 }).Keyed := by
      refine hadd.updateInvite (fun i => ⟨rfl, rfl⟩) fun i hi hid n hn => ?_
      obtain rfl := inj_on_of_nodup_map hk.invites hi hinv hid
      exact huses n hn
    refine huse.addJoins fun j hj => ⟨g.workspaceId, (hjoins j hj).2, ?_⟩
    rw [(hjoins j hj).1]
    show ((d.addMember g.workspaceId user .member).members g.workspaceId user).isSome
    rw [members_addMember, if_pos ⟨rfl, rfl⟩]
    rfl
  | join _ new =>
    cases new with
    | none =>
      cases hd
      exact hk.addJoins fun j hj => ⟨g.workspaceId, (hw j hj).2, hmember _ (hw j hj).1⟩
    | some row =>
      simp only [WorkspaceTables.perform] at hd
      split at hd
      · cases hd
      · next hnew =>
        cases hd
        obtain ⟨hws, hjoins⟩ := hw
        have hadd : ({ d with rooms := d.rooms ++ [row] } : WorkspaceTables).Keyed := by
          refine ⟨⟨nodup_concat_of_find hk.rooms hnew, hk.invites, hk.isMember, hk.policies,
            hk.inviteOf, fun id user hsome => ?_, hk.uses⟩, hk.owner⟩
          obtain ⟨ws, ⟨r, hr, hid⟩, hold⟩ := hk.inRooms id user hsome
          exact ⟨ws, ⟨r, mem_append_left _ hr, hid⟩, hold⟩
        exact hadd.addJoins fun j hj => ⟨g.workspaceId,
          ⟨row, mem_append_right _ (.head _), (hjoins j hj).2.symm, hws⟩,
          hmember _ (hjoins j hj).1⟩

end Commit

/-! ## Runs -/

namespace WorkspaceService

variable {s s' : WorkspaceService} {a : WorkspaceAction} {t : WorkspaceTask} {g : Grip}

/-- **What holds of every run**: the tables fit together, what calls have waited for does not
conflict, and what they go by is so. -/
structure Sound (s : WorkspaceService) : Prop where
  keyed : s.tables.Keyed
  compatible : Conflicts.Compatible WorkspaceLock.Conflict WorkspaceTask.kept s.tasks
  fits : ∀ t ∈ s.tasks, t.Fits s.tables

theorem fits_begins (d : WorkspaceTables) (c : WorkspaceCall) : c.begins.Fits d := by
  unfold WorkspaceCall.begins
  split
  · exact trivial
  · next hrefused =>
    have hinput := Bool.eq_false_iff.mpr hrefused
    cases c with
    | createWorkspace => exact ⟨fun p hp => absurd hp not_mem_nil, rfl⟩
    | acceptInvite => exact trivial
    | joinRoom => exact fun ws => ⟨rfl, fun ws' hws => absurd hws (by simp [WorkspaceCall.workspaceId?])⟩
    | addRoomMember =>
      exact fun ws => ⟨rfl, fun ws' hws => absurd hws (by simp [WorkspaceCall.workspaceId?])⟩
    | _ =>
      exact ⟨⟨hinput, fun ws hws => (some.inj hws).symm⟩, nofun⟩

theorem mem_lockOrder {users : List Ulid} {user : Ulid} : user ∈ lockOrder users ↔ user ∈ users := by
  unfold lockOrder
  rw [mem_dedup, mem_insertionSort]

/-- **What a call has decided fits.** -/
theorem fits_decides {room : Option WorkspaceRoom} (hg : g.Holds s.tables)
    (hnames : g.call.Names g.workspaceId) (hk : s.tables.Keyed)
    (hroom : ∀ r ∈ room, s.tables.InWorkspace g.workspaceId r.id) :
    (s.decides g room).Fits s.tables := by
  have hws : ∀ {ws}, g.call.workspaceId? = some ws → ws = g.workspaceId := fun h => hnames.2 _ h
  have hrefuse : ∀ e, (refuse e).Fits s.tables := fun e => trivial
  have hisMember : ∀ {r : Role}, ¬ (!r.isMember) = true → r.isMember = true := fun h => by
    simpa using h
  have hjoined : ∀ {ws target id}, s.tables.InWorkspace ws id →
      (s.tables.roomMembers id target).isSome → id ∈ s.tables.joined ws target := by
    intro ws target id hin hsome
    refine mem_joined.mpr ⟨hin, ?_⟩
    obtain ⟨r, hr, hid, hw⟩ := hin
    exact ⟨r, hr, hid, hw, hsome⟩
  unfold decides
  split
  · next actor ws target newRole hcall =>
    obtain rfl := hws (by rw [hcall]; rfl)
    split
    · exact hrefuse _
    · split
      · next hallowed =>
        refine ⟨hg, ?_⟩
        split
        · exact trivial
        · exact ⟨rfl, actor, hcall, hallowed⟩
      · exact hrefuse _
  · next actor ws target hcall =>
    obtain rfl := hws (by rw [hcall]; rfl)
    split
    · exact hrefuse _
    · split
      · next hself =>
        split
        · next hleave =>
          exact ⟨hg, rfl, ⟨actor, hcall, .inl ⟨hself, hself ▸ hleave⟩⟩, fun id => hjoined⟩
        · exact hrefuse _
      · next hother =>
        split
        · exact hrefuse _
        · split
          · next hremove =>
            exact ⟨hg, rfl, ⟨actor, hcall, .inr ⟨hother, hremove⟩⟩, fun id => hjoined⟩
          · exact hrefuse _
  · next actor ws target hcall =>
    obtain rfl := hws (by rw [hcall]; rfl)
    have hinput := hnames.1
    rw [hcall] at hinput
    have hne : actor ≠ target := of_decide_eq_false hinput
    split
    · exact hrefuse _
    · split
      · exact hrefuse _
      · next howner =>
        split
        · exact hrefuse _
        · next htarget =>
          have hactor : g.role actor = .owner := by
            simpa [canTransferOwnership] using howner
          exact ⟨hg, rfl, hne, hcall, hactor, hisMember htarget⟩
  · next actor ws id codeHash maxUses expiresIn hcall =>
    obtain rfl := hws (by rw [hcall]; rfl)
    split
    · exact hrefuse _
    · next hactor =>
      split
      · obtain ⟨m, hm, -⟩ := mem_got (hisMember hactor)
        exact ⟨hg, hk.policies _ _ m (hg _ hm), rfl⟩
      · exact hrefuse _
  · split
    · exact hrefuse _
    · split
      · exact hrefuse _
      · split
        · exact hg
        · exact hrefuse _
  · next actor room' r hcall =>
    split
    · exact hrefuse _
    · next hread =>
      split
      · exact hrefuse _
      · refine ⟨hg, ?_, hroom r rfl⟩
        -- who may read a room is a member of the workspace
        have hcan : canReadRoom r.authzRoom (s.roomActor g r.id) = true := by simpa using hread
        have hrole := (Bool.and_eq_true_iff.mp hcan).1
        change (g.role g.call.actor).isMember = true at hrole
        rwa [hcall] at hrole
  · split
    · exact hrefuse _
    · split
      · exact hrefuse _
      · split
        · next htarget => exact ⟨hg, htarget, hroom _ rfl⟩
        · exact hrefuse _
  · next actor ws id isPrivate name hcall =>
    obtain rfl := hws (by rw [hcall]; rfl)
    split
    · exact hrefuse _
    · next hactor =>
      split
      · refine ⟨hg, rfl, ?_⟩
        rw [hcall]
        exact hisMember hactor
      · exact hrefuse _
  · next actor ws peer id hcall =>
    obtain rfl := hws (by rw [hcall]; rfl)
    split
    · exact hrefuse _
    · next hactor =>
      split
      · next hpeer =>
        refine ⟨hg, rfl, fun user huser => ?_⟩
        rw [mem_lockOrder, hcall] at huser
        rcases mem_cons.mp huser with rfl | huser
        · exact hisMember hactor
        · rw [mem_singleton.mp huser]
          exact hpeer
      · exact hrefuse _
  · exact hrefuse _

/-- **What a call goes by when it has gone on** is so. -/
theorem fits_turn (hk : s.tables.Keyed) (h : t.Fits s.tables) : (s.turn t).Fits s.tables := by
  have hnil : ∀ {c ws policy}, (⟨c, ws, policy, []⟩ : Grip).Holds s.tables :=
    nofun
  have hinvite : ∀ {id inv}, s.tables.invite? id = some inv → inv ∈ s.tables.invites ∧ inv.id = id :=
    fun {id inv} hfind => ⟨mem_of_find?_eq_some hfind, by simpa using find?_some hfind⟩
  cases t with
  | getRoom =>
    simp only [turn]
    split
    · next r hr =>
      refine ⟨h r.workspaceId, fun r' hr' => ?_⟩
      cases hr'
      obtain ⟨hid, hin⟩ := inWorkspace_room? hr
      rw [hid]
      exact hin
    · exact trivial
  | getInvite =>
    simp only [turn]
    split
    · next inv hinv =>
      split
      · exact trivial
      · exact ⟨hnil, inv, mem_of_find?_eq_some hinv, rfl, rfl⟩
    · exact trivial
  | members => exact ⟨hnil, h.1, h.2⟩
  | locking _ _ todo =>
    obtain ⟨hg, hnames, hroom⟩ := h
    cases todo with
    | nil => exact fits_decides hg hnames hk hroom
    | cons p =>
      obtain ⟨user, row⟩ := p
      refine ⟨fun q hq => ?_, hnames, hroom⟩
      rcases mem_append.mp hq with hq | hq
      · exact hg q hq
      · obtain ⟨m, hm, rfl⟩ := List.mem_map.mp hq
        exact (filter_eq_some_iff.mp (mem_toList.mp hm)).1
  | revoking => exact ⟨h, trivial⟩
  | adding =>
    simp only [turn]
    split
    · exact h.1
    · next hnone => exact ⟨h.1, not_isSome_iff_eq_none.mp hnone, h.2⟩
  | welcoming =>
    simp only [turn]
    split <;> exact trivial
  | consuming =>
    simp only [turn]
    split
    · next inv hinv =>
      split
      · next hconsumable =>
        obtain ⟨hg, hnone, inv', hinv', hid, hws⟩ := h
        obtain ⟨hmem, rfl⟩ := hinvite hinv
        obtain rfl := inj_on_of_nodup_map hk.invites hinv' hmem hid
        obtain ⟨hboth, huses⟩ := Bool.and_eq_true_iff.mp hconsumable
        refine ⟨hg, rfl, hnone, ⟨inv', hinv', rfl, hws, ?_, fun n hn => ?_⟩, nofun⟩
        · simpa using (Bool.and_eq_true_iff.mp hboth).1
        · have hall := huses
          rw [mem_def.mp hn] at hall
          exact of_decide_eq_true hall
      · exact trivial
    · exact trivial
  | joining =>
    obtain ⟨hg, hws, hnone, hinv, -⟩ := h
    exact ⟨hg, hws, hnone, hinv, fun j hj => mem_joinDefaultRooms hj⟩
  | insertRoomMember =>
    obtain ⟨hg, hmember, hin⟩ := h
    simp only [turn]
    split
    · split
      · exact ⟨hg, trivial⟩
      · refine ⟨hg, fun j hj => ?_⟩
        rw [mem_singleton.mp hj]
        exact ⟨hmember, hin⟩
    · exact ⟨hg, trivial⟩
  | insertRoom g row =>
    obtain ⟨hg, hws, hmember⟩ := h
    simp only [turn]
    split
    · exact trivial
    · refine ⟨hg, hws, fun j hj => ?_⟩
      rw [mem_singleton.mp hj]
      exact ⟨hmember, rfl⟩
  | insertDM g row =>
    obtain ⟨hg, hws, hmember⟩ := h
    simp only [turn]
    split
    · next r hr =>
      refine ⟨hg, fun j hj => absurd hj not_mem_nil, hmember, Or.inr ⟨rfl, r,
        mem_of_find?_eq_some hr, rfl, ?_⟩⟩
      have hcond := find?_some hr
      simp only [Bool.and_eq_true, decide_eq_true_eq] at hcond
      rw [hcond.1.1, hws]
    · exact ⟨hg, ⟨hws, nofun⟩, hmember, .inl rfl⟩
  | addDM g _ new todo =>
    obtain ⟨hg, hw, htodo, hnew⟩ := h
    cases todo with
    | nil => exact ⟨hg, hw⟩
    | cons user todo =>
      have hrest : ∀ u ∈ todo, (g.role u).isMember := fun u hu =>
        htodo u (.tail _ hu)
      simp only [turn]
      split
      · exact ⟨hg, hw, hrest, hnew⟩
      · refine ⟨hg, ?_, hrest, hnew⟩
        have huser := htodo user (.head _)
        cases new with
        | none =>
          obtain ⟨-, hin⟩ := hnew.resolve_left (by simp)
          intro j hj
          rcases mem_append.mp hj with hj | hj
          · exact hw j hj
          · rw [mem_singleton.mp hj]
            exact ⟨huser, hin⟩
        | some =>
          obtain rfl := some.inj (hnew.resolve_right (by simp))
          refine ⟨hw.1, fun j hj => ?_⟩
          rcases mem_append.mp hj with hj | hj
          · exact hw.2 j hj
          · rw [mem_singleton.mp hj]
            exact ⟨huser, rfl⟩
  | logging _ _ todo =>
    cases todo with
    | nil =>
      simp only [turn]
      split
      · split
        · exact h
        · exact trivial
      · exact h
    | cons => exact h
  | _ => exact h

/-- **What a step keeps.** -/
theorem Sound.act (hs : Sound s) (hact : s.act a = some s') : Sound s' := by
  have hcompatible := compatible_act hs.compatible hact
  -- what others leave, of whose locks none conflicts
  have hothers : ∀ {d' locks}, Spares locks s.tables d' →
      (∀ (j : ℕ) (u : WorkspaceTask), s.tasks[j]? = some u →
        (∀ l ∈ u.kept, ∀ l' ∈ locks, ¬ l.Conflict l') → u.Fits d') := fun hsp j u hj hc =>
    (hs.fits u (mem_of_getElem? hj)).of_spares hs.keyed hsp hc
  cases step_of_act hact with
  | @commit i g w logged d hi hd =>
    obtain ⟨hg, hw⟩ := hs.fits _ (mem_of_getElem? hi)
    have hrooms : ∀ r : WorkspaceRoom,
        (if r.id ∈ logged then { r with lastMessageSeq := r.lastMessageSeq + 1 } else r).id = r.id ∧
          (if r.id ∈ logged then { r with lastMessageSeq := r.lastMessageSeq + 1 } else r).workspaceId =
            r.workspaceId := fun r => by split <;> exact ⟨rfl, rfl⟩
    refine ⟨(keyed_perform hs.keyed hg hw hd).mapRooms hrooms, hcompatible, fun u hu => ?_⟩
    obtain ⟨j, hj⟩ := mem_iff_getElem?.mp hu
    rcases HeldRows.getElem?_set_cases hj with ⟨-, rfl⟩ | ⟨hne, hju⟩
    · exact trivial
    · exact hothers ((spares_perform hs.keyed hg hw hd).mapRooms hrooms) j u hju
        fun l hl l' hl' => hs.compatible j i u _ hne hju hi l hl l' hl'
  | @turn i t hi hfree hcommit hdone =>
    refine ⟨hs.keyed, hcompatible, fun u hu => ?_⟩
    rcases mem_or_eq_of_mem_set hu with hu | rfl
    · exact hs.fits u hu
    · exact fits_turn hs.keyed (hs.fits t (mem_of_getElem? hi))
  | @fail i t hi hdone =>
    refine ⟨hs.keyed, hcompatible, fun u hu => ?_⟩
    rcases mem_or_eq_of_mem_set hu with hu | rfl
    · exact hs.fits u hu
    · exact trivial
  | start c =>
    refine ⟨hs.keyed, hcompatible, fun u hu => ?_⟩
    rcases mem_append.mp hu with hu | hu
    · exact hs.fits u hu
    · rw [mem_singleton.mp hu]
      exact fits_begins _ c
  | tick => exact ⟨hs.keyed, hcompatible, hs.fits⟩
  | @room a id f ha hfree hf =>
    have hrooms : ∀ r : WorkspaceRoom, (if r.id = id then f r else r).id = r.id ∧
        (if r.id = id then f r else r).workspaceId = r.workspaceId := fun r => by
      split
      · exact ⟨(hf r).1, (hf r).2.1⟩
      · exact ⟨rfl, rfl⟩
    refine ⟨hs.keyed.mapRooms hrooms, hcompatible, fun u hu => ?_⟩
    obtain ⟨j, hj⟩ := mem_iff_getElem?.mp hu
    exact hothers ((Spares.refl [] s.tables).mapRooms hrooms) j u hj nofun
  | @policy ws policy =>
    have hpolicies : ∀ ws', (update s.tables.policies ws
        ((s.tables.policies ws).map fun _ => policy) ws').isSome ↔ (s.tables.policies ws').isSome :=
      fun ws' => by
        by_cases hws : ws' = ws
        · subst hws
          rw [update_self, isSome_map]
        · rw [update_of_ne hws]
    refine ⟨⟨⟨hs.keyed.rooms, hs.keyed.invites, hs.keyed.isMember,
      fun ws' user m hm => (hpolicies ws').mpr (hs.keyed.policies ws' user m hm),
      fun inv hinv => (hpolicies _).mpr (hs.keyed.inviteOf inv hinv), hs.keyed.inRooms,
      hs.keyed.uses⟩, fun ws' hws' => hs.keyed.owner ws' ((hpolicies ws').mp hws')⟩,
      hcompatible, fun u hu => ?_⟩
    obtain ⟨j, hj⟩ := mem_iff_getElem?.mp hu
    have hsp : Spares [] s.tables { s.tables with
        policies := update s.tables.policies ws
          ((s.tables.policies ws).map fun _ => policy) } :=
      ⟨fun _ _ _ h _ => h, fun _ _ h _ _ => h, fun ws' h => (hpolicies ws').mpr h, fun _ _ h => h,
        fun _ _ _ hin h => .inl ⟨hin, h⟩, fun _ h _ => h, fun inv h => ⟨inv, h, rfl, rfl⟩⟩
    exact hothers hsp j u hj nofun

theorem sound_of_reachable (hs : system.Reachable s) : Sound s := by
  refine hs.invariant (I := Sound) (fun s hs => ?_) fun s a s' hs _ hstep => hs.act hstep
  obtain rfl := hs
  exact ⟨⟨⟨nodup_nil, nodup_nil, fun _ _ _ h => absurd h (by simp [empty]),
    fun _ _ _ h => absurd h (by simp [empty]), fun _ h => absurd h not_mem_nil,
    fun _ _ h => absurd h (by simp [empty]), fun _ h => absurd h not_mem_nil⟩,
    fun _ h => absurd h (by simp [empty])⟩, Conflicts.compatible_nil,
    fun _ h => absurd h not_mem_nil⟩

end WorkspaceService

end Hibari
