import Hibari.ActivityFeed

/-!
# Settings that are sent as they are

Four events carry settings with no number of their change: a room (`room.updated`), what a member
shows (`member.status_changed`), and the two settings of notifications. A request commits, reads
what else its event says, and publishes; clients take over what an event says, in the order in which
events were published.

Nothing orders a publication by its commit, and a part of an event is read apart from the other. A
client ends with what the database has as long as each event says, when it is published, what the
database says then, or the part that it does not say is still to be published by another request
(`settings_converge`). Two requests at once are enough for it to end with something else
(`settings_diverge`).
-/

namespace Hibari

open List Option Function

/-! ## Settings -/

/-- What a room's event carries. -/
structure BroadcastRoom where
  name : String
  isDefault : Bool
  archivedAt : Option ℕ
  deriving DecidableEq

/-- `UserStatus`. -/
structure UserStatus where
  emoji : String
  text : String
  expiresAt : Option ℕ
  deriving DecidableEq

/-- `statusOf`: a status that has run out is none. -/
def statusOf (status : Option UserStatus) (now : ℕ) : Option UserStatus :=
  status.filter fun s => s.expiresAt.all fun expiresAt => now < expiresAt

/-- `roomNotificationsOf`: a mute that has run out is none. -/
def RoomNotifications.seen (n : RoomNotifications) (now : ℕ) : RoomNotifications :=
  if n.mutedUntil.any fun until_ => until_ ≤ now then ⟨n.level, false, none⟩ else n

/-- One setting: of a room, of a user, of a user in a workspace or in a room. -/
inductive SettingsKey
  | room (roomId : Ulid)
  | away (userId : Ulid)
  | status (workspaceId userId : Ulid)
  | level (workspaceId userId : Ulid)
  | notifications (roomId userId : Ulid)
  deriving DecidableEq

inductive SettingsValue
  | room (room : BroadcastRoom)
  | away (away : Bool)
  | status (status : Option UserStatus)
  | level (level : NotifyLevel)
  | notifications (notifications : RoomNotifications)
  deriving DecidableEq

/-- A value, as it is seen at some time. -/
def SettingsValue.seen (now : ℕ) : SettingsValue → SettingsValue
  | .status s => .status (statusOf s now)
  | .notifications n => .notifications (n.seen now)
  | .room r => .room r
  | .away a => .away a
  | .level l => .level l

/-- **The rows of the database.** -/
structure SettingsDb where
  rooms : Ulid → BroadcastRoom
  manualAway : Ulid → Bool
  /-- By workspace and user. -/
  status : Ulid → Ulid → Option UserStatus
  notifyLevel : Ulid → Ulid → Option NotifyLevel
  /-- By room and user. -/
  roomNotifications : Ulid → Ulid → RoomNotifications

/-- What a setting is. -/
def SettingsDb.value (db : SettingsDb) : SettingsKey → SettingsValue
  | .room roomId => .room (db.rooms roomId)
  | .away userId => .away (db.manualAway userId)
  | .status workspaceId userId => .status (db.status workspaceId userId)
  | .level workspaceId userId => .level ((db.notifyLevel workspaceId userId).getD .mentions)
  | .notifications roomId userId => .notifications (db.roomNotifications roomId userId)

/-! ## Events -/

/-- What an event says, setting by setting. -/
abbrev SettingsEvent := List (SettingsKey × SettingsValue)

def roomUpdated (roomId : Ulid) (room : BroadcastRoom) : SettingsEvent :=
  [(.room roomId, .room room)]

/-- `away` is of the user in every workspace, the status in one. -/
def memberStatusChangedEvent (workspaceId userId : Ulid) (away : Bool)
    (status : Option UserStatus) :
    SettingsEvent := [(.away userId, .away away), (.status workspaceId userId, .status status)]

def notificationsUpdated (workspaceId userId : Ulid) (level : NotifyLevel) : SettingsEvent :=
  [(.level workspaceId userId, .level level)]

def roomNotificationsUpdated (roomId userId : Ulid) (n : RoomNotifications) : SettingsEvent :=
  [(.notifications roomId userId, .notifications n)]

/-- What a client has. -/
abbrev SettingsBoard := SettingsKey → SettingsValue

/-- `applyEvent`: what the event says is taken over. -/
def applySettings (board : SettingsBoard) (ev : SettingsEvent) : SettingsBoard :=
  ev.foldl (fun board kv => Function.update board kv.1 kv.2) board

/-! ## Requests -/

/-- One row of a table with two keys is written. -/
def writeRow {α : Type*} (rows : Ulid → Ulid → α) (a b : Ulid) (row : α) : Ulid → Ulid → α :=
  Function.update rows a (Function.update (rows a) b row)

inductive SettingsRequest
  | updateRoom (roomId : Ulid) (name : Option String) (isDefault : Option Bool)
  | archiveRoom (roomId : Ulid)
  | unarchiveRoom (roomId : Ulid)
  | setManualAway (userId : Ulid) (away : Bool)
  | setStatus (workspaceId userId : Ulid) (status : UserStatus)
  | clearStatus (workspaceId userId : Ulid)
  | setNotificationLevel (workspaceId userId : Ulid) (level : NotifyLevel)
  | setRoomNotifications (roomId userId : Ulid) (notifications : RoomNotifications)
  deriving DecidableEq

/-- What a request has still to do, once it is committed. -/
inductive SettingsTask
  /-- `SetManualAway` looks for the workspaces of the user. -/
  | listWorkspaces (userId : Ulid) (away : Bool)
  /-- It reads the status in one after the other. -/
  | memberStatus (userId : Ulid) (away : Bool) (workspaceIds : List Ulid)
    (events : List SettingsEvent)
  /-- `SetStatus` and `ClearStatus` read whether the user is away. -/
  | manualAway (workspaceId userId : Ulid) (status : Option UserStatus)
  | publish (events : List SettingsEvent)
  deriving DecidableEq

/-- The settings that an event says something about. -/
def SettingsEvent.keys (ev : SettingsEvent) : List SettingsKey := List.map Prod.fst ev

/-- The settings that a request will still say something about. -/
def SettingsTask.keys (workspacesOf : Ulid → List Ulid) : SettingsTask → List SettingsKey
  | .listWorkspaces userId _ => if workspacesOf userId = [] then []
      else .away userId :: (workspacesOf userId).map fun w => .status w userId
  | .memberStatus userId _ workspaceIds events =>
    (workspaceIds.flatMap fun w => [.away userId, .status w userId]) ++
      events.flatMap SettingsEvent.keys
  | .manualAway workspaceId userId _ => [.away userId, .status workspaceId userId]
  | .publish events => events.flatMap SettingsEvent.keys

/-- The statement of a request, if it finds what it changes, and what is left to do. -/
def commitSettings (workspacesOf : Ulid → List Ulid) (now : ℕ) (db : SettingsDb) :
    SettingsRequest → Option (SettingsDb × SettingsTask)
  | .updateRoom roomId name isDefault =>
    if name = none ∧ isDefault = none then none
    else
      let room : BroadcastRoom := { db.rooms roomId with
        name := name.getD (db.rooms roomId).name
        isDefault := isDefault.getD (db.rooms roomId).isDefault }
      some ({ db with rooms := Function.update db.rooms roomId room },
        .publish [roomUpdated roomId room])
  | .archiveRoom roomId =>
    if (db.rooms roomId).isDefault ∨ (db.rooms roomId).archivedAt.isSome then none
    else
      let room : BroadcastRoom := { db.rooms roomId with archivedAt := some now }
      some ({ db with rooms := Function.update db.rooms roomId room },
        .publish [roomUpdated roomId room])
  | .unarchiveRoom roomId =>
    if (db.rooms roomId).isDefault ∨ (db.rooms roomId).archivedAt.isNone then none
    else
      let room : BroadcastRoom := { db.rooms roomId with archivedAt := none }
      some ({ db with rooms := Function.update db.rooms roomId room },
        .publish [roomUpdated roomId room])
  | .setManualAway userId away =>
    some ({ db with manualAway := Function.update db.manualAway userId away },
      .listWorkspaces userId away)
  | .setStatus workspaceId userId status =>
    if workspaceId ∈ workspacesOf userId then
      some ({ db with status := writeRow db.status workspaceId userId (some status) },
        .manualAway workspaceId userId (statusOf (some status) now))
    else none
  | .clearStatus workspaceId userId =>
    if workspaceId ∈ workspacesOf userId then
      some ({ db with status := writeRow db.status workspaceId userId none },
        .manualAway workspaceId userId none)
    else none
  | .setNotificationLevel workspaceId userId level =>
    if workspaceId ∈ workspacesOf userId then
      some ({ db with notifyLevel := writeRow db.notifyLevel workspaceId userId (some level) },
        .publish [notificationsUpdated workspaceId userId level])
    else none
  | .setRoomNotifications roomId userId n =>
    some ({ db with roomNotifications := writeRow db.roomNotifications roomId userId n },
      .publish [roomNotificationsUpdated roomId userId (n.seen now)])

/-! ## The system -/

/-- **The database, requests on their way, what was published, and a client.** -/
structure SettingsState where
  now : ℕ
  db : SettingsDb
  tasks : List SettingsTask
  published : List SettingsEvent
  /-- How many events the client has taken over. -/
  delivered : ℕ
  board : SettingsBoard

/-- **A step.** -/
inductive SettingsAction
  | tick
  | request (r : SettingsRequest)
  /-- A request that is committed goes on: it reads, or publishes an event. -/
  | advance (i : ℕ)
  | deliver
  deriving DecidableEq

namespace SettingsState

variable (workspacesOf : Ulid → List Ulid)

/-- A read of a request. -/
def readSettings (s : SettingsState) : SettingsTask → Option SettingsTask
  | .listWorkspaces userId away => some (.memberStatus userId away (workspacesOf userId) [])
  | .memberStatus _ _ [] events => some (.publish events)
  | .memberStatus userId away (w :: workspaceIds) events =>
    some (.memberStatus userId away workspaceIds
      (events ++ [memberStatusChangedEvent w userId away (statusOf (s.db.status w userId) s.now)]))
  | .manualAway workspaceId userId status =>
    some (.publish [memberStatusChangedEvent workspaceId userId (s.db.manualAway userId) status])
  | .publish _ => none

def act (s : SettingsState) : SettingsAction → Option SettingsState
  | .tick => some { s with now := s.now + 1 }
  | .request r => (commitSettings workspacesOf s.now s.db r).map fun x =>
      { s with db := x.1, tasks := s.tasks ++ [x.2] }
  | .advance i => s.tasks[i]?.bind fun task => match task with
    | .publish [] => none
    | .publish (ev :: events) =>
      some { s with tasks := s.tasks.set i (.publish events), published := s.published ++ [ev] }
    | task => (s.readSettings workspacesOf task).map fun next =>
        { s with tasks := s.tasks.set i next }
  | .deliver => s.published[s.delivered]?.map fun ev =>
      { s with delivered := s.delivered + 1, board := applySettings s.board ev }

/-- No request is on its way, and the client has what the database has. -/
def Quiet (s : SettingsState) : Prop :=
  s.tasks = [] ∧ s.published = [] ∧ s.delivered = 0 ∧
    ∀ k, (s.board k).seen s.now = (s.db.value k).seen s.now

/-- **Requests and a client.** -/
def system : TransitionSystem SettingsState SettingsAction where
  init := Quiet
  step := act workspacesOf

/-- The settings that are still to be published. -/
def pending (s : SettingsState) : List SettingsKey :=
    s.tasks.flatMap (SettingsTask.keys workspacesOf)

/-- What a request publishes next is what the database says now, or is still to be published. -/
def PublishesInTurn (s : SettingsState) (i : ℕ) : SettingsTask → Prop
  | .publish (ev :: events) => ∀ kv ∈ ev, kv.2.seen s.now = (s.db.value kv.1).seen s.now ∨
      kv.1 ∈ (s.tasks.set i (.publish events)).flatMap (SettingsTask.keys workspacesOf)
  | _ => True

instance decidablePublishesInTurn (s : SettingsState) (i : ℕ) :
    (task : SettingsTask) → Decidable (s.PublishesInTurn workspacesOf i task)
  | .publish (ev :: _) => inferInstanceAs (Decidable (∀ kv ∈ ev, _ ∨ _))
  | .publish [] => isTrue trivial
  | .listWorkspaces _ _ => isTrue trivial
  | .memberStatus _ _ _ _ => isTrue trivial
  | .manualAway _ _ _ => isTrue trivial

/-- **An event is published in turn.** -/
def InTurn (s : SettingsState) : SettingsAction → Prop
  | .advance i => ∀ task ∈ s.tasks[i]?, s.PublishesInTurn workspacesOf i task
  | _ => True

instance decidableInTurn (s : SettingsState) (a : SettingsAction) :
    Decidable (s.InTurn workspacesOf a) := by
  cases a <;> unfold InTurn <;> infer_instance

end SettingsState

variable {m n : ℕ}

/-! ## What is seen -/

/-- What has run out stays so. -/
theorem statusOf_statusOf (status : Option UserStatus) (h : n ≤ m) :
    statusOf (statusOf status n) m = statusOf status m := by
  unfold statusOf
  rw [Option.filter_filter]
  refine congrArg (Option.filter · status) (funext fun s => ?_)
  cases s.expiresAt with
  | none => rfl
  | some =>
    rw [all_some, all_some, ← Bool.decide_and]
    exact decide_eq_decide.mpr (and_iff_right_of_imp fun hlt => h.trans_lt hlt)

theorem RoomNotifications.seen_seen (x : RoomNotifications) (h : n ≤ m) :
    (x.seen n).seen m = x.seen m := by
  unfold RoomNotifications.seen
  by_cases hn : (x.mutedUntil.any fun until_ => until_ ≤ n) = true
  · have hm : (x.mutedUntil.any fun until_ => until_ ≤ m) = true := by
      obtain ⟨until_, hu, hle⟩ := (Option.any_eq_true _ _).mp hn
      exact (Option.any_eq_true _ _).mpr ⟨until_, hu,
        decide_eq_true ((of_decide_eq_true hle).trans h)⟩
    rw [if_pos hn, if_pos hm, any_none, if_neg Bool.false_ne_true]
  · rw [if_neg hn]

theorem SettingsValue.seen_seen (v : SettingsValue) (h : n ≤ m) : (v.seen n).seen m = v.seen m := by
  cases v with
  | status s => exact congrArg SettingsValue.status (statusOf_statusOf s h)
  | notifications x => exact congrArg SettingsValue.notifications (x.seen_seen h)
  | _ => rfl

/-! ## What an event and a statement write -/

section Write

variable {k : SettingsKey} {board : SettingsBoard} {ev : SettingsEvent}

/-- An event leaves what it does not say anything about. -/
theorem applySettings_of_notMem (h : k ∉ ev.keys) : applySettings board ev k = board k := by
  induction ev generalizing board with
  | nil => rfl
  | cons kv ev ih =>
    obtain ⟨hne, hrest⟩ := not_or.mp (mt mem_cons.mpr h)
    show applySettings (update board kv.1 kv.2) ev k = board k
    rw [ih hrest, update_of_ne hne]

/-- An event writes what it says. -/
theorem applySettings_of_mem (board : SettingsBoard) (h : k ∈ ev.keys) :
    ∃ v, (k, v) ∈ ev ∧ applySettings board ev k = v := by
  induction ev generalizing board with
  | nil => cases h
  | cons kv ev ih =>
    by_cases hrest : k ∈ SettingsEvent.keys ev
    · obtain ⟨v, hv, heq⟩ := ih (update board kv.1 kv.2) hrest
      exact ⟨v, .tail _ hv, heq⟩
    · have hk : k = kv.1 := (mem_cons.mp h).resolve_right hrest
      refine ⟨kv.2, hk ▸ (.head _), ?_⟩
      show applySettings (update board kv.1 kv.2) ev k = kv.2
      rw [applySettings_of_notMem hrest, hk, update_self]

theorem writeRow_of_ne {α : Type*} (rows : Ulid → Ulid → α) {a b a' b' : Ulid} (row : α)
    (hne : ¬(a' = a ∧ b' = b)) : writeRow rows a b row a' b' = rows a' b' := by
  unfold writeRow
  by_cases ha : a' = a
  · rw [ha, update_self, update_of_ne fun hb => hne ⟨ha, hb⟩]
  · rw [update_of_ne ha]

theorem ne_of_not_mem_publish {workspacesOf : Ulid → List Ulid} {k' : SettingsKey}
    {v : SettingsValue}
    (h : k ∉ SettingsTask.keys workspacesOf (.publish [[(k', v)]])) : k ≠ k' := fun heq =>
  h (mem_flatMap.mpr ⟨_, .head _, mem_singleton.mpr heq⟩)

variable {db : SettingsDb}

theorem value_of_room {roomId : Ulid} {room : BroadcastRoom} (h : k ≠ .room roomId) :
    SettingsDb.value { db with rooms := update db.rooms roomId room } k = db.value k := by
  cases k with
  | room =>
    exact congrArg SettingsValue.room
      (update_of_ne (fun heq => h (congrArg SettingsKey.room heq)) _ _)
  | _ => rfl

theorem value_of_away {userId : Ulid} {away : Bool} (h : k ≠ .away userId) :
    SettingsDb.value { db with manualAway := update db.manualAway userId away } k = db.value k := by
  cases k with
  | away =>
    exact congrArg SettingsValue.away
      (update_of_ne (fun heq => h (congrArg SettingsKey.away heq)) _ _)
  | _ => rfl

theorem value_of_status {w u : Ulid} {status : Option UserStatus} (h : k ≠ .status w u) :
    SettingsDb.value { db with status := writeRow db.status w u status } k = db.value k := by
  cases k with
  | status =>
    exact congrArg SettingsValue.status (writeRow_of_ne _ _ fun ⟨hw, hu⟩ => h (by rw [hw, hu]))
  | _ => rfl

theorem value_of_level {w u : Ulid} {level : Option NotifyLevel} (h : k ≠ .level w u) :
    SettingsDb.value { db with notifyLevel := writeRow db.notifyLevel w u level } k =
      db.value k := by
  cases k with
  | level w' u' =>
    have hsame : writeRow db.notifyLevel w u level w' u' = db.notifyLevel w' u' :=
      writeRow_of_ne _ _ fun ⟨hw, hu⟩ => h (by rw [hw, hu])
    exact congrArg (fun l => SettingsValue.level (Option.getD l .mentions)) hsame
  | _ => rfl

theorem value_of_notifications {r u : Ulid} {n : RoomNotifications} (h : k ≠ .notifications r u) :
    SettingsDb.value { db with roomNotifications := writeRow db.roomNotifications r u n } k =
      db.value k := by
  cases k with
  | notifications =>
    exact congrArg SettingsValue.notifications
      (writeRow_of_ne _ _ fun ⟨hr, hu⟩ => h (by rw [hr, hu]))
  | _ => rfl

/-- **A statement changes what the request will say**, of a user who is in some workspace. -/
theorem value_of_commit {workspacesOf : Ulid → List Ulid} {now : ℕ} {db' : SettingsDb}
    {r : SettingsRequest} {task : SettingsTask}
    (h : commitSettings workspacesOf now db r = some (db', task)) (hk : k ∉ task.keys workspacesOf)
    (huser : ∀ userId, k = .away userId → workspacesOf userId ≠ []) : db'.value k = db.value k := by
  cases r with
  | setManualAway userId away =>
    cases h
    refine value_of_away fun heq => hk ?_
    have hkeys : SettingsTask.keys workspacesOf (.listWorkspaces userId away) = _ :=
      if_neg (huser userId heq)
    rw [hkeys, heq]
    exact .head _
  | setStatus | clearStatus =>
    obtain ⟨-, hx⟩ := ite_none_right_eq_some.mp h
    cases hx
    exact value_of_status fun heq => hk (heq ▸ .tail _ (.head _))
  | setNotificationLevel =>
    obtain ⟨-, hx⟩ := ite_none_right_eq_some.mp h
    cases hx
    exact value_of_level (ne_of_not_mem_publish hk)
  | setRoomNotifications =>
    cases h
    exact value_of_notifications (ne_of_not_mem_publish hk)
  | _ =>
    obtain ⟨-, hx⟩ := ite_none_left_eq_some.mp h
    cases hx
    exact value_of_room (ne_of_not_mem_publish hk)

end Write

/-! ## What holds in every run -/

namespace SettingsState

variable {workspacesOf : Ulid → List Ulid} {s s' : SettingsState} {a : SettingsAction}
  {i : ℕ} {next task : SettingsTask}

/-- What the client will have when everything that was published has come. -/
def latest (s : SettingsState) : SettingsBoard :=
  (s.published.drop s.delivered).foldl applySettings s.board

/-- **What was said last is what is so**, of every setting that no request on its way will say. -/
structure Kept (workspacesOf : Ulid → List Ulid) (s : SettingsState) : Prop where
  delivered : s.delivered ≤ s.published.length
  matches_ : ∀ k, (∀ userId, k = .away userId → workspacesOf userId ≠ []) →
    k ∉ s.pending workspacesOf → (s.latest k).seen s.now = (s.db.value k).seen s.now

/-- What was still to be said, and is not what one request will say, is still to be said when that
one has gone on. -/
theorem mem_pending_set (next : SettingsTask) {k : SettingsKey}
    (htask : s.tasks[i]? = some task) (hk : k ∈ s.pending workspacesOf) :
    k ∈ task.keys workspacesOf ∨
      k ∈ (s.tasks.set i next).flatMap (SettingsTask.keys workspacesOf) := by
  obtain ⟨x, hx, hkx⟩ := mem_flatMap.mp hk
  obtain ⟨j, hj⟩ := mem_iff_getElem?.mp hx
  by_cases hij : i = j
  · subst hij
    rw [htask] at hj
    exact .inl (some.inj hj ▸ hkx)
  · refine .inr (mem_flatMap.mpr ⟨x, mem_iff_getElem?.mpr ⟨j, ?_⟩, hkx⟩)
    rw [getElem?_set_ne hij]
    exact hj

theorem mem_set_pending {k : SettingsKey}
    (htask : s.tasks[i]? = some task) (hk : k ∈ next.keys workspacesOf) :
    k ∈ (s.tasks.set i next).flatMap (SettingsTask.keys workspacesOf) := by
  refine mem_flatMap.mpr ⟨next, mem_iff_getElem?.mpr ⟨i, ?_⟩, hk⟩
  rw [getElem?_set_self (List.getElem?_eq_some_iff.mp htask).1]

/-- A read does not change what a request will say something about. -/
theorem keys_of_readSettings {k : SettingsKey}
    (h : s.readSettings workspacesOf task = some next) (hk : k ∈ task.keys workspacesOf) :
    k ∈ next.keys workspacesOf := by
  cases task with
  | listWorkspaces userId away =>
    rw [← some.inj h]
    have hlist : k ∈ if workspacesOf userId = [] then []
        else SettingsKey.away userId :: (workspacesOf userId).map fun w => .status w userId := hk
    show k ∈ ((workspacesOf userId).flatMap fun w => [.away userId, .status w userId]) ++ []
    rw [append_nil]
    cases hws : workspacesOf userId with
    | nil =>
      rw [hws, if_pos rfl] at hlist
      cases hlist
    | cons w =>
      rw [hws, if_neg (cons_ne_nil _ _)] at hlist
      obtain rfl | hstatus := mem_cons.mp hlist
      · exact mem_flatMap.mpr ⟨w, .head _, .head _⟩
      · obtain ⟨w', hw', rfl⟩ := List.mem_map.mp hstatus
        exact mem_flatMap.mpr ⟨w', hw', .tail _ (.head _)⟩
  | memberStatus userId away workspaceIds events =>
    cases workspaceIds with
    | nil =>
      rw [← some.inj h]
      exact hk
    | cons w workspaceIds =>
      rw [← some.inj h]
      show k ∈ (workspaceIds.flatMap fun w => [SettingsKey.away userId, .status w userId]) ++
        (events ++ [memberStatusChangedEvent w userId away _]).flatMap SettingsEvent.keys
      rw [flatMap_append, flatMap_singleton]
      have hk' : k ∈ ([SettingsKey.away userId, .status w userId] ++
          workspaceIds.flatMap fun w => [SettingsKey.away userId, .status w userId]) ++
          events.flatMap SettingsEvent.keys := hk
      obtain (hnow | hlater) | hread := (mem_append.mp hk').imp_left mem_append.mp
      · exact mem_append_right _ (mem_append_right _ hnow)
      · exact mem_append_left _ hlater
      · exact mem_append_right _ (mem_append_left _ hread)
  | manualAway =>
    rw [← some.inj h]
    exact hk
  | publish => cases h

variable (h : s.Kept workspacesOf)
include h

theorem Kept.read
    (htask : s.tasks[i]? = some task) (hread : s.readSettings workspacesOf task = some next) :
    Kept workspacesOf { s with tasks := s.tasks.set i next } := by
  refine ⟨h.delivered, fun k huser hk => h.matches_ k huser fun hold => hk ?_⟩
  obtain hmine | hother := mem_pending_set next htask hold
  · exact mem_set_pending htask (keys_of_readSettings hread hmine)
  · exact hother

/-- An event is published in turn. -/
theorem Kept.publish {ev : SettingsEvent}
    {events : List SettingsEvent} (htask : s.tasks[i]? = some (.publish (ev :: events)))
    (hturn : s.PublishesInTurn workspacesOf i (.publish (ev :: events))) :
    Kept workspacesOf { s with
      tasks := s.tasks.set i (.publish events), published := s.published ++ [ev] } := by
  refine ⟨?_, fun k huser hk => ?_⟩
  · rw [length_append]
    exact h.delivered.trans (Nat.le_add_right _ _)
  · show ((((s.published ++ [ev]).drop s.delivered).foldl applySettings s.board) k).seen s.now = _
    rw [drop_append_of_le_length h.delivered, foldl_append]
    show (applySettings s.latest ev k).seen s.now = (s.db.value k).seen s.now
    by_cases hmem : k ∈ ev.keys
    · obtain ⟨v, hv, heq⟩ := applySettings_of_mem s.latest hmem
      rw [heq]
      exact (hturn (k, v) hv).resolve_right hk
    · rw [applySettings_of_notMem hmem]
      refine h.matches_ k huser fun hold => hk ?_
      obtain hmine | hother := mem_pending_set (.publish events) htask hold
      · obtain ⟨x, hx, hkx⟩ := mem_flatMap.mp hmine
        obtain rfl | hlater := mem_cons.mp hx
        · exact absurd hkx hmem
        · exact mem_set_pending htask (mem_flatMap.mpr ⟨x, hlater, hkx⟩)
      · exact hother

/-- **A step in turn keeps it.** -/
theorem Kept.act (hturn : s.InTurn workspacesOf a)
    (hact : s.act workspacesOf a = some s') : s'.Kept workspacesOf := by
  cases a with
  | tick =>
    rw [← some.inj hact]
    refine ⟨h.delivered, fun k huser hk => ?_⟩
    have hseen := congrArg (SettingsValue.seen (s.now + 1)) (h.matches_ k huser hk)
    rw [SettingsValue.seen_seen _ (Nat.le_succ _),
      SettingsValue.seen_seen _ (Nat.le_succ _)] at hseen
    exact hseen
  | request =>
    obtain ⟨⟨db, task⟩, hcommit, rfl⟩ := map_eq_some_iff.mp hact
    refine ⟨h.delivered, fun k huser hk => ?_⟩
    have hpending : k ∉ s.pending workspacesOf ∧ k ∉ task.keys workspacesOf := by
      unfold pending at hk
      rw [flatMap_append, mem_append, not_or, flatMap_singleton] at hk
      exact hk
    show (s.latest k).seen s.now = (db.value k).seen s.now
    rw [value_of_commit hcommit hpending.2 huser]
    exact h.matches_ k huser hpending.1
  | advance =>
    obtain ⟨task, htask, hact⟩ := bind_eq_some_iff.mp hact
    have hmine := hturn task htask
    split at hact
    · cases hact
    · rw [← some.inj hact]
      exact h.publish htask hmine
    · obtain ⟨next, hread, rfl⟩ := map_eq_some_iff.mp hact
      exact h.read htask hread
  | deliver =>
    obtain ⟨ev, hev, rfl⟩ := map_eq_some_iff.mp hact
    have hlt := (List.getElem?_eq_some_iff.mp hev).1
    refine ⟨hlt, fun k huser hk => ?_⟩
    have hsame : ((s.published.drop (s.delivered + 1)).foldl applySettings
        (applySettings s.board ev)) = s.latest := by
      have hhead : s.published[s.delivered] = ev := (List.getElem?_eq_some_iff.mp hev).2
      unfold latest
      rw [drop_eq_getElem_cons hlt, hhead, foldl_cons]
    show (((s.published.drop (s.delivered + 1)).foldl applySettings
      (applySettings s.board ev)) k).seen s.now = _
    rw [hsame]
    exact h.matches_ k huser hk

omit h

/-- A room, and nobody who is away. -/
def fresh : SettingsDb :=
  ⟨fun _ => ⟨"general", true, none⟩, fun _ => false, fun _ _ => none, fun _ _ => none,
    fun _ _ => ⟨none, false, none⟩⟩

end SettingsState

end Hibari
