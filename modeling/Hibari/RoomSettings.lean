import Hibari.HeldRows
import Hibari.RoomArchive

/-!
# The settings and the members of a room

The calls that change a room as they run at once, statement by statement: its name, whether
it is a default room, whether it is archived, who its members are, and that it is deleted.
`loadRoomAccess` reads the room's row and then the memberships, and what it decides by them
is decided for good: the row is not locked before the call writes.

* An `UPDATE` of the room's row waits for it, and keeps it until the end. The `UPDATE`s of
  `UpdateRoom` and of log lines ask nothing of the row; those of `ArchiveRoom` and
  `UnarchiveRoom` ask the flag again.
* A membership is a row. An `INSERT` waits as long as somebody else adds or removes the same
  member, and a `DELETE` waits where the row that it sees is being removed.
* A row that is added refers to the room, which cannot be deleted meanwhile, and is not added
  while the room is being deleted. The row of a room that is deleted takes those of its
  members with it.

Nothing that a transaction writes is seen by others before it commits. A transaction may fail
at any place, and then it has written nothing. Who is what in the workspace stays as it is,
and the calls only share those rows. Names come as they are normalized, and the numbers of
other messages are given out by `post`.
-/

namespace Hibari

open List Option

/-! ## Who may do what -/

def canJoinRoom (r : AuthzRoom) (a : RoomActor) : Bool :=
  !r.archived && decide (r.kind = .roomPublic) && a.role.isMember

def canAddRoomMember (r : AuthzRoom) (a : RoomActor) : Bool :=
  !r.archived && decide (r.kind = .roomPrivate) && canReadRoom r a

/-- An archived room is not changed, so it does not become a default room. -/
def canUpdateRoom (r : AuthzRoom) (a : RoomActor) : Bool :=
  !r.archived && decide (r.kind ≠ .roomDM) && decide (Role.admin.rank ≤ a.role.rank) &&
    canReadRoom r a

def canRemoveRoomMember (r : AuthzRoom) (a : RoomActor) (target : Role) : Bool :=
  !r.archived && decide (r.kind ≠ .roomDM) && canManage a.role target && canReadRoom r a

/-- Archived rooms may be left. -/
def canLeaveRoom (r : AuthzRoom) (a : RoomActor) : Bool :=
  decide (r.kind = .roomPublic ∨ r.kind = .roomPrivate) && a.role.isMember && a.isRoomMember

def canDeleteRoom (r : AuthzRoom) (a : RoomActor) : Bool :=
  decide (r.kind ≠ .roomDM) && !r.isDefault && decide (Role.admin.rank ≤ a.role.rank) &&
    canReadRoom r a

/-! ## The room -/

/-- A log line that says no more than what happened. -/
def SystemEvent.plain (type : SystemEventType) : SystemEvent := ⟨type, none, none, none, none⟩

def SystemEvent.renamed (oldName newName : String) : SystemEvent :=
  ⟨.roomRenamed, some oldName, some newName, none, none⟩

/-- The row of a room, as `GetRoom` reads it. -/
structure RoomInfo where
  name : Option String
  isDefault : Bool
  archived : Bool
  deriving DecidableEq

/-- A line of the room's log, and who it is about. -/
structure RoomLine where
  seq : ℕ
  senderId : Ulid
  event : SystemEvent
  deriving DecidableEq

/-- **What the database has of a room**: its row, its members, and its log in the order in
which the lines were committed. -/
structure RoomState extends RoomInfo where
  members : Finset Ulid
  lastMessageSeq : ℕ
  log : List RoomLine
  deriving DecidableEq

/-- What does not change in a run: the room's kind, and who is what in the workspace. -/
structure RoomStanding where
  kind : RoomKind
  roles : Ulid → Role

/-- `authzRoom`. -/
def RoomStanding.authzRoom (d : RoomStanding) (room : RoomInfo) : AuthzRoom :=
  ⟨d.kind, room.isDefault, room.archived⟩

/-- `roomAccess.actor`, by the members that were read. -/
def RoomStanding.actor (d : RoomStanding) (members : Finset Ulid) (user : Ulid) : RoomActor :=
  ⟨d.roles user, decide (user ∈ members)⟩

/-! ## The calls -/

/-- A call, with the values that are given for what it changes. -/
inductive RoomCall
  | updateRoom (actor : Ulid) (name : Option String) (isDefault : Option Bool)
  | setRoomArchived (actor : Ulid) (archive : Bool)
  | deleteRoom (actor : Ulid)
  | joinRoom (actor : Ulid)
  | addRoomMember (actor target : Ulid)
  | removeRoomMember (actor target : Ulid)
  deriving DecidableEq

/-- How a call ends. -/
inductive RoomResult
  | ok
  | refused (error : ChatError)
  | userNotInWorkspace
  deriving DecidableEq

namespace RoomCall

def actor : RoomCall → Ulid
  | updateRoom actor _ _ | setRoomArchived actor _ | deleteRoom actor | joinRoom actor
  | addRoomMember actor _ | removeRoomMember actor _ => actor

/-- What a call asks once it may read the room. -/
def check (d : RoomStanding) (room : RoomInfo) (members : Finset Ulid) :
    RoomCall → Option RoomResult
  | updateRoom actor _ _ =>
    (authorize (d.authzRoom room) fun r => canUpdateRoom r (d.actor members actor)).map .refused
  | setRoomArchived actor archive =>
    if d.kind = .roomDM || room.isDefault then some (.refused .roomProtected)
    else if archive && room.archived then some (.refused .roomArchived)
    else if !archive && !room.archived then some (.refused .roomNotArchived)
    else if (if archive then canArchiveRoom (d.authzRoom room) (d.actor members actor)
        else canUnarchiveRoom (d.authzRoom room) (d.actor members actor)) then none
    else some (.refused .forbidden)
  | deleteRoom actor =>
    if d.kind = .roomDM || room.isDefault then some (.refused .roomProtected)
    else if canDeleteRoom (d.authzRoom room) (d.actor members actor) then none
    else some (.refused .forbidden)
  | joinRoom actor =>
    (authorize (d.authzRoom room) fun r => canJoinRoom r (d.actor members actor)).map .refused
  | addRoomMember actor target =>
    match authorize (d.authzRoom room) fun r => canAddRoomMember r (d.actor members actor) with
    | some error => some (.refused error)
    | none => if (d.roles target).isMember then none else some .userNotInWorkspace
  | removeRoomMember actor target =>
    if d.kind = .roomDM then some (.refused .forbidden)
    else if target ∉ members then some (.refused .notFound)
    else if actor = target then
      if canLeaveRoom (d.authzRoom room) (d.actor members actor) then none
      else some (.refused .forbidden)
    else (authorize (d.authzRoom room) fun r =>
      canRemoveRoomMember r (d.actor members actor) (d.roles target)).map .refused

/-- **Why a call is refused**, if it is: who may not read the room finds none. -/
def refusal (d : RoomStanding) (room : RoomInfo) (members : Finset Ulid) (c : RoomCall) :
    Option RoomResult :=
  if canReadRoom (d.authzRoom room) (d.actor members c.actor) then c.check d room members
  else some (.refused .notFound)

end RoomCall

/-- What a transaction has written of the members: a member was added, or the row of one was
deleted, if it was found. -/
inductive MemberWrite
  | join (target : Ulid)
  | remove (target : Ulid) (self found : Bool)
  deriving DecidableEq

/-- **What a transaction has written.** The name that was read decides about the log line. -/
inductive RoomWrite
  | nothing
  | update (actor : Ulid) (name : Option String) (isDefault : Option Bool)
      (previousName : Option String)
  | archive (actor : Ulid) (archive : Bool)
  | delete
  | member (w : MemberWrite)
  deriving DecidableEq

/-- **A call, as far as it has come.** What it is about to do next names it. -/
inductive RoomCallTask
  /-- About to read the room's row. -/
  | access (c : RoomCall)
  /-- About to read the memberships, and to decide. -/
  | memberships (c : RoomCall) (room : RoomInfo)
  /-- `UpdateRoom`: waiting for the room's row. -/
  | update (actor : Ulid) (name : Option String) (isDefault : Option Bool)
      (previousName : Option String)
  /-- `setRoomArchived`: waiting for the room's row, to write the log line. -/
  | archiveLog (actor : Ulid) (archive : Bool)
  /-- About to set the flag. -/
  | archiveFlag (actor : Ulid) (archive : Bool)
  /-- `DeleteRoom`: waiting for the room's row. -/
  | deleteLock
  /-- Waiting for the rows of its members. -/
  | deleteRow
  /-- About to add a member. -/
  | insertMember (target : Ulid) (reader : Option Ulid)
  /-- About to delete the row of a member. -/
  | deleteMember (target : Ulid) (self : Bool)
  /-- Waiting for the room's row, to write the log line. -/
  | logMember (w : MemberWrite) (reader : Option Ulid)
  /-- `getRoom`: about to read the room for the answer. -/
  | confirm (reader : Ulid) (w : RoomWrite)
  | commit (w : RoomWrite)
  | done (result : RoomResult)
  deriving DecidableEq

/-- The rows of members that a transaction has. -/
def MemberWrite.held : MemberWrite → List RoomRow
  | join target | remove target _ true => [.roomMember target]
  | remove _ _ false => []

/-- The rows that it has in the end. -/
def RoomWrite.held : RoomWrite → List RoomRow
  | nothing => []
  | update _ _ _ _ | archive _ _ | delete => [.room]
  | member w => .room :: w.held

/-- A row was added that refers to the room. -/
def MemberWrite.shares : MemberWrite → Bool
  | join _ => true
  | remove _ _ _ => false

namespace RoomCallTask

/-- The rows that a call has locked. -/
def held : RoomCallTask → List RoomRow
  | archiveFlag _ _ | deleteRow => [.room]
  | logMember w _ => w.held
  | confirm _ w | commit w => w.held
  | _ => []

/-- The room cannot be deleted. -/
def keyShare : RoomCallTask → Bool
  | logMember w _ | confirm _ (.member w) | commit (.member w) => w.shares
  | _ => false

/-- The room is being deleted. -/
def deletes : RoomCallTask → Bool
  | deleteRow | commit .delete => true
  | _ => false

/-- A call is about to end; some read the room first. -/
def finish (reader : Option Ulid) (w : RoomWrite) : RoomCallTask :=
  match reader with
  | some user => confirm user w
  | none => commit w

end RoomCallTask

/-- **How a call goes on** that is not refused. -/
def RoomCall.begins (room : RoomInfo) : RoomCall → RoomCallTask
  | updateRoom actor none none => .confirm actor .nothing
  | updateRoom actor name isDefault => .update actor name isDefault room.name
  | setRoomArchived actor archive => .archiveLog actor archive
  | deleteRoom _ => .deleteLock
  | joinRoom actor => .insertMember actor (some actor)
  | addRoomMember _ target => .insertMember target none
  | removeRoomMember actor target => .deleteMember target (decide (actor = target))

namespace RoomState

variable (r : RoomState)

/-- `writeSystemMessage`. -/
def logged (senderId : Ulid) (event : SystemEvent) : RoomState :=
  { r with
    lastMessageSeq := r.lastMessageSeq + 1
    log := r.log ++ [⟨r.lastMessageSeq + 1, senderId, event⟩] }

/-- The `UPDATE` of `UpdateRoom`: what is not given stays. -/
def updateRoom (name : Option String) (isDefault : Option Bool) : RoomState :=
  { r with
    name := name <|> r.name
    isDefault := isDefault.getD r.isDefault }

/-- `UpdateRoom`, with the log line of a new name. -/
def renamed (actor : Ulid) (name : Option String) (isDefault : Option Bool)
    (previousName : Option String) : RoomState :=
  match name, previousName with
  | some newName, some oldName =>
    if newName ≠ oldName then (r.updateRoom name isDefault).logged actor (.renamed oldName newName)
    else r.updateRoom name isDefault
  | _, _ => r.updateRoom name isDefault

/-- `setRoomArchived`. -/
def setArchived (actor : Ulid) (archive : Bool) : RoomState :=
  { r.logged actor (.plain (if archive then .roomArchived else .roomUnarchived)) with
    archived := archive }

/-- A member, and the log line. -/
def performMember : MemberWrite → RoomState
  | .join target => { r with members := insert target r.members }.logged target (.plain .memberJoined)
  | .remove target self found =>
    { r with members := if found then r.members.erase target else r.members }.logged target
      (.plain (if self then .memberLeft else .memberRemoved))

/-- **What a transaction leaves of the room.** -/
def perform : RoomWrite → Option RoomState
  | .nothing => some r
  | .update actor name isDefault previousName => some (r.renamed actor name isDefault previousName)
  | .archive actor archive => some (r.setArchived actor archive)
  | .delete => none
  | .member w => some (r.performMember w)

end RoomState

/-- **A room, as long as there is one, and the calls to it.** -/
structure RoomDesk where
  room : Option RoomState
  tasks : List RoomCallTask
  deriving DecidableEq

/-- What happens: a call begins, goes on or fails; somebody posts a message. -/
inductive RoomDeskAction
  | start (c : RoomCall)
  | step (i : ℕ)
  | fail (i : ℕ)
  | post
  deriving DecidableEq

namespace RoomDesk

variable (d : RoomStanding) (s : RoomDesk)

/-- No call holds a row. -/
abbrev FreeRow (r : RoomRow) : Prop := HeldRows.Free RoomCallTask.held s.tasks r

/-- The members of the room, if there is one. -/
def members : Finset Ulid := (s.room.map RoomState.members).getD ∅

/-- A call goes on. -/
def goes (i : ℕ) (t : RoomCallTask) : RoomDesk := { s with tasks := s.tasks.set i t }

/-- A call waits for a row, and goes on. -/
def locks (r : RoomRow) (i : ℕ) (t : RoomCallTask) : Option RoomDesk :=
  if s.FreeRow r then some (s.goes i t) else none

/-- A call goes on if the room is there. -/
def there (t : RoomCallTask) : RoomCallTask :=
  if s.room.isSome then t else .done (.refused .failed)

/-- A call commits. -/
def commits (i : ℕ) (w : RoomWrite) : RoomDesk :=
  { s with room := s.room.bind fun r => r.perform w }.goes i (.done .ok)

/-- **One step of a call.** -/
def next (i : ℕ) : RoomCallTask → Option RoomDesk
  | .access c => some (s.goes i (match s.room with
      | some r => .memberships c r.toRoomInfo
      | none => .done (.refused .notFound)))
  | .memberships c room => some (s.goes i (match c.refusal d room s.members with
      | some result => .done result
      | none => c.begins room))
  | .update actor name isDefault previousName =>
    s.locks .room i (s.there (.confirm actor (.update actor name isDefault previousName)))
  | .archiveLog actor archive => s.locks .room i (s.there (.archiveFlag actor archive))
  | .archiveFlag actor archive =>
    -- the condition of the `UPDATE`, on the row that is locked by now
    some (s.goes i (if s.room.any fun r => decide (r.archived ≠ archive) then
        .confirm actor (.archive actor archive)
      else .done (.refused (if archive then .roomArchived else .roomNotArchived))))
  | .deleteLock =>
    if s.tasks.all fun t => !t.keyShare then s.locks .room i (s.there .deleteRow) else none
  | .deleteRow =>
    if ∀ user ∈ s.members, s.FreeRow (.roomMember user) then some (s.goes i (.commit .delete))
    else none
  | .insertMember target reader =>
    if s.tasks.all fun t => !t.deletes then
      s.locks (.roomMember target) i
        (if s.room.any fun r => decide (target ∉ r.members) then .logMember (.join target) reader
          else .finish reader .nothing)
    else none
  | .deleteMember target self =>
    if target ∈ s.members then
      s.locks (.roomMember target) i (.logMember (.remove target self true) none)
    -- no row is found, and whether one was is not asked
    else some (s.goes i (.logMember (.remove target self false) none))
  | .logMember w reader => s.locks .room i (s.there (.finish reader (.member w)))
  | .confirm reader w =>
    -- a transaction sees what it has written itself
    some (s.goes i (if (s.room.bind fun r => r.perform w).any fun r =>
        canReadRoom (d.authzRoom r.toRoomInfo) (d.actor r.members reader) then .commit w
      else .done (.refused .notFound)))
  | .commit w => some (s.commits i w)
  | .done _ => none

/-- One step. -/
def act : RoomDeskAction → Option RoomDesk
  | .start c => some { s with tasks := s.tasks ++ [.access c] }
  | .step i => s.tasks[i]?.bind (next d s i)
  | .fail i =>
    match s.tasks[i]? with
    | some (.done _) | none => none
    | some _ => some (s.goes i (.done (.refused .failed)))
  | .post =>
    if s.FreeRow .room then
      (s.room.filter fun r => !r.archived).map fun r =>
        { s with room := some { r with lastMessageSeq := r.lastMessageSeq + 1 } }
    else none

end RoomDesk

/-- **A room that was just made**: rooms have names, direct messages have none and are not
default rooms, and the log begins with the line that says who made it. -/
structure RoomState.Created (d : RoomStanding) (r : RoomState) : Prop where
  name : r.name.isSome ↔ d.kind ≠ .roomDM
  isDefault : d.kind = .roomDM → r.isDefault = false
  archived : r.archived = false
  log : r.log = [] ∨ ∃ creator, r.log = [⟨r.lastMessageSeq, creator, .plain .roomCreated⟩]

/-- **The calls to a room at once**, from a room that was just made. -/
def RoomDesk.system (d : RoomStanding) : TransitionSystem RoomDesk RoomDeskAction where
  init s := ∃ r, s = ⟨some r, []⟩ ∧ r.Created d
  step s a := RoomDesk.act d s a

namespace RoomDesk

variable {d : RoomStanding} {s s' : RoomDesk} {a : RoomDeskAction} {i : ℕ} {t t' : RoomCallTask}

/-! ## What a step is -/

/-- **A commit.** -/
inductive Commits (s : RoomDesk) : RoomDeskAction → RoomDesk → Prop
  | commit {i : ℕ} {w : RoomWrite} : s.tasks[i]? = some (.commit w) →
      Commits s (.step i) (s.commits i w)
  | post {r : RoomState} : s.FreeRow .room → s.room = some r → r.archived = false →
      Commits s .post { s with room := some { r with lastMessageSeq := r.lastMessageSeq + 1 } }

/-- **What a call does in a step in which it does not commit.** -/
inductive Turn (d : RoomStanding) (s : RoomDesk) : RoomCallTask → RoomCallTask → Prop
  | access {c : RoomCall} {r : RoomState} : s.room = some r →
      Turn d s (.access c) (.memberships c r.toRoomInfo)
  | begins {c : RoomCall} {room : RoomInfo} : c.refusal d room s.members = none →
      Turn d s (.memberships c room) (c.begins room)
  | update {actor : Ulid} {name : Option String} {isDefault : Option Bool}
      {previousName : Option String} : s.FreeRow .room →
      Turn d s (.update actor name isDefault previousName)
        (.confirm actor (.update actor name isDefault previousName))
  | archiveLog {actor : Ulid} {archive : Bool} : s.FreeRow .room →
      Turn d s (.archiveLog actor archive) (.archiveFlag actor archive)
  | archiveFlag {actor : Ulid} {archive : Bool} {r : RoomState} : s.room = some r →
      r.archived ≠ archive → Turn d s (.archiveFlag actor archive) (.confirm actor (.archive actor archive))
  | deleteLock : (∀ u ∈ s.tasks, u.keyShare = false) → s.FreeRow .room →
      Turn d s .deleteLock .deleteRow
  | deleteRow : (∀ user ∈ s.members, s.FreeRow (.roomMember user)) →
      Turn d s .deleteRow (.commit .delete)
  | insert {target : Ulid} {reader : Option Ulid} {r : RoomState} : s.FreeRow (.roomMember target) →
      s.room = some r → target ∉ r.members →
      Turn d s (.insertMember target reader) (.logMember (.join target) reader)
  | known {target : Ulid} {reader : Option Ulid} :
      Turn d s (.insertMember target reader) (.finish reader .nothing)
  | found {target : Ulid} {self : Bool} : s.FreeRow (.roomMember target) → target ∈ s.members →
      Turn d s (.deleteMember target self) (.logMember (.remove target self true) none)
  | lost {target : Ulid} {self : Bool} : target ∉ s.members →
      Turn d s (.deleteMember target self) (.logMember (.remove target self false) none)
  | logMember {w : MemberWrite} {reader : Option Ulid} : s.FreeRow .room →
      Turn d s (.logMember w reader) (.finish reader (.member w))
  | confirm {reader : Ulid} {w : RoomWrite} : Turn d s (.confirm reader w) (.commit w)
  | ended {t : RoomCallTask} {result : RoomResult} : Turn d s t (.done result)

theorem locks_eq_some {r : RoomRow} (hlocks : s.locks r i t = some s') :
    s.FreeRow r ∧ s' = s.goes i t := by
  unfold locks at hlocks
  by_cases hfree : s.FreeRow r
  · rw [if_pos hfree] at hlocks
    exact ⟨hfree, (some.inj hlocks).symm⟩
  · rw [if_neg hfree] at hlocks
    cases hlocks

theorem turn_there (hturn : Turn d s t t') : Turn d s t (s.there t') := by
  unfold there
  split
  · exact hturn
  · exact .ended

/-- **A step of a call**: it commits, or goes on. -/
theorem next_cases (hi : s.tasks[i]? = some t) (hnext : next d s i t = some s') :
    Commits s (.step i) s' ∨ ∃ t', s' = s.goes i t' ∧ Turn d s t t' := by
  have hgoes : ∀ {t'}, Turn d s t t' → some (s.goes i t') = some s' →
      Commits s (.step i) s' ∨ ∃ t', s' = s.goes i t' ∧ Turn d s t t' :=
    fun {t'} hturn heq => .inr ⟨t', (some.inj heq).symm, hturn⟩
  have hlocks : ∀ {r t'}, (s.FreeRow r → Turn d s t t') → s.locks r i t' = some s' →
      Commits s (.step i) s' ∨ ∃ t', s' = s.goes i t' ∧ Turn d s t t' := fun {r t'} hturn heq =>
    .inr ⟨t', (locks_eq_some heq).2, hturn (locks_eq_some heq).1⟩
  cases t with
  | access =>
    simp only [next] at hnext
    cases hr : s.room with
    | none =>
      rw [hr] at hnext
      exact hgoes .ended hnext
    | some =>
      rw [hr] at hnext
      exact hgoes (.access hr) hnext
  | memberships c room =>
    simp only [next] at hnext
    cases hrefusal : c.refusal d room s.members with
    | none =>
      rw [hrefusal] at hnext
      exact hgoes (.begins hrefusal) hnext
    | some =>
      rw [hrefusal] at hnext
      exact hgoes .ended hnext
  | update =>
    exact hlocks (fun hfree => turn_there (.update hfree)) hnext
  | archiveLog => exact hlocks (fun hfree => turn_there (.archiveLog hfree)) hnext
  | archiveFlag =>
    simp only [next] at hnext
    split at hnext
    · next hany =>
      obtain ⟨r, hr, hne⟩ := (Option.any_eq_true _ _).mp hany
      exact hgoes (.archiveFlag hr (of_decide_eq_true hne)) hnext
    · exact hgoes .ended hnext
  | deleteLock =>
    simp only [next] at hnext
    split at hnext
    · next hshares =>
      refine hlocks (fun hfree => turn_there (.deleteLock (fun u hu => ?_) hfree)) hnext
      simpa using List.all_eq_true.mp hshares u hu
    · cases hnext
  | deleteRow =>
    simp only [next] at hnext
    split at hnext
    · next hfree => exact hgoes (.deleteRow hfree) hnext
    · cases hnext
  | insertMember =>
    simp only [next] at hnext
    split at hnext
    · split at hnext
      · next hany =>
        obtain ⟨r, hr, hnot⟩ := (Option.any_eq_true _ _).mp hany
        exact hlocks (fun hfree => .insert hfree hr (of_decide_eq_true hnot)) hnext
      · exact hlocks (fun _ => .known) hnext
    · cases hnext
  | deleteMember =>
    simp only [next] at hnext
    split at hnext
    · next hmem => exact hlocks (fun hfree => .found hfree hmem) hnext
    · next hnot => exact hgoes (.lost hnot) hnext
  | logMember => exact hlocks (fun hfree => turn_there (.logMember hfree)) hnext
  | confirm =>
    simp only [next] at hnext
    split at hnext
    · exact hgoes .confirm hnext
    · exact hgoes .ended hnext
  | commit =>
    cases hnext
    exact .inl (.commit hi)
  | done => exact absurd hnext (by simp [next])

/-- **What a step is**: a commit, a call that begins, or one that goes on. -/
theorem act_cases (hact : act d s a = some s') :
    Commits s a s' ∨ (∃ c, a = .start c ∧ s' = { s with tasks := s.tasks ++ [.access c] }) ∨
    ∃ i t t', (a = .step i ∨ ∃ result, t' = .done result) ∧ s.tasks[i]? = some t ∧
      s' = s.goes i t' ∧ Turn d s t t' := by
  cases a with
  | start c => exact .inr (.inl ⟨c, rfl, (some.inj hact).symm⟩)
  | step i =>
    obtain ⟨t, hi, hnext⟩ := bind_eq_some_iff.mp hact
    rcases next_cases hi hnext with hcommits | ⟨t', rfl, hturn⟩
    · exact .inl hcommits
    · exact .inr (.inr ⟨i, t, t', .inl rfl, hi, rfl, hturn⟩)
  | fail i =>
    simp only [act] at hact
    split at hact
    · cases hact
    · cases hact
    · next t hnot hi =>
      exact .inr (.inr ⟨i, t, _, .inr ⟨_, rfl⟩, hi, (some.inj hact).symm, .ended⟩)
  | post =>
    simp only [act] at hact
    split at hact
    · next hfree =>
      obtain ⟨r, hr, rfl⟩ := map_eq_some_iff.mp hact
      obtain ⟨hroom, harchived⟩ := filter_eq_some_iff.mp hr
      exact .inl (.post hfree hroom (by simpa using harchived))
    · cases hact

/-! ## No row is held twice -/

theorem held_finish (reader : Option Ulid) (w : RoomWrite) :
    (RoomCallTask.finish reader w).held = w.held := by
  cases reader <;> rfl

theorem held_begins (c : RoomCall) (room : RoomInfo) : (c.begins room).held = [] := by
  unfold RoomCall.begins
  split <;> rfl

/-- A row that is taken was free. -/
theorem Turn.rows (hturn : Turn d s t t') : ∀ r ∈ t'.held, r ∈ t.held ∨ s.FreeRow r := by
  intro r hr
  cases hturn with
  | access => cases hr
  | begins =>
    rw [held_begins] at hr
    cases hr
  | update hfree =>
    rw [mem_singleton.mp hr]
    exact .inr hfree
  | archiveLog hfree =>
    rw [mem_singleton.mp hr]
    exact .inr hfree
  | archiveFlag => exact .inl hr
  | deleteLock _ hfree =>
    rw [mem_singleton.mp hr]
    exact .inr hfree
  | deleteRow => exact .inl hr
  | insert hfree =>
    rw [mem_singleton.mp hr]
    exact .inr hfree
  | known =>
    rw [held_finish] at hr
    cases hr
  | found hfree =>
    rw [mem_singleton.mp hr]
    exact .inr hfree
  | lost => cases hr
  | logMember hfree =>
    rw [held_finish] at hr
    rcases mem_cons.mp hr with rfl | hr
    · exact .inr hfree
    · exact .inl hr
  | confirm => exact .inl hr
  | ended => cases hr

theorem apart_act (hs : HeldRows.Apart RoomCallTask.held s.tasks) (hact : act d s a = some s') :
    HeldRows.Apart RoomCallTask.held s'.tasks := by
  rcases act_cases hact with hc | ⟨c, -, rfl⟩ | ⟨i, t, t', -, hi, rfl, hturn⟩
  · cases hc with
    | commit hi => exact hs.set hi nofun
    | post => exact hs
  · exact hs.concat rfl
  · exact hs.set hi hturn.rows

/-! ## What others leave of the room -/

/-- **What a commit leaves of the room** that has these rows. -/
structure Spares (rows : List RoomRow) (r r' : RoomState) : Prop where
  info : .room ∉ rows → r'.toRoomInfo = r.toRoomInfo
  members : ∀ user, .roomMember user ∉ rows → (user ∈ r'.members ↔ user ∈ r.members)

theorem spares_refl (rows : List RoomRow) (r : RoomState) : Spares rows r r :=
  ⟨fun _ => rfl, fun _ _ => .rfl⟩

theorem members_renamed (r : RoomState) (actor : Ulid) (name : Option String)
    (isDefault : Option Bool) (previousName : Option String) :
    (r.renamed actor name isDefault previousName).members = r.members := by
  unfold RoomState.renamed
  split
  · split <;> rfl
  · rfl

theorem spares_perform {r r' : RoomState} {w : RoomWrite} (h : r.perform w = some r') :
    Spares w.held r r' := by
  cases w with
  | nothing =>
    cases h
    exact spares_refl _ r
  | update =>
    cases h
    refine ⟨fun hrow => absurd (.head _) hrow, fun user _ => ?_⟩
    rw [members_renamed]
  | archive =>
    cases h
    exact ⟨fun hrow => absurd (.head _) hrow, fun user _ => .rfl⟩
  | delete => exact absurd h (by simp [RoomState.perform])
  | member w =>
    cases h
    refine ⟨fun hrow => absurd (.head _) hrow, fun user hrow => ?_⟩
    cases w with
    | join target =>
      have hne : user ≠ target := fun heq =>
        hrow (heq ▸ .tail _ (.head _))
      show user ∈ insert target r.members ↔ _
      rw [Finset.mem_insert, or_iff_right hne]
    | remove target _ found =>
      cases found with
      | false => exact .rfl
      | true =>
        have hne : user ≠ target := fun heq =>
          hrow (heq ▸ .tail _ (.head _))
        show user ∈ r.members.erase target ↔ _
        rw [Finset.mem_erase, and_iff_right hne]

/-- **What a call goes by holds until it ends**, if others leave it as long as they do not have
its rows, and the call itself keeps it as it goes on. -/
theorem holds_act {P : RoomState → RoomCallTask → Prop}
    (hspares : ∀ {r r' rows t}, P r t → Spares rows r r' → (∀ x ∈ t.held, x ∉ rows) → P r' t)
    (haccess : ∀ r c, P r (.access c)) (hdone : ∀ r result, P r (.done result))
    (hturn : ∀ i r t t', a = .step i → s.tasks[i]? = some t → s.room = some r → P r t →
      Turn d s t t' → P r t')
    (hs : HeldRows.Apart RoomCallTask.held s.tasks)
    (hP : ∀ r, s.room = some r → ∀ t ∈ s.tasks, P r t) (hact : act d s a = some s') :
    ∀ r, s'.room = some r → ∀ t ∈ s'.tasks, P r t := by
  intro r' hr' u hu
  rcases act_cases hact with hc | ⟨c, -, rfl⟩ | ⟨i, t, t', ha, hi, rfl, hgoes⟩
  · cases hc with
    | @commit i w hi =>
      obtain ⟨r, hr, hperform⟩ := bind_eq_some_iff.mp hr'
      obtain ⟨j, hj⟩ := mem_iff_getElem?.mp hu
      rcases HeldRows.getElem?_set_cases hj with ⟨-, rfl⟩ | ⟨hne, hj⟩
      · exact hdone r' _
      · exact hspares (hP r hr u (mem_of_getElem? hj)) (spares_perform hperform)
          fun x hx => hs.notMem hj hi hne hx
    | @post r hfree hr harchived =>
      cases hr'
      have hspares' : Spares [] r { r with lastMessageSeq := r.lastMessageSeq + 1 } :=
        ⟨fun _ => rfl, fun _ _ => .rfl⟩
      exact hspares (hP r hr u hu) hspares' fun x _ => not_mem_nil
  · rcases mem_append.mp hu with hu | hu
    · exact hP r' hr' u hu
    · rw [mem_singleton.mp hu]
      exact haccess r' c
  · rcases mem_or_eq_of_mem_set hu with hu | rfl
    · exact hP r' hr' u hu
    · rcases ha with ha | ⟨result, rfl⟩
      · exact hturn i r' t u ha hi hr' (hP r' hr' t (mem_of_getElem? hi)) hgoes
      · exact hdone r' result

/-- A room that is there was there before. -/
theorem room_of_act {r' : RoomState} (hact : act d s a = some s') (hr' : s'.room = some r') :
    ∃ r, s.room = some r ∧ (r' = r ∨ (∃ n, r.lastMessageSeq ≤ n ∧ r' = { r with lastMessageSeq := n }) ∨
      ∃ i w, a = .step i ∧ s.tasks[i]? = some (.commit w) ∧ r.perform w = some r') := by
  rcases act_cases hact with hc | ⟨c, -, rfl⟩ | ⟨i, t, t', -, -, rfl, -⟩
  · cases hc with
    | @commit i w hi =>
      obtain ⟨r, hr, hperform⟩ := bind_eq_some_iff.mp hr'
      exact ⟨r, hr, .inr (.inr ⟨i, w, rfl, hi, hperform⟩)⟩
    | @post r hfree hr harchived =>
      exact ⟨r, hr, .inr (.inl ⟨_, Nat.le_succ _, (some.inj hr').symm⟩)⟩
  · exact ⟨r', hr', .inl rfl⟩
  · exact ⟨r', hr', .inl rfl⟩

/-! ## A room to run calls on -/

/-- A room with an administrator and a member. -/
def twoPeople : RoomStanding := ⟨.roomPublic, fun user => if user = 1 then .admin else .member⟩

/-- It was just made, and the member has joined. -/
def newRoom : RoomState :=
  ⟨⟨some "a", false, false⟩, {1, 2}, 1, [⟨1, 1, .plain .roomCreated⟩]⟩

theorem init_newRoom : (system twoPeople).init ⟨some newRoom, []⟩ :=
  ⟨newRoom, rfl, by decide, by decide, rfl, .inr ⟨1, rfl⟩⟩

end RoomDesk

end Hibari
