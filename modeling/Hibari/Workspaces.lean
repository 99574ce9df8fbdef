import Hibari.Conflicts
import Hibari.RoomSettings

/-!
# Workspaces and who is in them

The calls that make a workspace, bring users into it, change what they are there and take them
out again, as they run at once, statement by statement.

* Who changes or removes a member locks the rows of both first (`LockWorkspaceMembers`), one by one
  in the order of the users, and decides by the roles that are read when they are locked. Who goes
  by a role without changing it shares the rows in the same order.
* An invite is accepted by adding the member first. An `INSERT` waits as long as somebody else has
  added, changed or removed the same member and has not committed; a row that is only locked is
  found at once. Then the invite is consumed by an `UPDATE` that asks everything again, and the
  member joins the default rooms.
* A member who leaves and comes back gets a new row. A statement that waits for the old one does
  not find it, and does not see the new one.

Nothing that a transaction writes is seen by others before it commits, and where it fails, which
may happen at any place, nothing is ever seen. A call reads the clock once for its decisions.

Names come as they are normalized and invite codes as their hashes. Ids are drawn: a row whose id
is there already is not added. The unique index on the owners of a workspace is left out, as nothing
here rests on it. Events, profiles and presence are not part of this.
-/

namespace Hibari

/-! ## Who may do what -/

/-- The role of an owner is not granted, but handed over. -/
def canGrant (actor role : Role) : Bool :=
  actor.isMember && role.isMember && decide (role ≠ .owner) && decide (role.rank ≤ actor.rank)

def canChangeRole (actor target newRole : Role) : Bool :=
  canManage actor target && canGrant actor newRole

def canRemoveMember (actor target : Role) : Bool := canManage actor target

/-- An owner cannot leave before somebody else is the owner. -/
def canLeaveWorkspace (actor : Role) : Bool := actor.isMember && decide (actor ≠ .owner)

def canTransferOwnership (actor : Role) : Bool := decide (actor = .owner)

def canCreateRoom (actor : Role) : Bool := actor.isMember

/-- Who may make invites. -/
inductive InvitePolicy
  | adminsOnly
  | allMembers
  deriving DecidableEq

def canCreateInvite (actor : Role) (policy : InvitePolicy) : Bool :=
  decide (Role.admin.rank ≤ actor.rank) ||
    (decide (actor = .member) && decide (policy = .allMembers))

def canRevokeInvite (actor : Role) (policy : InvitePolicy) (isCreator : Bool) : Bool :=
  decide (Role.admin.rank ≤ actor.rank) || (isCreator && canCreateInvite actor policy)

/-! ## The tables -/

/-- A row of `workspace_members`, with a number that tells it from earlier ones of the same user. -/
structure MemberRow where
  role : Role
  row : ℕ
  deriving DecidableEq

/-- A row of `rooms`. -/
structure WorkspaceRoom extends RoomInfo where
  id : Ulid
  workspaceId : Ulid
  kind : RoomKind
  dmKey : Option (Ulid × Ulid)
  lastMessageSeq : ℕ
  lastUserSeq : ℕ
  deriving DecidableEq

/-- What a member of a room has read of it. -/
structure ReadMark where
  lastReadSeq : ℕ
  lastReadUserSeq : ℕ
  deriving DecidableEq

/-- Everything that is there is read. -/
def WorkspaceRoom.mark (r : WorkspaceRoom) : ReadMark := ⟨r.lastMessageSeq, r.lastUserSeq⟩

def WorkspaceRoom.authzRoom (r : WorkspaceRoom) : AuthzRoom := ⟨r.kind, r.isDefault, r.archived⟩

/-- A row of `room_members`. -/
structure RoomJoin where
  roomId : Ulid
  userId : Ulid
  mark : ReadMark
  deriving DecidableEq

/-- A row of `workspace_invites`. -/
structure WorkspaceInvite where
  id : Ulid
  workspaceId : Ulid
  codeHash : String
  createdBy : Ulid
  maxUses : Option ℕ
  useCount : ℕ
  expiresAt : ℕ
  revokedAt : Option ℕ
  deriving DecidableEq

/-- How a call ends that does not go through. -/
inductive WorkspaceError
  | chat (e : ChatError)
  | ownerMustTransfer
  | userNotInWorkspace
  | roomNameTaken
  | inviteInvalid
  | inviteExpired
  | inviteExhausted
  deriving DecidableEq

namespace WorkspaceInvite

inductive Status
  | active
  | exhausted
  | expired
  | revoked
  deriving DecidableEq

/-- `inviteStatus`: what a person decided comes first. -/
def status (inv : WorkspaceInvite) (now : ℕ) : Status :=
  if inv.revokedAt.isSome then .revoked
  else if inv.expiresAt ≤ now then .expired
  else if inv.maxUses.any fun n => decide (n ≤ inv.useCount) then .exhausted
  else .active

/-- `statusError`. -/
def Status.error : Status → Option WorkspaceError
  | revoked => some .inviteInvalid
  | expired => some .inviteExpired
  | exhausted => some .inviteExhausted
  | active => none

/-- The condition of `ConsumeInvite`. -/
def consumable (inv : WorkspaceInvite) (now : ℕ) : Bool :=
  inv.revokedAt.isNone && decide (now < inv.expiresAt) &&
    inv.maxUses.all fun n => decide (inv.useCount < n)

end WorkspaceInvite

/-- **The tables**: `workspaces`, by their policies, and what belongs to them. -/
structure WorkspaceTables where
  policies : Ulid → Option InvitePolicy
  members : Ulid → Ulid → Option MemberRow
  rows : ℕ
  rooms : List WorkspaceRoom
  roomMembers : Ulid → Ulid → Option ReadMark
  invites : List WorkspaceInvite

namespace WorkspaceTables

variable (d : WorkspaceTables)

/-- The role of a user in a workspace. -/
def role (ws user : Ulid) : Role := ((d.members ws user).map MemberRow.role).getD .none

def room? (id : Ulid) : Option WorkspaceRoom := d.rooms.find? fun r => decide (r.id = id)

def invite? (id : Ulid) : Option WorkspaceInvite := d.invites.find? fun i => decide (i.id = id)

/-- `AddWorkspaceMember`. -/
def addMember (ws user : Ulid) (role : Role) : WorkspaceTables :=
  { d with
    members := Function.update d.members ws
      (Function.update (d.members ws) user (some ⟨role, d.rows⟩))
    rows := d.rows + 1 }

/-- `UpdateWorkspaceMemberRole`. -/
def updateRole (ws user : Ulid) (role : Role) : WorkspaceTables :=
  { d with
    members := Function.update d.members ws
      (Function.update (d.members ws) user ((d.members ws user).map fun m => { m with role := role })) }

/-- `DeleteWorkspaceMember`, after the rows in `room_members` that were found. -/
def deleteMember (ws user : Ulid) (rooms : List Ulid) : WorkspaceTables :=
  { d with
    members := Function.update d.members ws (Function.update (d.members ws) user none)
    roomMembers := fun r u => if r ∈ rooms ∧ u = user then none else d.roomMembers r u }

/-- Rows are added to `room_members`. -/
def addJoins (joins : List RoomJoin) : WorkspaceTables :=
  { d with
    roomMembers := fun r u => (joins.find? fun j => decide (j.roomId = r ∧ j.userId = u)).elim
      (d.roomMembers r u) fun j => some j.mark }

/-- Log lines are written to rooms. -/
def addLogs (logged : List Ulid) : WorkspaceTables :=
  { d with rooms := d.rooms.map fun r =>
      if r.id ∈ logged then { r with lastMessageSeq := r.lastMessageSeq + 1 } else r }

/-- The row of an invite is written. -/
def updateInvite (id : Ulid) (f : WorkspaceInvite → WorkspaceInvite) : WorkspaceTables :=
  { d with invites := d.invites.map fun i => if i.id = id then f i else i }

/-- The rooms of a workspace that a user is in. -/
def joined (ws user : Ulid) : List Ulid :=
  (d.rooms.filter fun r => decide (r.workspaceId = ws) && (d.roomMembers r.id user).isSome).map
    WorkspaceRoom.id

/-- `JoinDefaultRooms`: the rows that are added. -/
def joinDefaultRooms (ws user : Ulid) : List RoomJoin :=
  (d.rooms.filter fun r => decide (r.workspaceId = ws) && r.isDefault &&
    (d.roomMembers r.id user).isNone).map fun r => ⟨r.id, user, r.mark⟩

end WorkspaceTables

/-! ## The calls -/

/-- A call, with what is drawn for it. -/
inductive WorkspaceCall
  | createWorkspace (actor id : Ulid)
  | changeMemberRole (actor ws target : Ulid) (newRole : Role)
  | removeMember (actor ws target : Ulid)
  | transferOwnership (actor ws target : Ulid)
  | createInvite (actor ws id : Ulid) (codeHash : String) (maxUses : Option ℕ) (expiresIn : ℕ)
  | revokeInvite (actor ws invite : Ulid)
  | acceptInvite (actor : Ulid) (codeHash : String)
  | joinRoom (actor room : Ulid)
  | addRoomMember (actor room target : Ulid)
  | createRoom (actor ws id : Ulid) (isPrivate : Bool) (name : String)
  | createDM (actor ws peer id : Ulid)
  deriving DecidableEq

inductive LockMode
  | share
  | exclusive
  deriving DecidableEq

/-- The times of invites, in seconds, and how often they may be used. -/
def inviteMaxUsesLimit : ℕ := 1000
def inviteMinTTL : ℕ := 60
def inviteMaxTTL : ℕ := 30 * 24 * 60 * 60

/-- The order in which rows of users are locked. -/
def lockOrder (users : List Ulid) : List Ulid := (users.insertionSort (· ≤ ·)).dedup

namespace WorkspaceCall

def actor : WorkspaceCall → Ulid
  | createWorkspace actor _ | changeMemberRole actor _ _ _ | removeMember actor _ _
  | transferOwnership actor _ _ | createInvite actor _ _ _ _ _ | revokeInvite actor _ _
  | acceptInvite actor _ | joinRoom actor _ | addRoomMember actor _ _ | createRoom actor _ _ _ _
  | createDM actor _ _ _ => actor

/-- The workspace that a call names, if it names one. -/
def workspaceId? : WorkspaceCall → Option Ulid
  | createWorkspace _ ws | changeMemberRole _ ws _ _ | removeMember _ ws _
  | transferOwnership _ ws _ | createInvite _ ws _ _ _ _ | revokeInvite _ ws _
  | createRoom _ ws _ _ _ | createDM _ ws _ _ => some ws
  | acceptInvite _ _ | joinRoom _ _ | addRoomMember _ _ _ => none

/-- The members whose rows a call locks. -/
def users : WorkspaceCall → List Ulid
  | changeMemberRole actor _ target _ | removeMember actor _ target
  | transferOwnership actor _ target | addRoomMember actor _ target => [actor, target]
  | createDM actor _ peer _ => [actor, peer]
  | c => [c.actor]

def mode : WorkspaceCall → LockMode
  | changeMemberRole _ _ _ _ | removeMember _ _ _ | transferOwnership _ _ _ => .exclusive
  | _ => .share

/-- The input is refused before anything is read. -/
def refused : WorkspaceCall → Bool
  | changeMemberRole _ _ _ newRole => !newRole.isMember
  | transferOwnership actor _ target => decide (actor = target)
  | createInvite _ _ _ _ maxUses expiresIn =>
    (maxUses.any fun n => decide (n < 1 ∨ inviteMaxUsesLimit < n)) ||
      decide (expiresIn < inviteMinTTL ∨ inviteMaxTTL < expiresIn)
  | createDM actor _ peer _ => decide (actor = peer)
  | _ => false

end WorkspaceCall

/-- What a call goes by: whom it is by, and the rows of members that it has locked. -/
structure Grip where
  call : WorkspaceCall
  workspaceId : Ulid
  policy : Option InvitePolicy
  got : List (Ulid × MemberRow)
  deriving DecidableEq

/-- The role that a user had when the row was locked. -/
def Grip.role (g : Grip) (user : Ulid) : Role :=
  ((g.got.find? fun p => decide (p.1 = user)).map fun p => p.2.role).getD .none

/-- **What a transaction has written.** A use of an invite is written with the member and the
rooms. -/
inductive WorkspaceWrite
  | nothing
  | workspace (id owner : Ulid)
  | role (ws target : Ulid) (newRole : Role)
  | remove (ws target : Ulid) (rooms : List Ulid)
  | transfer (ws actor target : Ulid)
  | invite (inv : WorkspaceInvite)
  | revoke (id : Ulid) (now : ℕ)
  | accept (ws user invite : Ulid) (joins : List RoomJoin)
  | join (joins : List RoomJoin) (new : Option WorkspaceRoom)
  deriving DecidableEq

/-- How a call ends. -/
inductive WorkspaceResult
  | wrote (w : WorkspaceWrite)
  | alreadyMember (ws user : Ulid)
  | refused (e : WorkspaceError)
  deriving DecidableEq

/-- **A call, as far as it has come.** What it is about to do next names it. -/
inductive WorkspaceTask
  /-- About to read the room. -/
  | getRoom (c : WorkspaceCall) (room : Ulid)
  /-- About to read the invite, and the clock. -/
  | getInvite (c : WorkspaceCall) (codeHash : String)
  /-- About to find the rows of members. -/
  | members (c : WorkspaceCall) (ws : Ulid) (room : Option WorkspaceRoom)
  /-- Waiting for their rows; when it has them all, about to decide. -/
  | locking (g : Grip) (room : Option WorkspaceRoom) (todo : List (Ulid × ℕ))
  /-- `RemoveMember`: about to delete the row of the member. -/
  | removing (g : Grip) (target : Ulid) (rooms : List Ulid)
  /-- `TransferOwnership`: about to write the second role. -/
  | promoting (g : Grip) (actor target : Ulid)
  /-- `RevokeInvite`: waiting for the row of the invite. -/
  | revoking (g : Grip) (invite : Ulid) (now : ℕ)
  /-- `AcceptInvite`: about to add the member. -/
  | adding (g : Grip) (user invite : Ulid) (now : ℕ)
  /-- The member was there: about to read the workspace. -/
  | welcoming (g : Grip) (user : Ulid)
  /-- Waiting for the row of the invite. -/
  | consuming (g : Grip) (user invite : Ulid) (now : ℕ)
  /-- About to join the default rooms. -/
  | joining (g : Grip) (user invite : Ulid)
  /-- About to add a member to a room. -/
  | insertRoomMember (g : Grip) (room target : Ulid)
  /-- About to add a room. -/
  | insertRoom (g : Grip) (row : WorkspaceRoom)
  | insertDM (g : Grip) (row : WorkspaceRoom)
  /-- About to add the members of a direct message. -/
  | addDM (g : Grip) (room : WorkspaceRoom) (new : Option WorkspaceRoom) (todo : List Ulid)
      (joins : List RoomJoin)
  /-- Waiting for the rows of rooms, to write log lines. -/
  | logging (g : Grip) (w : WorkspaceWrite) (todo logged : List Ulid)
  | commit (g : Grip) (w : WorkspaceWrite) (logged : List Ulid)
  | done (result : WorkspaceResult)
  deriving DecidableEq

/-! ## Locks -/

/-- What may be locked: rows, and keys of rows that are being written. -/
inductive WorkspaceLock
  | member (ws user : Ulid) (row : ℕ) (mode : LockMode)
  | memberKey (ws user : Ulid)
  | invite (id : Ulid)
  | room (id : Ulid)
  | roomMember (room user : Ulid)
  | roomName (ws : Ulid) (name : Option String)
  | dmKey (ws : Ulid) (key : Option (Ulid × Ulid))
  deriving DecidableEq

namespace WorkspaceLock

/-- Rows of members may be shared. -/
def Conflict : WorkspaceLock → WorkspaceLock → Prop
  | member ws user row mode, member ws' user' row' mode' =>
    (ws = ws' ∧ user = user' ∧ row = row') ∧ ¬ (mode = .share ∧ mode' = .share)
  | l, l' => l = l'

instance : ∀ l l', Decidable (Conflict l l') := by
  intro l l'
  unfold Conflict
  split <;> infer_instance

/-- A lock of `workspace_members`. -/
def ofMembers : WorkspaceLock → Bool
  | member _ _ _ _ | memberKey _ _ => true
  | _ => false

end WorkspaceLock

def RoomJoin.lock (j : RoomJoin) : WorkspaceLock := .roomMember j.roomId j.userId

/-- The name of a room is unique, and so are the two users of a direct message. -/
def WorkspaceRoom.key (r : WorkspaceRoom) : WorkspaceLock :=
  if r.kind = .roomDM then .dmKey r.workspaceId r.dmKey else .roomName r.workspaceId r.name

def Grip.held (g : Grip) : List WorkspaceLock :=
  g.got.map fun p => .member g.workspaceId p.1 p.2.row g.call.mode

/-- What a transaction has locked by what it has written. -/
def WorkspaceWrite.held : WorkspaceWrite → List WorkspaceLock
  | nothing | workspace _ _ | invite _ => []
  | role ws target _ => [.memberKey ws target]
  | remove ws target rooms => .memberKey ws target :: rooms.map fun r => .roomMember r target
  | transfer ws actor target => [.memberKey ws actor, .memberKey ws target]
  | revoke id _ => [.invite id]
  | accept ws user id joins => .memberKey ws user :: .invite id :: joins.map RoomJoin.lock
  | join joins new => joins.map RoomJoin.lock ++ new.toList.map WorkspaceRoom.key

namespace WorkspaceTask

/-- The locks that a call has. -/
def held : WorkspaceTask → List WorkspaceLock
  | getRoom _ _ | getInvite _ _ | members _ _ _ | done _ => []
  | locking g _ _ | revoking g _ _ | insertRoomMember g _ _ | insertRoom g _ | insertDM g _
  | adding g _ _ _ | welcoming g _ => g.held
  | removing g target rooms => g.held ++ rooms.map fun r => .roomMember r target
  | promoting g actor _ => g.held ++ [.memberKey g.workspaceId actor]
  | consuming g user _ _ => g.held ++ [.memberKey g.workspaceId user]
  | joining g user invite => g.held ++ [.memberKey g.workspaceId user, .invite invite]
  | addDM g _ new _ joins => g.held ++ (WorkspaceWrite.join joins new).held
  | logging g w _ logged | commit g w logged => g.held ++ w.held ++ logged.map .room

/-- **The lock that a call waits for** next, if it needs one. -/
def asks : WorkspaceTask → Option WorkspaceLock
  | locking g _ ((user, row) :: _) => some (.member g.workspaceId user row g.call.mode)
  | revoking _ invite _ => some (.invite invite)
  | adding g user _ _ => some (.memberKey g.workspaceId user)
  | consuming _ _ invite _ => some (.invite invite)
  | insertRoomMember _ room target => some (.roomMember room target)
  | insertRoom _ row | insertDM _ row => some row.key
  | addDM _ room _ (user :: _) _ => some (.roomMember room.id user)
  | logging _ _ (room :: _) _ => some (.room room)
  | _ => none

end WorkspaceTask

/-! ## Steps -/

/-- **The tables, the clock, and what runs on them.** -/
structure WorkspaceService where
  tables : WorkspaceTables
  clock : ℕ
  tasks : List WorkspaceTask

/-- What happens: a call begins, goes on or fails; time goes by; somebody posts to a room, or
changes its settings or those of a workspace. -/
inductive WorkspaceAction
  | start (c : WorkspaceCall)
  | step (i : ℕ)
  | fail (i : ℕ)
  | tick
  | post (room : Ulid)
  | configureRoom (room : Ulid) (isDefault archived : Bool)
  | configure (ws : Ulid) (policy : InvitePolicy)
  deriving DecidableEq

/-- **How a call begins.** -/
def WorkspaceCall.begins (c : WorkspaceCall) : WorkspaceTask :=
  if c.refused then .done (.refused (.chat (.invalid "" "")))
  else match c with
    | createWorkspace actor id => .commit ⟨c, id, none, []⟩ (.workspace id actor) []
    | changeMemberRole _ ws _ _ | removeMember _ ws _ | transferOwnership _ ws _
    | createInvite _ ws _ _ _ _ | revokeInvite _ ws _ | createRoom _ ws _ _ _
    | createDM _ ws _ _ => .members c ws none
    | acceptInvite _ codeHash => .getInvite c codeHash
    | joinRoom _ room | addRoomMember _ room _ => .getRoom c room

/-- **What a transaction leaves of the tables.** -/
def WorkspaceTables.perform (d : WorkspaceTables) : WorkspaceWrite → Option WorkspaceTables
  | .nothing => some d
  | .workspace id owner =>
    if (d.policies id).isSome then none
    else some ({ d with policies := Function.update d.policies id (some .adminsOnly) }.addMember id
      owner .owner)
  | .role ws target newRole => some (d.updateRole ws target newRole)
  | .remove ws target rooms => some (d.deleteMember ws target rooms)
  | .transfer ws actor target => some ((d.updateRole ws actor .admin).updateRole ws target .owner)
  | .invite inv =>
    if (d.invite? inv.id).isSome then none else some { d with invites := d.invites ++ [inv] }
  | .revoke id now =>
    some (d.updateInvite id fun i => { i with revokedAt := i.revokedAt <|> some now })
  | .accept ws user invite joins =>
    some (((d.addMember ws user .member).updateInvite invite fun i =>
      { i with useCount := i.useCount + 1 }).addJoins joins)
  | .join joins none => some (d.addJoins joins)
  | .join joins (some row) =>
    if (d.room? row.id).isSome then none
    else some ({ d with rooms := d.rooms ++ [row] }.addJoins joins)

namespace WorkspaceService

variable (s : WorkspaceService)

/-- Nobody else holds what conflicts with a lock. -/
abbrev FreeLock (i : ℕ) (l : WorkspaceLock) : Prop :=
  Conflicts.Free WorkspaceLock.Conflict WorkspaceTask.held s.tasks i l

/-- A call goes on. -/
def goes (i : ℕ) (t : WorkspaceTask) : WorkspaceService := { s with tasks := s.tasks.set i t }

/-- A call is refused. -/
def refuse (e : WorkspaceError) : WorkspaceTask := .done (.refused e)

/-- A room as the actor of a call is to it, by the roles that were read. -/
def roomActor (g : Grip) (room : Ulid) : RoomActor :=
  ⟨g.role g.call.actor, (s.tables.roomMembers room g.call.actor).isSome⟩

/-- **What a call decides** when it has the rows that it locks. -/
def decides (g : Grip) (room : Option WorkspaceRoom) : WorkspaceTask :=
  match g.call, room with
  | .changeMemberRole actor ws target newRole, _ =>
    if !(g.role actor).isMember || !(g.role target).isMember then refuse (.chat .notFound)
    else if canChangeRole (g.role actor) (g.role target) newRole then
      .commit g (if g.role target = newRole then .nothing else .role ws target newRole) []
    else refuse (.chat .forbidden)
  | .removeMember actor ws target, _ =>
    if !(g.role actor).isMember then refuse (.chat .notFound)
    else if actor = target then
      if canLeaveWorkspace (g.role actor) then .removing g target (s.tables.joined ws target)
      else refuse .ownerMustTransfer
    else if !(g.role target).isMember then refuse (.chat .notFound)
    else if canRemoveMember (g.role actor) (g.role target) then
      .removing g target (s.tables.joined ws target)
    else refuse (.chat .forbidden)
  | .transferOwnership actor _ target, _ =>
    if !(g.role actor).isMember then refuse (.chat .notFound)
    else if !canTransferOwnership (g.role actor) then refuse (.chat .forbidden)
    else if !(g.role target).isMember then refuse (.chat .notFound)
    else .promoting g actor target
  | .createInvite actor ws id codeHash maxUses expiresIn, _ =>
    if !(g.role actor).isMember then refuse (.chat .notFound)
    else if g.policy.any (canCreateInvite (g.role actor)) then
      .commit g (.invite ⟨id, ws, codeHash, actor, maxUses, 0, s.clock + expiresIn, none⟩) []
    else refuse (.chat .forbidden)
  | .revokeInvite actor ws invite, _ =>
    if !(g.role actor).isMember then refuse (.chat .notFound)
    else match (s.tables.invite? invite).filter fun i => i.workspaceId = ws with
      | none => refuse (.chat .notFound)
      | some inv =>
        if g.policy.any fun p => canRevokeInvite (g.role actor) p (inv.createdBy = actor) then
          .revoking g invite s.clock
        else refuse (.chat .forbidden)
  | .joinRoom actor _, some r =>
    if !canReadRoom r.authzRoom (s.roomActor g r.id) then refuse (.chat .notFound)
    else match authorize r.authzRoom fun x => canJoinRoom x (s.roomActor g r.id) with
      | some e => refuse (.chat e)
      | none => .insertRoomMember g r.id actor
  | .addRoomMember _ _ target, some r =>
    if !canReadRoom r.authzRoom (s.roomActor g r.id) then refuse (.chat .notFound)
    else match authorize r.authzRoom fun x => canAddRoomMember x (s.roomActor g r.id) with
      | some e => refuse (.chat e)
      | none => if (g.role target).isMember then .insertRoomMember g r.id target
        else refuse .userNotInWorkspace
  | .createRoom actor ws id isPrivate name, _ =>
    if !(g.role actor).isMember then refuse (.chat .notFound)
    else if canCreateRoom (g.role actor) then
      .insertRoom g ⟨⟨some name, false, false⟩, id, ws,
        if isPrivate then .roomPrivate else .roomPublic, none, 1, 0⟩
    else refuse (.chat .forbidden)
  | .createDM actor ws peer id, _ =>
    if !canCreateRoom (g.role actor) then refuse (.chat .notFound)
    else if (g.role peer).isMember then
      .insertDM g ⟨⟨none, false, false⟩, id, ws, .roomDM, some (min actor peer, max actor peer), 0, 0⟩
    else refuse .userNotInWorkspace
  | _, _ => refuse (.chat .failed)

/-- **What a call does next** that does not commit, once it has the lock that it asks for. -/
def turn : WorkspaceTask → WorkspaceTask
  | .getRoom c room =>
    match s.tables.room? room with
    | some r => .members c r.workspaceId (some r)
    | none => refuse (.chat .notFound)
  | .getInvite c codeHash =>
    match s.tables.invites.find? fun i => i.codeHash = codeHash with
    | some inv =>
      if inv.revokedAt.isSome then refuse .inviteInvalid
      else .adding ⟨c, inv.workspaceId, none, []⟩ c.actor inv.id s.clock
    | none => refuse .inviteInvalid
  | .members c ws room =>
    .locking ⟨c, ws, s.tables.policies ws, []⟩ room ((lockOrder c.users).filterMap fun user =>
      (s.tables.members ws user).map fun m => (user, m.row))
  | .locking g room ((user, row) :: todo) =>
    -- the role is the one that is there by now, if the row still is
    .locking { g with got := g.got ++
      ((s.tables.members g.workspaceId user).filter fun m => m.row = row).toList.map fun m =>
        (user, m) } room todo
  | .locking g room [] => s.decides g room
  | .removing g target rooms => .commit g (.remove g.workspaceId target rooms) []
  | .promoting g actor target => .commit g (.transfer g.workspaceId actor target) []
  | .revoking g invite now => .commit g (.revoke invite now) []
  | .adding g user invite now =>
    if (s.tables.members g.workspaceId user).isSome then .welcoming g user
    else .consuming g user invite now
  | .welcoming g user =>
    if (s.tables.members g.workspaceId user).isSome then .done (.alreadyMember g.workspaceId user)
    else refuse (.chat .notFound)
  | .consuming g user invite now =>
    match s.tables.invite? invite with
    | some inv =>
      if inv.consumable now then .joining g user invite
      else refuse ((inv.status now).error.getD (.chat .failed))
    | none => refuse (.chat .failed)
  | .joining g user invite =>
    .logging g (.accept g.workspaceId user invite (s.tables.joinDefaultRooms g.workspaceId user))
      ((s.tables.joinDefaultRooms g.workspaceId user).map RoomJoin.roomId) []
  | .insertRoomMember g room target =>
    match s.tables.room? room with
    | some r =>
      if (s.tables.roomMembers room target).isSome then .logging g .nothing [] []
      else .logging g (.join [⟨room, target, r.mark⟩] none) [room] []
    | none => .logging g .nothing [] []
  | .insertRoom g row =>
    if s.tables.rooms.any fun r =>
        r.workspaceId = row.workspaceId && r.name = row.name && r.kind ≠ .roomDM then
      refuse .roomNameTaken
    else .commit g (.join [⟨row.id, g.call.actor, ⟨0, 0⟩⟩] (some row)) []
  | .insertDM g row =>
    match s.tables.rooms.find? fun r =>
        r.workspaceId = row.workspaceId && r.kind = .roomDM && r.dmKey = row.dmKey with
    | some r => .addDM g r none (lockOrder g.call.users) []
    | none => .addDM g row (some row) (lockOrder g.call.users) []
  | .addDM g room new (user :: todo) joins =>
    if (s.tables.roomMembers room.id user).isSome then .addDM g room new todo joins
    else .addDM g room new todo
      (joins ++ [⟨room.id, user, ((s.tables.room? room.id).getD room).mark⟩])
  | .addDM g _ new [] joins => .commit g (.join joins new) []
  | .logging g w (room :: todo) logged => .logging g w todo (logged ++ [room])
  | .logging g w [] logged =>
    -- `JoinRoom` reads the room again for its answer
    match g.call with
    | .joinRoom actor room =>
      if (s.tables.room? room).any fun r => canReadRoom r.authzRoom
          ⟨s.tables.role g.workspaceId actor, (s.tables.roomMembers room actor).isSome || decide (w ≠ .nothing)⟩
      then .commit g w logged else refuse (.chat .notFound)
    | _ => .commit g w logged
  | .commit g w logged => .commit g w logged
  | .done result => .done result

/-- A call commits. -/
def commits (i : ℕ) (w : WorkspaceWrite) (logged : List Ulid) (d : WorkspaceTables) :
    WorkspaceService :=
  { s with tables := d.addLogs logged }.goes i (.done (.wrote w))

/-- **One step of a call** that has the lock that it asks for. -/
def next (i : ℕ) : WorkspaceTask → Option WorkspaceService
  | .commit _ w logged => (s.tables.perform w).map (s.commits i w logged)
  | .done _ => none
  | t => some (s.goes i (s.turn t))

/-- The row of a room is written by somebody who does nothing else. -/
def writeRoom (id : Ulid) (f : WorkspaceRoom → WorkspaceRoom) : Option WorkspaceService :=
  if s.FreeLock s.tasks.length (.room id) then
    some { s with tables := { s.tables with
      rooms := s.tables.rooms.map fun r => if r.id = id then f r else r } }
  else none

/-- One step. -/
def act : WorkspaceAction → Option WorkspaceService
  | .start c => some { s with tasks := s.tasks ++ [c.begins] }
  | .step i => s.tasks[i]?.bind fun t =>
    if ∀ l ∈ t.asks, s.FreeLock i l then s.next i t else none
  | .fail i =>
    match s.tasks[i]? with
    | some (.done _) | none => none
    | some _ => some (s.goes i (refuse (.chat .failed)))
  | .tick => some { s with clock := s.clock + 1 }
  | .post room => s.writeRoom room fun r =>
    { r with
      lastMessageSeq := r.lastMessageSeq + 1
      lastUserSeq := r.lastUserSeq + 1 }
  | .configureRoom room isDefault archived => s.writeRoom room fun r =>
    { r with
      isDefault := isDefault
      archived := archived }
  | .configure ws policy =>
    some { s with tables := { s.tables with
      policies := Function.update s.tables.policies ws
        ((s.tables.policies ws).map fun _ => policy) } }

/-- No workspaces, and no calls. -/
def empty : WorkspaceService :=
  ⟨⟨fun _ => none, fun _ _ => none, 0, [], fun _ _ => none, []⟩, 0, []⟩

/-- **The runs of the service** on empty tables. -/
def system : TransitionSystem WorkspaceService WorkspaceAction where
  init s := s = empty
  step s a := act s a

/-! ## What a step is -/

/-- **What a step is**: a commit, a call that goes on, ends or begins, or nothing that a call
does. -/
inductive Step (s : WorkspaceService) : WorkspaceAction → WorkspaceService → Prop
  | commit {i : ℕ} {g : Grip} {w : WorkspaceWrite} {logged : List Ulid} {d : WorkspaceTables} :
      s.tasks[i]? = some (.commit g w logged) → s.tables.perform w = some d →
      Step s (.step i) (s.commits i w logged d)
  | turn {i : ℕ} {t : WorkspaceTask} : s.tasks[i]? = some t → (∀ l ∈ t.asks, s.FreeLock i l) →
      (∀ g w logged, t ≠ .commit g w logged) → (∀ result, t ≠ .done result) →
      Step s (.step i) (s.goes i (s.turn t))
  | fail {i : ℕ} {t : WorkspaceTask} : s.tasks[i]? = some t → (∀ result, t ≠ .done result) →
      Step s (.fail i) (s.goes i (refuse (.chat .failed)))
  | start (c : WorkspaceCall) : Step s (.start c) { s with tasks := s.tasks ++ [c.begins] }
  | tick : Step s .tick { s with clock := s.clock + 1 }
  | room {a : WorkspaceAction} {id : Ulid} {f : WorkspaceRoom → WorkspaceRoom} :
      (∀ i, a ≠ .step i ∧ a ≠ .fail i) → s.FreeLock s.tasks.length (.room id) →
      (∀ r, (f r).id = r.id ∧ (f r).workspaceId = r.workspaceId ∧ (f r).kind = r.kind) →
      Step s a { s with tables := { s.tables with
        rooms := s.tables.rooms.map fun r => if r.id = id then f r else r } }
  | policy {ws : Ulid} {policy : InvitePolicy} :
      Step s (.configure ws policy) { s with tables := { s.tables with
        policies := Function.update s.tables.policies ws
          ((s.tables.policies ws).map fun _ => policy) } }

variable {s} {s' : WorkspaceService} {a : WorkspaceAction}

theorem step_of_writeRoom {id : Ulid} {f : WorkspaceRoom → WorkspaceRoom}
    (h : s.writeRoom id f = some s') (ha : ∀ i, a ≠ .step i ∧ a ≠ .fail i)
    (hf : ∀ r, (f r).id = r.id ∧ (f r).workspaceId = r.workspaceId ∧ (f r).kind = r.kind) :
    Step s a s' := by
  unfold writeRoom at h
  split at h
  · next hfree =>
    cases h
    exact .room ha hfree hf
  · cases h

theorem step_of_act (hact : s.act a = some s') : Step s a s' := by
  cases a with
  | start c =>
    cases hact
    exact .start c
  | step =>
    obtain ⟨t, hi, hnext⟩ := Option.bind_eq_some_iff.mp hact
    split at hnext
    · next hfree =>
      cases t with
      | commit =>
        obtain ⟨d, hd, rfl⟩ := Option.map_eq_some_iff.mp hnext
        exact .commit hi hd
      | done => exact absurd hnext (by simp [next])
      | _ =>
        cases hnext
        exact .turn hi hfree (by simp) (by simp)
    · cases hnext
  | fail =>
    simp only [act] at hact
    split at hact
    · cases hact
    · cases hact
    · next t hnot hi =>
      cases hact
      exact .fail hi hnot
  | tick =>
    cases hact
    exact .tick
  | configure _ policy =>
    cases hact
    exact .policy
  | _ => exact step_of_writeRoom hact (by simp) fun r => ⟨rfl, rfl, rfl⟩

/-! ## A workspace to run calls on -/

/-- A user makes a workspace with a default room, and an invite that may be used twice. -/
def opened : List WorkspaceAction :=
  [.start (.createWorkspace 1 10), .step 0, .start (.createRoom 1 10 20 false "general"), .step 1,
    .step 1, .step 1, .step 1, .step 1, .configureRoom 20 true false,
    .start (.createInvite 1 10 5 "x" (some 2) 60), .step 2, .step 2, .step 2, .step 2]

/-- Another one accepts it. -/
def populated : List WorkspaceAction :=
  opened ++ [.start (.acceptInvite 2 "x"), .step 3, .step 3, .step 3, .step 3, .step 3, .step 3,
    .step 3]

end WorkspaceService

end Hibari
