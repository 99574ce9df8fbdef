import Hibari.ActivityFeed
import Hibari.MentionCounts

/-!
# The activity of a user, on the server

The server keeps no rows of activity: it reads them from the messages, the mentions that were
resolved when they were sent, the threads that are followed, the settings and the read positions
(`activity.sql`). The queries are here as what they select; the order of the list and its pages are
left out.

A message that is sent writes rows of mentions, and makes those who are mentioned in a thread follow
it (`send`).
-/

namespace Hibari

/-! ## Tables -/

/-- `room_members`. -/
structure ActivityMember where
  roomId : Ulid
  userId : Ulid
  lastReadUserSeq : ℕ
  notifyLevel : Option NotifyLevel
  muted : Bool
  mutedUntil : Option ℕ
  deriving DecidableEq

/-- `roomNotificationsOf`: a mute that has run out is none. -/
def roomNotificationsOf (rm : ActivityMember) (now : ℕ) : RoomNotifications :=
  if rm.mutedUntil.any fun until_ => until_ ≤ now then ⟨rm.notifyLevel, false, none⟩
  else ⟨rm.notifyLevel, rm.muted, rm.mutedUntil⟩

/-- `thread_members`. -/
structure ThreadFollower where
  roomId : Ulid
  threadRootId : Ulid
  userId : Ulid
  lastReadThreadSeq : ℕ
  notifyReplies : Bool
  deriving DecidableEq

/-- `message_mentions`. -/
structure RoomMention extends MentionRow where
  roomId : Ulid
  deriving DecidableEq

/-- **The tables.** -/
structure ActivityDb where
  /-- The workspace of a room, and its kind. -/
  rooms : Ulid → Option (Ulid × RoomKind)
  roomMembers : List ActivityMember
  /-- The level of a user in a workspace that the user is in. -/
  workspaceMembers : Ulid → Ulid → Option (Option NotifyLevel)
  messages : List ActivityMessage
  messageMentions : List RoomMention
  threadMembers : List ThreadFollower

/-- What a row of `my_rooms` has. -/
structure MyRoom where
  roomKind : RoomKind
  lastReadUserSeq : ℕ
  effectiveLevel : NotifyLevel
  deriving DecidableEq

/-- A row of the list that is a message. -/
structure ActivityRow where
  messageId : Ulid
  roomId : Ulid
  occurredAt : Timestamp
  reasons : List ActivityReason
  unread : Bool
  deriving DecidableEq

namespace ActivityDb

variable (userId workspaceId : Ulid) (now : ℕ) (db : ActivityDb)

def roomMember (roomId userId : Ulid) : Option ActivityMember :=
  db.roomMembers.find? fun rm => rm.roomId = roomId ∧ rm.userId = userId

def threadMember (rootId userId : Ulid) : Option ThreadFollower :=
  db.threadMembers.find? fun tm => tm.threadRootId = rootId ∧ tm.userId = userId

/-! ## Queries -/

/-- Not muted, and not at the level at which nothing is shown. -/
def admitsRoom (rm : ActivityMember) (level : Option NotifyLevel) (kind : RoomKind) : Bool :=
  !(rm.muted && rm.mutedUntil.all fun until_ => now < until_) &&
    if kind = .roomDM then level.getD .mentions ≠ .none
    else (rm.notifyLevel.or level).getD .mentions ≠ .none

/-- `my_rooms`. -/
def myRoom (roomId : Ulid) : Option MyRoom :=
  (db.roomMember roomId userId).bind fun rm =>
    (db.rooms roomId).bind fun room =>
      (db.workspaceMembers room.1 userId).bind fun level =>
        if room.1 = workspaceId ∧ admitsRoom now rm level room.2 = true then
          some ⟨room.2, rm.lastReadUserSeq, (rm.notifyLevel.or level).getD .mentions⟩
        else none

/-- `candidates`: the messages, each with a reason. -/
def candidates : List (Ulid × ActivityReason) :=
  let mine := db.myRoom userId workspaceId now
  (db.messageMentions.filter fun mm => (mine mm.roomId).isSome &&
      (mm.userId.isNone || decide (mm.userId = some userId))).map
        (fun mm => (mm.messageId, .mention)) ++
    (db.messages.filter fun m => (mine m.roomId).any fun mr => mr.roomKind = .roomDM).map
      (fun m => (m.id, .dm)) ++
    (db.messages.filter fun m => m.threadRootId.any fun rootId =>
      (db.threadMember rootId userId).any fun tm => tm.notifyReplies && (mine tm.roomId).isSome).map
      (fun m => (m.id, .thread)) ++
    (db.messages.filter fun m => inChannel m.toMessage && (mine m.roomId).any fun mr =>
      mr.roomKind ≠ .roomDM && mr.effectiveLevel = .all).map (fun m => (m.id, .channel))

/-- Somebody else said it, and it was not deleted. -/
def isListed (m : ActivityMessage) : Bool :=
  m.kind = .user && m.sender.id ≠ userId && m.deletedAt.isNone

/-- A message is unread. -/
def isUnread (mr : MyRoom) (m : ActivityMessage) : Bool :=
  if inChannel m.toMessage then mr.lastReadUserSeq < m.userSeq
  else (m.threadRootId.bind fun rootId => db.threadMember rootId userId).any fun tm =>
    m.threadSeq.any fun threadSeq => tm.lastReadThreadSeq < threadSeq

/-- The reasons of a message: distinct, and in the order of their names. -/
def reasonsOf (messageId : Ulid) : List ActivityReason :=
  [ActivityReason.channel, .dm, .mention, .thread].filter fun reason =>
    (messageId, reason) ∈ db.candidates userId workspaceId now

/-- The row of a message, if it has one. -/
def rowOf (m : ActivityMessage) : Option ActivityRow :=
  (db.myRoom userId workspaceId now m.roomId).bind fun mr =>
    let reasons := db.reasonsOf userId workspaceId now m.id
    if isListed userId m = true ∧ reasons ≠ [] then
      some ⟨m.id, m.roomId, m.sentAt, reasons, db.isUnread userId mr m⟩
    else none

/-- **`ListActivity`**, of messages. -/
def listActivity (filter : ActivityFilter) (unreadOnly : Bool) : List ActivityRow :=
  (db.messages.filterMap (db.rowOf userId workspaceId now)).filter fun row =>
    filter.shows row.reasons && (!unreadOnly || row.unread)

/-- **`CountUnreadActivity`**: a message is counted once, for whatever reason. -/
def countUnreadActivity : ℕ :=
  let unread := db.messages.filter fun m =>
    decide (m.id ∈ (db.candidates userId workspaceId now).map Prod.fst) &&
      (db.myRoom userId workspaceId now m.roomId).any fun mr =>
        isListed userId m && db.isUnread userId mr m
  min maxUnreadActivity unread.length

/-! ## Sending -/

/-- `ListRoomMemberIDs`. -/
def memberIds (roomId : Ulid) : List Ulid :=
  (db.roomMembers.filter fun rm => rm.roomId = roomId).map ActivityMember.userId

/-- `FollowThread` and its forms for several users: members who do not follow the thread do so. -/
def followThread (roomId rootId lastReadThreadSeq : ℕ) (userIds : List Ulid) : ActivityDb :=
  let new := (db.memberIds roomId).filter fun u =>
    decide (u ∈ userIds) && (db.threadMember rootId u).isNone
  { db with threadMembers := db.threadMembers ++ new.map fun u =>
    ⟨roomId, rootId, u, lastReadThreadSeq, true⟩ }

/-- `AdvanceThreadReadToThreadSeq`. -/
def advanceThreadRead (rootId userId threadSeq : ℕ) : ActivityDb :=
  { db with threadMembers := db.threadMembers.map fun tm =>
      if tm.threadRootId = rootId ∧ tm.userId = userId then
        { tm with lastReadThreadSeq := max tm.lastReadThreadSeq threadSeq }
      else tm }

/-- `AdvanceLastReadSeq`, for the sender of a message. -/
def advanceRead (roomId userId userSeq : ℕ) : ActivityDb :=
  { db with roomMembers := db.roomMembers.map fun rm =>
      if rm.roomId = roomId ∧ rm.userId = userId then
        { rm with lastReadUserSeq := max rm.lastReadUserSeq userSeq }
      else rm }

/-- The message is written, with its mentions. -/
def createMessage (m : ActivityMessage) (active : List Ulid) : ActivityDb :=
  let members := db.memberIds m.roomId
  let rows := createMessageMentions members m.toMessage (resolveHere active members m.toMessage)
  { db with
    messages := db.messages ++ [m]
    messageMentions := db.messageMentions ++ rows.map fun row => ⟨row, m.roomId⟩ }

/-- Who follows the thread of a reply: its sender, the sender of the root, both in a direct message,
and those who are mentioned. -/
def followReply (m : ActivityMessage) (rootId threadSeq : ℕ) (active : List Ulid) : ActivityDb :=
  let members := db.memberIds m.roomId
  let here := resolveHere active members m.toMessage
  let users := m.mentions.filterMap fun x => if x.kind = .user then x.user.map
    UserProfile.id else none
  let sent := (db.followThread m.roomId rootId threadSeq [m.sender.id]).advanceThreadRead rootId
    m.sender.id threadSeq
  let rootSender := (db.messages.find? fun root => root.id = rootId).map fun root => root.sender.id
  let first := if threadSeq = 1 then sent.followThread m.roomId rootId 0 rootSender.toList else sent
  let both := if threadSeq = 1 ∧ (db.rooms m.roomId).any (fun room => room.2 = .roomDM) then
    first.followThread m.roomId rootId 0 members else first
  if m.mentions.any fun x => x.kind = .channel then
    both.followThread m.roomId rootId (threadSeq - 1) members
  else both.followThread m.roomId rootId (threadSeq - 1) (users ++ here)

/-- **A message is sent.** -/
def send (m : ActivityMessage) (active : List Ulid) : ActivityDb :=
  let written := db.createMessage m active
  let read := if inChannel m.toMessage ∧ m.kind = .user then
    written.advanceRead m.roomId m.sender.id m.userSeq else written
  match m.threadRootId with
  | none => read
  | some rootId => read.followReply m rootId (m.threadSeq.getD 0) active

end ActivityDb

end Hibari
