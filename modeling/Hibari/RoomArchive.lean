import Hibari.RoomLocks
import Hibari.Threads

/-!
# Archiving a room while others write

Whether a room is archived is a flag of its row, and every call reads it before it
takes any lock: who may write was decided by what may be old. What holds the calls
back is the statement that gives out the next numbers. It locks the room's row, and
gives none where the room is archived – except to log lines, which are also written
in archived rooms, and to the messages of huddles, which are log lines in a channel.

A step of a call is one statement, and it waits until the row that it locks is free;
or it is the end of a transaction, which is when others see what it wrote. What the
row of the room was given is kept in the call until then. A transaction may fail at
any place, and then it has written nothing.

Archiving has a second part, in a transaction of its own: the huddle that goes on in
the room is ended. Mentions, attachments, threads that are followed, read positions
and times are left out, and so is Redis. Roles and memberships are those of one run.
-/

namespace Hibari

/-! ## Who may do what -/

/-- A role in a workspace, or none. -/
inductive Role
  | none
  | member
  | admin
  | owner
  deriving DecidableEq

namespace Role

def rank : Role → ℕ
  | none => 0
  | member => 1
  | admin => 2
  | owner => 3

def isMember (r : Role) : Bool := decide (0 < r.rank)

end Role

inductive RoomKind
  | roomPublic
  | roomPrivate
  | roomDM
  deriving DecidableEq

/-- What decides about a room: its kind, and its state. -/
structure AuthzRoom where
  kind : RoomKind
  isDefault : Bool
  archived : Bool
  deriving DecidableEq

/-- What somebody is to a room. -/
structure RoomActor where
  role : Role
  isRoomMember : Bool
  deriving DecidableEq

def canManage (actor target : Role) : Bool :=
  actor.isMember && target.isMember && decide (target.rank < actor.rank)

def canReadRoom (r : AuthzRoom) (a : RoomActor) : Bool :=
  a.role.isMember &&
    match r.kind with
    | .roomPublic => true
    | .roomPrivate | .roomDM => a.isRoomMember

/-- Nobody writes into an archived room. -/
def canWriteRoom (r : AuthzRoom) (a : RoomActor) : Bool :=
  !r.archived && canReadRoom r a && a.isRoomMember

def canArchiveOrUnarchive (r : AuthzRoom) (a : RoomActor) : Bool :=
  if r.kind = .roomDM || r.isDefault || !canReadRoom r a then false
  else a.isRoomMember || decide (Role.admin.rank ≤ a.role.rank)

def canArchiveRoom (r : AuthzRoom) (a : RoomActor) : Bool :=
  !r.archived && canArchiveOrUnarchive r a

def canUnarchiveRoom (r : AuthzRoom) (a : RoomActor) : Bool :=
  r.archived && canArchiveOrUnarchive r a

def canEditMessage (r : AuthzRoom) (a : RoomActor) (isSender : Bool) : Bool :=
  isSender && canWriteRoom r a

def canDeleteMessage (r : AuthzRoom) (a : RoomActor) (isSender : Bool) (senderRole : Role) : Bool :=
  if isSender then canWriteRoom r a
  else if r.archived || r.kind = .roomDM || decide (a.role.rank < Role.admin.rank)
      || !canReadRoom r a then false
  else !senderRole.isMember || canManage a.role senderRole

def canJoinHuddle (r : AuthzRoom) (a : RoomActor) : Bool := canWriteRoom r a

/-- How a call of the room ends that does not go through. -/
inductive ChatError
  | notFound
  | forbidden
  | roomProtected
  | roomArchived
  | roomNotArchived
  | messageDeleted
  | invalid (field reason : String)
  | failed
  deriving DecidableEq

/-- Why a check fails: somebody who could if the room were not archived is told so. -/
def authorize (r : AuthzRoom) (check : AuthzRoom → Bool) : Option ChatError :=
  if check r then none
  else if r.archived && check { r with archived := false } then some .roomArchived
  else some .forbidden

/-- The row of the room, with the numbers that it gives out. -/
structure RoomRecord where
  archived : Bool
  lastMessageSeq : ℕ
  lastChangeSeq : ℕ
  lastUserSeq : ℕ
  deriving DecidableEq

namespace RoomRecord

/-- The numbers of a message, none in an archived room. -/
def allocateMessageSeq (r : RoomRecord) : Option RoomRecord :=
  if r.archived then none
  else some { r with
    lastMessageSeq := r.lastMessageSeq + 1
    lastChangeSeq := r.lastChangeSeq + 1
    lastUserSeq := r.lastUserSeq + 1 }

/-- The numbers of a log line, also in an archived room. -/
def allocateSystemMessageSeq (r : RoomRecord) : RoomRecord :=
  { r with
    lastMessageSeq := r.lastMessageSeq + 1
    lastChangeSeq := r.lastChangeSeq + 1 }

/-- The numbers of a reply and of its root. -/
def allocateThreadReplySeq (r : RoomRecord) (inChannel : Bool) : Option RoomRecord :=
  if r.archived then none
  else some { r with
    lastMessageSeq := r.lastMessageSeq + 1
    lastChangeSeq := r.lastChangeSeq + 2
    lastUserSeq := r.lastUserSeq + if inChannel then 1 else 0 }

/-- Numbers of changes, none in an archived room. -/
def allocateChangeSeq (r : RoomRecord) (n : ℕ) : Option RoomRecord :=
  if r.archived then none else some { r with lastChangeSeq := r.lastChangeSeq + n }

/-- The number of a change of a huddle's message, also in an archived room. -/
def allocateHuddleChangeSeq (r : RoomRecord) : RoomRecord :=
  { r with lastChangeSeq := r.lastChangeSeq + 1 }

end RoomRecord

inductive LinkPreviewStatus
  | pending
  | ok
  | failed
  deriving DecidableEq

/-- The preview of a link in a message. -/
structure LinkPreviewRow where
  id : Ulid
  url : String
  status : LinkPreviewStatus
  linkPreviewId : Option Ulid
  removed : Bool
  deriving DecidableEq

/-- A message in the database, with its reactions and previews. -/
structure StoredMessage extends MessageRow where
  senderId : Ulid
  clientMsgId : Ulid
  seq : ℕ
  changeSeq : ℕ
  userSeq : ℕ
  body : String
  inChannel : Bool
  deleted : Bool
  lastThreadSeq : ℕ
  threadReplyCount : ℕ
  reactions : List (Ulid × String)
  linkPreviews : List LinkPreviewRow
  deriving DecidableEq

/-- A huddle in the database, with its message. -/
structure HuddleRecord where
  messageId : Ulid
  startedBy : Ulid
  ended : Bool
  deriving DecidableEq

/-- **What the database has of a room.** -/
structure RoomDatabase where
  room : RoomRecord
  messages : AList (fun _ : Ulid => StoredMessage)
  huddles : AList (fun _ : Ulid => HuddleRecord)
  participants : List (Ulid × Ulid)

/-- What does not change in a run: the room's kind, and who is what to it. -/
structure RoomSetting where
  kind : RoomKind
  isDefault : Bool
  actors : Ulid → RoomActor

/-- The room as it is judged, by a flag that was read. -/
def RoomSetting.judged (d : RoomSetting) (archived : Bool) : AuthzRoom :=
  ⟨d.kind, d.isDefault, archived⟩

/-- How many kinds of reactions a message may have. -/
def maxReactionKinds : ℕ := 20

/-! ## The calls -/

/-- A call that writes what users wrote. Numbers that are drawn, links that are found in a
body, and what has been fetched of them come with it; the previews are the rows that are
made for links that have none. -/
inductive ContentRequest
  | sendMessage (actor clientMsgId id : Ulid) (body : String) (previews : List LinkPreviewRow)
  | sendThreadReply (actor clientMsgId id root : Ulid) (body : String) (alsoInChannel : Bool)
      (previews : List LinkPreviewRow)
  | editMessage (actor message : Ulid) (body : String) (urls : List String)
      (previews : List LinkPreviewRow)
  | deleteMessage (actor message : Ulid)
  | changeReaction (actor message : Ulid) (emoji : String) (add : Bool)
  | completeLinkPreview (message preview : Ulid) (link : Option Ulid)
  deriving DecidableEq

namespace ContentRequest

/-- Who calls. Previews are completed by nobody. -/
def actor : ContentRequest → Option Ulid
  | sendMessage actor _ _ _ _ | sendThreadReply actor _ _ _ _ _ _ | editMessage actor _ _ _ _
  | deleteMessage actor _ | changeReaction actor _ _ _ => some actor
  | completeLinkPreview _ _ _ => none

/-- The message that is locked first. -/
def target : ContentRequest → Option Ulid
  | sendMessage _ _ _ _ _ => none
  | sendThreadReply _ _ _ root _ _ _ => some root
  | editMessage _ message _ _ _ | deleteMessage _ message | changeReaction _ message _ _
  | completeLinkPreview message _ _ => some message

/-- The member's row is locked, except where a message is deleted. -/
def memberRows : ContentRequest → List RoomRow
  | deleteMessage _ _ => []
  | w => w.actor.toList.map RoomRow.roomMember

/-- The rows that are locked with the message. -/
def targetRows (w : ContentRequest) : List RoomRow := w.memberRows ++ w.target.toList.map .message

end ContentRequest

/-- A request to join the room's huddle. The numbers are drawn where it starts one. -/
structure HuddleStart where
  user : Ulid
  huddle : Ulid
  message : Ulid
  deriving DecidableEq

/-- Why the message of a huddle changes. -/
inductive HuddleTouch
  | ended
  | entered (user : Ulid)
  deriving DecidableEq

def HuddleTouch.memberRows : HuddleTouch → List RoomRow
  | ended => []
  | entered user => [.roomMember user]

/-- **Where a call of the room is.** -/
inductive RoomTask
  /-- About to read the room. -/
  | access (w : ContentRequest)
  /-- Waiting for the row of the member. -/
  | member (w : ContentRequest) (archived : Bool)
  /-- Waiting for the row of the message. -/
  | target (w : ContentRequest) (archived : Bool)
  /-- Waiting for a second row: the root of a reply that is deleted, or the preview. -/
  | second (w : ContentRequest) (row : RoomRow)
  /-- Waiting for the row of the room, and about to number. -/
  | allocate (w : ContentRequest) (row : Option RoomRow)
  /-- About to commit. -/
  | writing (w : ContentRequest) (row : Option RoomRow) (numbers : RoomRecord)
  /-- A preview is completed that takes no number: about to commit. -/
  | completing (message preview : Ulid) (link : Option Ulid)
  /-- `setRoomArchived`: about to read the room. -/
  | archiveAccess (actor log : Ulid) (archive : Bool)
  /-- Waiting for the row of the room, and about to write the log. -/
  | archiveLog (actor log : Ulid) (archive : Bool)
  /-- About to set the flag. -/
  | archiveSet (actor log : Ulid) (archive : Bool) (numbers : RoomRecord)
  /-- About to commit. -/
  | archiving (actor log : Ulid) (archive : Bool) (numbers : RoomRecord)
  /-- `endRoomHuddle`: about to look for the room's huddle. -/
  | endFind
  /-- Waiting for its row. -/
  | endWait (huddle : Ulid)
  /-- `endHuddleIfEmpty`: waiting for the row of the huddle. -/
  | emptyLock (huddle : Ulid)
  /-- About to read from Redis whether somebody is in it. -/
  | emptyRead (huddle message : Ulid)
  /-- `touchHuddleMessage`: waiting for the row of the room. -/
  | touchNumber (huddle message : Ulid) (why : HuddleTouch)
  /-- Waiting for the row of the message. -/
  | touchMessage (huddle message : Ulid) (why : HuddleTouch) (numbers : RoomRecord)
  /-- About to commit. -/
  | touching (huddle message : Ulid) (why : HuddleTouch) (numbers : RoomRecord)
  /-- `checkJoinHuddle`: about to read the room, before the media server is called. -/
  | joinCheck (join : HuddleStart)
  /-- `JoinHuddle`: about to read the room. -/
  | joinAccess (join : HuddleStart) (again : Bool)
  /-- Waiting for the row of the member. -/
  | joinMember (join : HuddleStart) (again archived : Bool)
  /-- About to look for the room's huddle. -/
  | joinFind (join : HuddleStart) (again : Bool)
  /-- Waiting for its row. -/
  | joinWait (join : HuddleStart) (again : Bool) (huddle : Ulid)
  /-- `startHuddle`: waiting for the row of the room. -/
  | joinStart (join : HuddleStart) (again : Bool) (waited : Option Ulid)
  /-- The huddle is inserted: about to commit, once Redis has the participation. -/
  | joinStarted (join : HuddleStart) (waited : Option Ulid) (numbers : RoomRecord)
  /-- The huddle is locked: about to add the participant. -/
  | joinEnter (join : HuddleStart) (huddle message : Ulid)
  | done (error : Option ChatError)
  deriving DecidableEq

namespace RoomTask

/-- **The rows that the transaction of a call holds.** -/
def holds : RoomTask → List RoomRow
  | target w _ => w.memberRows
  | second w _ => w.targetRows
  | allocate w row => w.targetRows ++ row.toList
  | writing w row _ => w.targetRows ++ row.toList ++ [.room]
  | completing message preview _ => [.message message, .linkPreview preview]
  | archiveSet _ _ _ _ | archiving _ _ _ _ => [.room]
  | emptyRead huddle _ => [.huddle huddle]
  | touchNumber huddle _ why => why.memberRows ++ [.huddle huddle]
  | touchMessage huddle _ why _ => why.memberRows ++ [.huddle huddle, .room]
  | touching huddle message why _ => why.memberRows ++ [.huddle huddle, .room, .message message]
  | joinFind join _ | joinWait join _ _ => [.roomMember join.user]
  | joinStart join _ waited => .roomMember join.user :: waited.toList.map .huddle
  | joinStarted join waited _ => .roomMember join.user :: waited.toList.map .huddle ++ [.room]
  | joinEnter join huddle _ => [.roomMember join.user, .huddle huddle]
  | _ => []

end RoomTask

/-! ## What is written -/

namespace RoomDatabase

variable (db : RoomDatabase)

/-- The huddle of the room that goes on, as a statement sees it. -/
def activeHuddle : Option (Ulid × HuddleRecord) :=
  (db.huddles.entries.find? (fun e => !e.2.ended)).map fun e => (e.1, e.2)

/-- Write a message that is there. -/
def updateMessage (id : Ulid) (f : StoredMessage → StoredMessage) : RoomDatabase :=
  match db.messages.lookup id with
  | some m => { db with messages := db.messages.insert id (f m) }
  | none => db

/-- Insert a message, if its number is not taken. -/
def createMessage (id : Ulid) (m : StoredMessage) : Option RoomDatabase :=
  if id ∈ db.messages then none else some { db with messages := db.messages.insert id m }

/-- The row of a log line. -/
def systemMessage (numbers : RoomRecord) (sender : Ulid) (type : SystemEventType) : StoredMessage where
  kind := .system
  systemType := some type
  threadRootId := none
  senderId := sender
  clientMsgId := 0
  seq := numbers.lastMessageSeq
  changeSeq := numbers.lastChangeSeq
  userSeq := numbers.lastUserSeq
  body := ""
  inChannel := true
  deleted := false
  lastThreadSeq := 0
  threadReplyCount := 0
  reactions := []
  linkPreviews := []

/-- The row of what a user wrote. -/
def userMessage (numbers : RoomRecord) (changeSeq : ℕ) (sender clientMsgId : Ulid) (body : String)
    (root : Option Ulid) (inChannel : Bool) (previews : List LinkPreviewRow) : StoredMessage where
  kind := .user
  systemType := none
  threadRootId := root
  senderId := sender
  clientMsgId := clientMsgId
  seq := numbers.lastMessageSeq
  changeSeq := changeSeq
  userSeq := numbers.lastUserSeq
  body := body
  inChannel := inChannel
  deleted := false
  lastThreadSeq := 0
  threadReplyCount := 0
  reactions := []
  linkPreviews := previews

/-- The previews of an edited message: those of links that are still there, those that
were removed, and new ones. -/
def syncMessageLinkPreviews (rows : List LinkPreviewRow) (urls : List String)
    (previews : List LinkPreviewRow) : List LinkPreviewRow :=
  rows.filter (fun p => p.removed || decide (p.url ∈ urls)) ++
    previews.filter (fun p => decide (p.url ∉ rows.map LinkPreviewRow.url))

/-- The previews of a message of which one is completed. -/
def completeMessageLinkPreview (preview : Ulid) (link : Option Ulid) :
    List LinkPreviewRow → List LinkPreviewRow
  | [] => []
  | p :: rows =>
    if p.id = preview then
      { p with
        status := if link.isSome then .ok else .failed
        linkPreviewId := link } :: rows
    else p :: completeMessageLinkPreview preview link rows

/-- **What a call has written** that took the numbers, and that holds a second row. -/
def perform (row : Option RoomRow) (numbers : RoomRecord) : ContentRequest → Option RoomDatabase
  | .sendMessage actor clientMsgId id body previews =>
    { db with room := numbers }.createMessage id
      (userMessage numbers numbers.lastChangeSeq actor clientMsgId body none true previews)
  | .sendThreadReply actor clientMsgId id root body alsoInChannel previews =>
    ({ db with room := numbers }.updateMessage root fun m => { m with
      lastThreadSeq := m.lastThreadSeq + 1
      threadReplyCount := m.threadReplyCount + 1
      changeSeq := numbers.lastChangeSeq }).createMessage id
      (userMessage numbers (numbers.lastChangeSeq - 1) actor clientMsgId body (some root)
        alsoInChannel previews)
  | .editMessage _ message body urls previews =>
    some <| { db with room := numbers }.updateMessage message fun m => { m with
      body := body
      changeSeq := numbers.lastChangeSeq
      linkPreviews := syncMessageLinkPreviews m.linkPreviews urls previews }
  | .deleteMessage _ message =>
    match row with
    | some (.message root) =>
      some <| ({ db with room := numbers }.updateMessage message fun m => { m with
        body := ""
        deleted := true
        changeSeq := numbers.lastChangeSeq - 1
        linkPreviews := [] }).updateMessage root fun m => { m with
          threadReplyCount := m.threadReplyCount - 1
          changeSeq := numbers.lastChangeSeq }
    | _ =>
      some <| { db with room := numbers }.updateMessage message fun m => { m with
        body := ""
        deleted := true
        changeSeq := numbers.lastChangeSeq
        linkPreviews := [] }
  | .changeReaction actor message emoji add =>
    some <| { db with room := numbers }.updateMessage message fun m => { m with
      reactions := if add then m.reactions ++ [(actor, emoji)] else m.reactions.erase (actor, emoji)
      changeSeq := numbers.lastChangeSeq }
  | .completeLinkPreview message preview link =>
    some <| { db with room := numbers }.updateMessage message fun m => { m with
      changeSeq := numbers.lastChangeSeq
      linkPreviews := completeMessageLinkPreview preview link m.linkPreviews }

/-- The message of a huddle gets a new number, and the huddle is ended or entered. -/
def touch (numbers : RoomRecord) (huddle message : Ulid) (why : HuddleTouch) : RoomDatabase :=
  let touched := { db with room := numbers }.updateMessage message fun m => { m with
    changeSeq := numbers.lastChangeSeq }
  match why with
  | .ended =>
    match db.huddles.lookup huddle with
    | some h => { touched with huddles := touched.huddles.insert huddle { h with ended := true } }
    | none => touched
  | .entered user => { touched with participants := (huddle, user) :: touched.participants }

/-- A huddle, its message and its first participant. -/
def startHuddle (numbers : RoomRecord) (join : HuddleStart) : Option RoomDatabase :=
  if join.huddle ∈ db.huddles then none
  else
    ({ db with
        room := numbers
        huddles := db.huddles.insert join.huddle ⟨join.message, join.user, false⟩
        participants := (join.huddle, join.user) :: db.participants }).createMessage join.message
      (systemMessage numbers join.user .huddle)

/-- The flag and its log line. -/
def setArchived (numbers : RoomRecord) (actor log : Ulid) (archive : Bool) : Option RoomDatabase :=
  { db with room := numbers }.createMessage log
    (systemMessage numbers actor (if archive then .roomArchived else .roomUnarchived))

end RoomDatabase

/-- **A room and the calls to it.** -/
structure RoomService where
  db : RoomDatabase
  tasks : List RoomTask

/-- What happens: a call begins, goes on, or its transaction fails. With a step comes
whether Redis has nobody in a huddle. -/
inductive RoomServiceAction
  | start (t : RoomTask)
  | step (i : ℕ) (empty : Bool)
  | fail (i : ℕ)

namespace RoomService

open RoomTask
open ContentRequest hiding target actor memberRows targetRows

variable (d : RoomSetting) (s : RoomService)

/-- No transaction holds a row. -/
def FreeRow (r : RoomRow) : Prop := ∀ t ∈ s.tasks, r ∉ t.holds

instance (r : RoomRow) : Decidable (s.FreeRow r) := by
  unfold FreeRow
  infer_instance

/-- A call has ended, with the error there is. -/
def ended (error : Option ChatError) : Option (RoomDatabase × RoomTask) := some (s.db, done error)

/-- A call goes on, and has written nothing that others see. -/
def goes (t : RoomTask) : Option (RoomDatabase × RoomTask) := some (s.db, t)

/-- A transaction has ended, and others see what it wrote. -/
def commits (db : Option RoomDatabase) (t : RoomTask) : Option (RoomDatabase × RoomTask) :=
  db.map fun db => (db, t)

/-- What a call does with the room as it was read. -/
def accessed (archived : Bool) (w : ContentRequest) : Option (RoomDatabase × RoomTask) :=
  match w with
  | sendMessage actor clientMsgId _ _ _ =>
    match authorize (d.judged archived) (canWriteRoom · (d.actors actor)) with
    | some error => s.ended error
    | none =>
      -- what was sent already is sent once
      if s.db.messages.entries.any
          (fun e => decide (e.2.senderId = actor ∧ e.2.clientMsgId = clientMsgId)) then s.ended none
      else s.goes (allocate w none)
  | sendThreadReply actor clientMsgId _ _ _ _ _ =>
    match authorize (d.judged archived) (canWriteRoom · (d.actors actor)) with
    | some error => s.ended error
    | none =>
      if s.db.messages.entries.any
          (fun e => decide (e.2.senderId = actor ∧ e.2.clientMsgId = clientMsgId)) then s.ended none
      else s.goes (target w archived)
  | changeReaction actor _ _ _ =>
    match authorize (d.judged archived) (canWriteRoom · (d.actors actor)) with
    | some error => s.ended error
    | none => s.goes (target w archived)
  | _ => s.goes (target w archived)

/-- What a call does with the message that it has locked. -/
def targeted (archived : Bool) (w : ContentRequest) (m : StoredMessage) :
    Option (RoomDatabase × RoomTask) :=
  match w with
  | sendMessage _ _ _ _ _ => s.goes (allocate w none)
  | sendThreadReply _ _ _ _ _ _ _ =>
    if isThreadRoot m.toMessageRow then s.goes (allocate w none)
    else s.ended (some (.invalid "thread_root_id" "invalid_value"))
  | editMessage actor _ body _ _ =>
    if m.kind = .system then s.ended (some .forbidden)
    else
      match authorize (d.judged archived)
        (fun r => canEditMessage r (d.actors actor) (decide (m.senderId = actor))) with
      | some error => s.ended error
      | none =>
        if m.deleted then s.ended (some .messageDeleted)
        else if m.body = body then s.ended none
        else s.goes (allocate w none)
  | deleteMessage actor _ =>
    if m.kind = .system then s.ended (some .forbidden)
    else
      match authorize (d.judged archived)
        (fun r => canDeleteMessage r (d.actors actor) (decide (m.senderId = actor))
          (d.actors m.senderId).role) with
      | some error => s.ended error
      | none =>
        if m.deleted then s.ended none
        else
          match m.threadRootId with
          | some root => s.goes (second w (.message root))
          | none => s.goes (allocate w none)
  | changeReaction actor _ emoji add =>
    if m.deleted then s.ended (some .notFound)
    else if m.kind = .system then s.ended (some (.invalid "message_id" "invalid_value"))
    else if add then
      if maxReactionKinds ≤ (m.reactions.map Prod.snd).dedup.length
          ∧ emoji ∉ m.reactions.map Prod.snd then
        s.ended (some (.invalid "emoji" "too_many"))
      else if (actor, emoji) ∈ m.reactions then s.ended none
      else s.goes (allocate w none)
    else if (actor, emoji) ∈ m.reactions then s.goes (allocate w none)
    else s.ended none
  | completeLinkPreview _ preview _ => s.goes (second w (.linkPreview preview))

/-- What the completion of a preview does with the row that it has locked. -/
def previewed (w : ContentRequest) (message preview : Ulid) (link : Option Ulid) :
    Option (RoomDatabase × RoomTask) :=
  match s.db.messages.lookup message with
  | none => s.ended none
  | some m =>
    match m.linkPreviews.find? (fun p => decide (p.id = preview)) with
    | none => s.ended none
    | some p =>
      if p.status ≠ .pending ∨ m.deleted then s.ended none
      else if link.isSome ∧ p.removed = false then s.goes (allocate w (some (.linkPreview preview)))
      else s.goes (completing message preview link)

/-- The numbers that a call takes. -/
def numbered (row : Option RoomRow) : ContentRequest → Option RoomRecord
  | sendMessage _ _ _ _ _ => s.db.room.allocateMessageSeq
  | sendThreadReply _ _ _ _ _ alsoInChannel _ => s.db.room.allocateThreadReplySeq alsoInChannel
  | deleteMessage _ _ => s.db.room.allocateChangeSeq (if row.isSome then 2 else 1)
  | editMessage _ _ _ _ _ | changeReaction _ _ _ _ | completeLinkPreview _ _ _ =>
    s.db.room.allocateChangeSeq 1

/-- Where a call goes that gets no numbers. -/
def refused : ContentRequest → RoomTask
  | completeLinkPreview message preview _ => completing message preview none
  | _ => done (some .roomArchived)

/-- **One step of a call**: what others see of it, and where it goes. -/
def next (empty : Bool) : RoomTask → Option (RoomDatabase × RoomTask)
  | access w =>
    match w.actor with
    | none => s.goes (target w s.db.room.archived)
    | some actor =>
      -- whose message is deleted is read before anything else
      if w.memberRows = [] ∧ ∀ m ∈ w.target, m ∉ s.db.messages then s.ended (some .notFound)
      else if canReadRoom (d.judged s.db.room.archived) (d.actors actor) then
        s.goes (member w s.db.room.archived)
      else s.ended (some .notFound)
  | member w archived =>
    if ∀ r ∈ w.memberRows, s.FreeRow r then s.accessed d archived w else none
  | target w archived =>
    match w.target with
    | none => none
    | some message =>
      if s.FreeRow (.message message) then
        match s.db.messages.lookup message, w with
        | some m, w => s.targeted d archived w m
        | none, sendThreadReply _ _ _ _ _ _ _ =>
          s.ended (some (.invalid "thread_root_id" "invalid_value"))
        | none, completeLinkPreview _ _ _ => s.ended none
        | none, _ => s.ended (some .notFound)
      else none
  | second w row =>
    if s.FreeRow row then
      match w with
      | completeLinkPreview message preview link => s.previewed w message preview link
      | w => s.goes (allocate w (some row))
    else none
  | allocate w row =>
    if s.FreeRow .room then
      match s.numbered row w with
      | some numbers => s.goes (writing w row numbers)
      | none => s.goes (refused w)
    else none
  | writing w row numbers => commits (s.db.perform row numbers w) (done none)
  | completing message preview link =>
    commits (some (s.db.updateMessage message fun m => { m with
      linkPreviews := RoomDatabase.completeMessageLinkPreview preview link m.linkPreviews }))
      (done none)
  | archiveAccess actor log archive =>
    let r := d.judged s.db.room.archived
    if !canReadRoom r (d.actors actor) then s.ended (some .notFound)
    else if r.kind = .roomDM ∨ r.isDefault then s.ended (some .roomProtected)
    else if archive ∧ r.archived then s.ended (some .roomArchived)
    else if ¬ archive ∧ ¬ r.archived then s.ended (some .roomNotArchived)
    else if (if archive then canArchiveRoom else canUnarchiveRoom) r (d.actors actor) then
      s.goes (archiveLog actor log archive)
    else s.ended (some .forbidden)
  | archiveLog actor log archive =>
    if s.FreeRow .room then
      s.goes (archiveSet actor log archive s.db.room.allocateSystemMessageSeq)
    else none
  | archiveSet actor log archive numbers =>
    if numbers.archived = archive then
      s.ended (some (if archive then .roomArchived else .roomNotArchived))
    else s.goes (archiving actor log archive { numbers with archived := archive })
  | archiving actor log archive numbers =>
    commits (s.db.setArchived numbers actor log archive) (if archive then endFind else done none)
  | endFind =>
    match s.db.activeHuddle with
    | some (huddle, _) => s.goes (endWait huddle)
    | none => s.ended none
  | endWait huddle =>
    if s.FreeRow (.huddle huddle) then
      match s.db.huddles.lookup huddle with
      | some ⟨message, _, false⟩ => s.goes (touchNumber huddle message .ended)
      | _ => s.ended none
    else none
  | emptyLock huddle =>
    if s.FreeRow (.huddle huddle) then
      match s.db.huddles.lookup huddle with
      | some ⟨message, _, false⟩ => s.goes (emptyRead huddle message)
      | _ => s.ended none
    else none
  | emptyRead huddle message =>
    if empty then s.goes (touchNumber huddle message .ended) else s.ended none
  | touchNumber huddle message why =>
    if s.FreeRow .room then
      s.goes (touchMessage huddle message why s.db.room.allocateHuddleChangeSeq)
    else none
  | touchMessage huddle message why numbers =>
    if s.FreeRow (.message message) then s.goes (touching huddle message why numbers) else none
  | touching huddle message why numbers =>
    commits (some (s.db.touch numbers huddle message why)) (done none)
  | joinCheck join =>
    let r := d.judged s.db.room.archived
    if !canReadRoom r (d.actors join.user) then s.ended (some .notFound)
    else
      match authorize r (canJoinHuddle · (d.actors join.user)) with
      | some error => s.ended error
      | none => s.goes (joinAccess join false)
  | joinAccess join again => s.goes (joinMember join again s.db.room.archived)
  | joinMember join again archived =>
    if s.FreeRow (.roomMember join.user) then
      let r := d.judged archived
      if !canReadRoom r (d.actors join.user) then s.ended (some .notFound)
      else
        match authorize r (canJoinHuddle · (d.actors join.user)) with
        | some error => s.ended error
        | none => s.goes (joinFind join again)
    else none
  | joinFind join again =>
    match s.db.activeHuddle with
    | some (huddle, _) => s.goes (joinWait join again huddle)
    | none => s.goes (joinStart join again none)
  | joinWait join again huddle =>
    if s.FreeRow (.huddle huddle) then
      match s.db.huddles.lookup huddle with
      | some ⟨message, _, false⟩ => s.goes (joinEnter join huddle message)
      | _ => s.goes (joinStart join again (some huddle))
    else none
  | joinStart join again waited =>
    if s.FreeRow .room then
      -- the message of a huddle is a log line, except in a DM
      match if d.kind = .roomDM then s.db.room.allocateMessageSeq
        else some s.db.room.allocateSystemMessageSeq with
      | none => s.ended (some .roomArchived)
      | some numbers =>
        match s.db.activeHuddle with
        | some _ => if again then s.ended (some .failed) else s.goes (joinAccess join true)
        | none => s.goes (joinStarted join waited numbers)
    else none
  | joinStarted join _ numbers => commits (s.db.startHuddle numbers join) (done none)
  | joinEnter join huddle message =>
    if (huddle, join.user) ∈ s.db.participants then s.ended none
    else s.goes (touchNumber huddle message (.entered join.user))
  | done _ => none

/-- The calls as they begin. -/
def Starts : RoomTask → Prop
  | access _ | archiveAccess _ _ _ | emptyLock _ | joinCheck _ => True
  | _ => False

instance (t : RoomTask) : Decidable (Starts t) := by
  unfold Starts
  split <;> infer_instance

/-- One step. A call that has failed has written nothing. -/
def act : RoomServiceAction → Option RoomService
  | .start t => if Starts t then some { s with tasks := s.tasks ++ [t] } else none
  | .step i empty =>
    match s.tasks[i]? with
    | none => none
    | some t =>
      match s.next d empty t with
      | none => none
      | some (db, t') => some { db := db, tasks := s.tasks.set i t' }
  | .fail i =>
    match s.tasks[i]? with
    | none | some (done _) => none
    | some _ => some { s with tasks := s.tasks.set i (done (some .failed)) }

/-- Any rows without a huddle, and no call. -/
def New : Prop := s.db.huddles = ∅ ∧ s.tasks = []

/-- **The calls of a room at once.** -/
def system : TransitionSystem RoomService RoomServiceAction where
  init := New
  step s a := act d s a

/-- No call is in progress. -/
def AtRest : Prop := ∀ t ∈ s.tasks, ∃ error, t = done error

instance : Decidable s.AtRest :=
  decidable_of_iff (∀ t ∈ s.tasks, (match t with | done _ => true | _ => false) = true) <| by
    refine forall_congr' fun t => forall_congr' fun _ => ?_
    cases t with
    | done error => exact ⟨fun _ => ⟨error, rfl⟩, fun _ => rfl⟩
    | _ => exact ⟨fun h => absurd h (by simp), fun h => absurd h (by simp)⟩

end RoomService

end Hibari
