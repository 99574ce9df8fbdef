import Hibari.HeldRows
import Hibari.Reactions

/-!
# Pins and reactions of a room

The requests that change what is marked in a room (`pin.go`, `reaction.go`), at once with those that
delete and send its messages. Each of them is a transaction that takes the member's row, then the
message's, then – where it writes – the room's, and holds them to its end; others see what it wrote
when it has committed. A step is one statement, and it waits for the row that it locks.

A message is shown in two statements (`getMessage`): the first one reads its row, which has the pin
and the number of the last change, the second one reads the reactions. A request that has locked the
message reads both while nobody else can write them. One that sends a message for the second time
has not: it looks for what it sent, and locks nothing but the row of the member.

What a request writes is kept in its place until it commits, and an end is recorded with the rows
before and after it, what was answered and what was delivered. A transaction may fail at any place.
The room may be archived at any time, and unarchived; roles and memberships are those of one run.
-/

namespace Hibari

/-- How many messages of a room may be pinned. -/
def maxRoomPins : ℕ := 100

/-- Who may write may pin. -/
def canPinMessage (r : AuthzRoom) (a : RoomActor) : Bool := canWriteRoom r a

/-! ## The rows -/

/-- A message in the database, with its pin – who pinned it, and when – and its reactions. -/
structure MarkedMessage extends MessageRow where
  senderId : Ulid
  clientMsgId : Ulid
  changeSeq : ℕ
  deleted : Bool
  pinned : Option (Ulid × ℕ)
  reactions : ReactionRows
  deriving DecidableEq

/-- A message as it is answered. -/
structure MarkedAnswer where
  id : Ulid
  changeSeq : ℕ
  pinned : Option (Ulid × ℕ)
  reactions : List MessageReaction
  deriving DecidableEq

/-- What is answered of a row and the reactions that were read for it: none of a deleted message. -/
def MarkedMessage.answer (m : MarkedMessage) (id viewer : Ulid) (rows : ReactionRows) :
    MarkedAnswer where
  id := id
  changeSeq := m.changeSeq
  pinned := m.pinned
  reactions := if m.deleted then [] else rows.listMessageReactions viewer

/-- **What the database has of a room**: its row and its messages. -/
structure MarkedRoom where
  room : RoomRecord
  ids : List Ulid
  row : Ulid → MarkedMessage
  /-- An id is the key of one message. -/
  nodup : ids.Nodup

/-! ## The requests -/

/-- A request. The clock and the id that is drawn come with it. -/
inductive MarkRequest
  | changePin (actor message : Ulid) (pin : Bool) (now : ℕ)
  | changeReaction (actor message : Ulid) (emoji : String) (add : Bool)
  | deleteMessage (actor message : Ulid)
  | sendMessage (actor clientMsgId id : Ulid)
  | sendThreadReply (actor clientMsgId id root : Ulid) (alsoInChannel : Bool)
  deriving DecidableEq

/-- What a request writes with: the numbers of the room, and the root of a reply that is deleted. -/
structure MarkWrite where
  numbers : RoomRecord
  root : Option Ulid
  deriving DecidableEq

namespace MarkRequest

def actor : MarkRequest → Ulid
  | changePin actor _ _ _ | changeReaction actor _ _ _ | deleteMessage actor _
  | sendMessage actor _ _ | sendThreadReply actor _ _ _ _ => actor

/-- The message that is locked. -/
def target : MarkRequest → Option Ulid
  | changePin _ message _ _ | changeReaction _ message _ _ | deleteMessage _ message => some message
  | sendMessage _ _ _ => none
  | sendThreadReply _ _ _ root _ => some root

/-- **The message whose marks are changed.** -/
def marked : MarkRequest → Option Ulid
  | changePin _ message _ _ | changeReaction _ message _ _ => some message
  | deleteMessage _ _ | sendMessage _ _ _ | sendThreadReply _ _ _ _ _ => none

/-- Whether a message is sent. -/
def sends : MarkRequest → Bool
  | sendMessage _ _ _ | sendThreadReply _ _ _ _ _ => true
  | changePin _ _ _ _ | changeReaction _ _ _ _ | deleteMessage _ _ => false

/-- The message that is read once everything is written. -/
def subject : MarkRequest → Ulid
  | changePin _ message _ _ | changeReaction _ message _ _ | deleteMessage _ message => message
  | sendMessage _ _ id | sendThreadReply _ _ id _ _ => id

/-- The member's row is locked, except where a message is deleted. -/
def memberRows : MarkRequest → List RoomRow
  | deleteMessage _ _ => []
  | w => [.roomMember w.actor]

/-- The rows that are locked with the message. -/
def targetRows (w : MarkRequest) : List RoomRow := w.memberRows ++ w.target.toList.map .message

/-- The rows that are held while a message is read: before anything is written, and after. -/
def readRows (w : MarkRequest) : Option MarkWrite → List RoomRow
  | none => w.memberRows ++ w.marked.toList.map .message
  | some x => w.targetRows ++ x.root.toList.map .message ++ [.room]

/-- The numbers that a request takes. -/
def numbered (w : MarkRequest) (root : Option Ulid) (r : RoomRecord) : Option RoomRecord :=
  match w with
  | changePin _ _ _ _ | changeReaction _ _ _ _ => r.allocateChangeSeq 1
  | deleteMessage _ _ => r.allocateChangeSeq (if root.isSome then 2 else 1)
  | sendMessage _ _ _ => r.allocateMessageSeq
  | sendThreadReply _ _ _ _ alsoInChannel => r.allocateThreadReplySeq alsoInChannel

end MarkRequest

namespace MarkedRoom

variable (db : MarkedRoom)

/-- How many messages are pinned (`CountRoomPins`). -/
def countRoomPins : ℕ := db.ids.countP fun id => (db.row id).pinned.isSome

/-- What somebody sent under a number of the client (`GetMessageIDByClientMsgID`). -/
def sent (actor clientMsgId : Ulid) : Option Ulid :=
  db.ids.find? fun id =>
    decide ((db.row id).senderId = actor ∧ (db.row id).clientMsgId = clientMsgId)

def updateMessage (id : Ulid) (f : MarkedMessage → MarkedMessage) : MarkedRoom :=
  { db with row := Function.update db.row id (f (db.row id)) }

/-- Insert a message. One whose id is taken is refused before (`RoomMarks.next`). -/
def createMessage (id : Ulid) (m : MarkedMessage) : MarkedRoom :=
  if h : id ∈ db.ids then db
  else
    { db with
      ids := id :: db.ids
      row := Function.update db.row id m
      nodup := List.nodup_cons.mpr ⟨h, db.nodup⟩ }

/-- The row of what a user wrote. -/
def userMessage (sender clientMsgId : Ulid) (root : Option Ulid) (changeSeq : ℕ) :
    MarkedMessage where
  kind := .user
  systemType := none
  threadRootId := root
  senderId := sender
  clientMsgId := clientMsgId
  changeSeq := changeSeq
  deleted := false
  pinned := none
  reactions := []

/-- **What a request has written**, with the numbers that it took. -/
def perform (w : MarkRequest) (x : MarkWrite) : MarkedRoom :=
  let last := x.numbers.lastChangeSeq
  let db := { db with room := x.numbers }
  match w with
  | .changePin actor message pin now =>
    db.updateMessage message fun m => { m with
      pinned := if pin then some (actor, now) else none
      changeSeq := last }
  | .changeReaction actor message emoji add =>
    db.updateMessage message fun m => { m with
      reactions := if add then m.reactions.addMessageReaction actor emoji
        else m.reactions.removeMessageReaction actor emoji
      changeSeq := last }
  | .deleteMessage _ message =>
    match x.root with
    | none =>
      db.updateMessage message fun m => { m with
        deleted := true
        pinned := none
        changeSeq := last }
    | some root =>
      -- the reply has the first number, its root the second one
      (db.updateMessage message fun m => { m with
        deleted := true
        pinned := none
        changeSeq := last - 1 }).updateMessage root fun m => { m with changeSeq := last }
  | .sendMessage actor clientMsgId id =>
    db.createMessage id (userMessage actor clientMsgId none last)
  | .sendThreadReply actor clientMsgId id root _ =>
    (db.updateMessage root fun m => { m with changeSeq := last }).createMessage id
      (userMessage actor clientMsgId (some root) (last - 1))

/-- The rows as the transaction of a request sees them. -/
def view (w : MarkRequest) : Option MarkWrite → MarkedRoom
  | none => db
  | some x => db.perform w x

/-- A message as it is answered to somebody. -/
def answer (id viewer : Ulid) : MarkedAnswer := (db.row id).answer id viewer (db.row id).reactions

end MarkedRoom

/-- What is delivered. -/
inductive MarkEvent
  | messageCreated (message : MarkedAnswer)
  | messageUpdated (message : MarkedAnswer)
  | messageDeleted (message : MarkedAnswer)
  | activityReaction (sender reactor : Ulid) (message : Ulid) (emoji : String) (added : Bool)
  deriving DecidableEq

/-- **How a request has ended**: the rows before and after it, what was answered, and what was
delivered. Who sends learns if the message was created. -/
structure MarkOutcome where
  before : MarkedRoom
  after : MarkedRoom
  answer : Except ChatError (Option MarkedAnswer)
  created : Bool
  events : List MarkEvent

/-- **Where a request is.** -/
inductive MarkTask
  /-- About to read the room. -/
  | access (w : MarkRequest)
  /-- Waiting for the row of the member. -/
  | member (w : MarkRequest) (archived : Bool)
  /-- Waiting for the row of the message. -/
  | target (w : MarkRequest) (archived : Bool)
  /-- Waiting for the root of the reply that is deleted. -/
  | threadRoot (w : MarkRequest) (root : Ulid)
  /-- About to change the rows of the reactions. -/
  | reacting (w : MarkRequest)
  /-- Waiting for the row of the room, and about to number. -/
  | allocate (w : MarkRequest) (root : Option Ulid)
  /-- About to write with the numbers. -/
  | writing (w : MarkRequest) (x : MarkWrite)
  /-- About to read the row of a message. -/
  | reading (w : MarkRequest) (x : Option MarkWrite) (id : Ulid)
  /-- About to read its reactions. -/
  | readingReactions (w : MarkRequest) (x : Option MarkWrite) (id : Ulid) (seen : MarkedMessage)
  /-- About to commit. -/
  | committing (w : MarkRequest) (x : Option MarkWrite) (answer : MarkedAnswer)
  | done (w : MarkRequest) (o : MarkOutcome)

namespace MarkTask

/-- **The rows that the transaction of a request holds.** -/
def holds : MarkTask → List RoomRow
  | access _ | member _ _ | done _ _ => []
  | target w _ => w.memberRows
  | threadRoot w _ | reacting w => w.targetRows
  | allocate w root => w.targetRows ++ root.toList.map .message
  | writing w x => w.readRows (some x)
  | reading w x _ | readingReactions w x _ _ | committing w x _ => w.readRows x

def request : MarkTask → MarkRequest
  | access w | member w _ | target w _ | threadRoot w _ | reacting w | allocate w _
  | writing w _ | reading w _ _ | readingReactions w _ _ _ | committing w _ _ | done w _ => w

end MarkTask

/-- What one step comes to: a request goes on, or it has ended and others see its rows. -/
inductive MarkMove
  | goes (t : MarkTask)
  | ends (after : MarkedRoom) (answer : Except ChatError (Option MarkedAnswer)) (created : Bool)
      (events : List MarkEvent)

/-- What does not change in a run: who is what to the room, which emojis there are, and who wants to
hear of reactions to what they wrote. -/
structure MarkSetting extends RoomSetting where
  validEmoji : String → Bool
  reactionActivityTarget : Ulid → Bool

/-- **A room and the requests to it.** -/
structure RoomMarks where
  db : MarkedRoom
  tasks : List MarkTask

/-- What happens: a request begins, goes on, or its transaction fails; or the room is archived or
unarchived, which is one transaction that holds no row but the room's. -/
inductive RoomMarksAction
  | start (w : MarkRequest)
  | step (i : ℕ)
  | fail (i : ℕ)
  | setArchived (actor log : Ulid) (archive : Bool)

namespace RoomMarks

open MarkTask hiding holds request
open MarkRequest hiding actor target marked sends subject memberRows targetRows readRows numbered

variable (d : MarkSetting) (s : RoomMarks)

/-- No transaction holds a row. -/
abbrev FreeRow (r : RoomRow) : Prop := HeldRows.Free MarkTask.holds s.tasks r

def goes (t : MarkTask) : Option MarkMove := some (.goes t)

/-- A transaction is rolled back. -/
def refuse (error : ChatError) : Option MarkMove := some (.ends s.db (.error error) false [])

/-- What a request does with the room as it was read. -/
def accessed (archived : Bool) (w : MarkRequest) : Option MarkMove :=
  let r := d.judged archived
  if !canReadRoom r (d.actors w.actor) then s.refuse .notFound
  else
    match w with
    | changePin actor _ _ _ =>
      match authorize r (canPinMessage · (d.actors actor)) with
      | some error => s.refuse error
      | none => goes (target w archived)
    | changeReaction actor _ _ _ =>
      match authorize r (canWriteRoom · (d.actors actor)) with
      | some error => s.refuse error
      | none => goes (target w archived)
    | deleteMessage _ _ => goes (target w archived)
    | sendMessage actor clientMsgId _ =>
      match authorize r (canWriteRoom · (d.actors actor)) with
      | some error => s.refuse error
      | none =>
        match s.db.sent actor clientMsgId with
        | some existing => goes (reading w none existing)
        | none => goes (allocate w none)
    | sendThreadReply actor clientMsgId _ _ _ =>
      match authorize r (canWriteRoom · (d.actors actor)) with
      | some error => s.refuse error
      | none =>
        match s.db.sent actor clientMsgId with
        | some existing => goes (reading w none existing)
        | none => goes (target w archived)

/-- What a request does with the message that it has locked. -/
def targeted (archived : Bool) (w : MarkRequest) (m : MarkedMessage) : Option MarkMove :=
  match w with
  | changePin _ message pin _ =>
    if m.deleted then s.refuse .notFound
    else if m.kind = .system then s.refuse (.invalid "message_id" "invalid_value")
    else if m.pinned.isSome = pin then goes (reading w none message)
    else goes (allocate w none)
  | changeReaction _ _ _ _ =>
    if m.deleted then s.refuse .notFound
    else if m.kind = .system then s.refuse (.invalid "message_id" "invalid_value")
    else goes (reacting w)
  | deleteMessage actor _ =>
    if m.kind = .system then s.refuse .forbidden
    else
      match authorize (d.judged archived)
        (fun r => canDeleteMessage r (d.actors actor) (decide (m.senderId = actor))
          (d.actors m.senderId).role) with
      | some error => s.refuse error
      | none =>
        if m.deleted then some (.ends s.db (.ok none) false [])
        else
          match m.threadRootId with
          | some r => goes (.threadRoot w r)
          | none => goes (allocate w none)
  | sendMessage _ _ _ => goes (allocate w none)
  | sendThreadReply _ _ _ _ _ =>
    if isThreadRoot m.toMessageRow then goes (allocate w none)
    else s.refuse (.invalid "thread_root_id" "invalid_value")

/-- What is delivered of a request that has written. The activity of who wrote the message is told
of a reaction, unless it is their own. -/
def events (w : MarkRequest) (x : MarkWrite) (answer : MarkedAnswer) : List MarkEvent :=
  let db := s.db.perform w x
  match w with
  | changePin _ _ _ _ => [.messageUpdated answer]
  | changeReaction actor message emoji add =>
    let sender := (db.row message).senderId
    .messageUpdated answer ::
      if sender ≠ actor ∧ d.reactionActivityTarget sender then
        [.activityReaction sender actor message emoji add]
      else []
  | deleteMessage actor _ =>
    .messageDeleted answer :: x.root.toList.map fun root => .messageUpdated (db.answer root actor)
  | sendMessage _ _ _ => [.messageCreated answer]
  | sendThreadReply actor _ _ root _ =>
    [.messageCreated answer, .messageUpdated (db.answer root actor)]

/-- What a request is answered. Who deletes gets no message. -/
def returned (w : MarkRequest) (answer : MarkedAnswer) : Option MarkedAnswer :=
  match w with
  | deleteMessage _ _ => none
  | _ => some answer

/-- **One step of a request.** -/
def next : MarkTask → Option MarkMove
  | access w =>
    match w with
    | changeReaction _ _ emoji _ =>
      if d.validEmoji emoji then goes (member w s.db.room.archived)
      else s.refuse (.invalid "emoji" "invalid_value")
    | deleteMessage _ message =>
      -- whose message is deleted is read before anything else
      if message ∈ s.db.ids then goes (member w s.db.room.archived) else s.refuse .notFound
    | w => goes (member w s.db.room.archived)
  | member w archived =>
    if ∀ r ∈ w.memberRows, s.FreeRow r then s.accessed d archived w else none
  | target w archived =>
    match w.target with
    | none => none
    | some message =>
      if s.FreeRow (.message message) then
        if message ∈ s.db.ids then s.targeted d archived w (s.db.row message)
        else
          match w with
          | sendThreadReply _ _ _ _ _ => s.refuse (.invalid "thread_root_id" "invalid_value")
          | _ => s.refuse .notFound
      else none
  | .threadRoot w r => if s.FreeRow (.message r) then goes (allocate w (some r)) else none
  | reacting w =>
    match w with
    | changeReaction actor message emoji add =>
      let rows := (s.db.row message).reactions
      match rows.changeReaction actor emoji add with
      | none => s.refuse (.invalid "emoji" "too_many")
      | some _ =>
        if rows.changesReaction actor emoji add then goes (allocate w none)
        else goes (reading w none message)
    | _ => none
  | allocate w r =>
    if s.FreeRow .room then
      match w.numbered r s.db.room with
      | some numbers => goes (writing w ⟨numbers, r⟩)
      | none => s.refuse .roomArchived
    else none
  | writing w x =>
    match w with
    | changePin _ message pin _ =>
      if pin ∧ maxRoomPins ≤ s.db.countRoomPins then s.refuse (.invalid "pinned" "too_many")
      else goes (reading w (some x) message)
    | sendMessage _ _ id | sendThreadReply _ _ id _ _ =>
      if id ∈ s.db.ids then s.refuse .failed else goes (reading w (some x) id)
    | changeReaction _ message _ _ | deleteMessage _ message => goes (reading w (some x) message)
  | reading w x id => goes (readingReactions w x id ((s.db.view w x).row id))
  | readingReactions w x id seen =>
    goes (committing w x (seen.answer id w.actor ((s.db.view w x).row id).reactions))
  | committing w none answer => some (.ends s.db (.ok (returned w answer)) false [])
  | committing w (some x) answer =>
    some (.ends (s.db.perform w x) (.ok (returned w answer)) w.sends (s.events d w x answer))
  | done _ _ => none

/-- A step has been taken by the request at a place. -/
def moved (i : ℕ) (w : MarkRequest) : MarkMove → RoomMarks
  | .goes t => { s with tasks := s.tasks.set i t }
  | .ends after answer created events =>
    { db := after
      tasks := s.tasks.set i (done w ⟨s.db, after, answer, created, events⟩) }

/-- The log line that the room was archived or unarchived. -/
def logMessage (actor log : Ulid) (archive : Bool) (changeSeq : ℕ) : MarkedMessage where
  kind := .system
  systemType := some (if archive then .roomArchived else .roomUnarchived)
  threadRootId := none
  senderId := actor
  clientMsgId := log
  changeSeq := changeSeq
  deleted := false
  pinned := none
  reactions := []

/-- One step. -/
def act : RoomMarksAction → Option RoomMarks
  | .start w => some { s with tasks := s.tasks ++ [access w] }
  | .step i =>
    match s.tasks[i]? with
    | none => none
    | some t => (s.next d t).map (s.moved i t.request)
  | .fail i =>
    match s.tasks[i]? with
    | none | some (done _ _) => none
    | some t => some (s.moved i t.request (.ends s.db (.error .failed) false []))
  | .setArchived actor log archive =>
    if s.FreeRow .room ∧ s.db.room.archived ≠ archive ∧ log ∉ s.db.ids then
      let numbers := s.db.room.allocateSystemMessageSeq
      some { s with
        db := { s.db with room := { numbers with archived := archive } }.createMessage log
          (logMessage actor log archive numbers.lastChangeSeq) }
    else none

/-- Any messages without a mark, and no request. -/
def New : Prop :=
  s.tasks = [] ∧ ∀ id ∈ s.db.ids, (s.db.row id).pinned = none ∧ (s.db.row id).reactions = [] ∧
    (s.db.row id).changeSeq ≤ s.db.room.lastChangeSeq

/-- **The requests to a room at once.** -/
def system : TransitionSystem RoomMarks RoomMarksAction where
  init := New
  step s a := act d s a

end RoomMarks

end Hibari
