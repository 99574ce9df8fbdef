import Hibari.RoomArchive

/-!
# The counters of a room

A room's row has three counters. Every message takes the next `seq`, every version of
a message the next `change_seq`, and what people say in the channel the next
`user_seq`; a message that is not counted has the `user_seq` of the one before it. A
member's row has how far the member has read, by both. A thread counts its replies
once more, in the row of its root, and who follows it has a row with the number of the
last reply that was read.

This module is what the transactions write, one statement after another, and each
transaction as a whole: what it reads under the locks it holds (`admits`), the numbers
it takes (`allocate`) and what it leaves (`written`). Mentions in a body, and who is
online when one addresses whoever is, come with a reply. Bodies are checked before,
and times, attachments, previews and reactions are left out; a change of these is a
change of the message's number (`touchMessage`).
-/

namespace Hibari

open List Option

/-! ## The rows -/

/-- A message in the database, as far as it is counted. -/
structure LedgerMessage extends MessageRow where
  id : Ulid
  seq : ℕ
  changeSeq : ℕ
  userSeq : ℕ
  senderId : Ulid
  clientMsgId : Ulid
  body : String
  inChannel : Bool
  threadSeq : Option ℕ
  lastThreadSeq : ℕ
  threadReplyCount : ℤ
  deleted : Bool
  deriving DecidableEq

/-- A member of the room, and how far the member has read. Who leaves and comes back
has another row. -/
structure RoomMember where
  row : ℕ
  userId : Ulid
  lastReadSeq : ℕ
  lastReadUserSeq : ℕ
  deriving DecidableEq

/-- Who follows a thread, and how far the thread was read. -/
structure ThreadMember where
  threadRootId : Ulid
  userId : Ulid
  lastReadThreadSeq : ℕ
  deriving DecidableEq

/-- **The rows of a room**, messages in the order in which they were inserted. -/
structure RoomLedger where
  room : RoomRecord
  messages : List LedgerMessage
  members : List RoomMember
  threadMembers : List ThreadMember
  /-- How many rows of members there have been. -/
  memberRows : ℕ
  deriving DecidableEq

/-- What the mentions of a body come to: everybody, or these users and those online. -/
structure BodyMentions where
  channel : Bool
  users : List Ulid
  hereTargets : List Ulid
  deriving DecidableEq

/-- Why a message that stays as it is gets a new number. -/
inductive MessageTouch
  | changeReaction
  | changePin
  | deleteAttachment
  | removeLinkPreview
  | completeLinkPreview
  deriving DecidableEq

namespace RoomLedger

/-- A room in which nothing has happened. -/
def empty : RoomLedger := ⟨⟨false, 0, 0, 0⟩, [], [], [], 0⟩

variable (l : RoomLedger)

/-! ## Statements -/

/-- `GetMessageForUpdate`. -/
def getMessage (id : Ulid) : Option LedgerMessage := l.messages.find? (fun m => decide (m.id = id))

/-- `LockRoomMemberships`: whether the user has a row. -/
def isMember (userId : Ulid) : Bool := l.members.any (fun rm => decide (rm.userId = userId))

/-- `GetMessageIDByClientMsgID`. -/
def getMessageIDByClientMsgID (senderId clientMsgId : Ulid) : Option Ulid :=
  (l.messages.find?
    (fun m => decide (m.senderId = senderId ∧ m.clientMsgId = clientMsgId))).map LedgerMessage.id

/-- Write a message that is there. -/
def updateMessage (id : Ulid) (f : LedgerMessage → LedgerMessage) : RoomLedger :=
  { l with messages := l.messages.map fun m => if m.id = id then f m else m }

/-- `CreateMessage` and `CreateSystemMessage`, if neither the id nor the sender's own id
is taken. -/
def createMessage (m : LedgerMessage) : Option RoomLedger :=
  if l.messages.any (fun x => decide (x.id = m.id ∨
      (x.senderId = m.senderId ∧ x.clientMsgId = m.clientMsgId))) then none
  else some { l with messages := l.messages ++ [m] }

/-- The `user_seq` of the last message up to a position. -/
def userSeqAt (messages : List LedgerMessage) (seq : ℕ) : ℕ :=
  (((messages.filter (fun m => decide (m.seq ≤ seq))).getLast?).map LedgerMessage.userSeq).getD 0

/-- What `AdvanceLastReadSeq` makes of a row, by the room and the messages that it sees. -/
def advanced (rm : RoomMember) (seq : ℕ) : RoomMember :=
  { rm with
    lastReadSeq := max rm.lastReadSeq (min seq l.room.lastMessageSeq)
    lastReadUserSeq := max rm.lastReadUserSeq
      (userSeqAt l.messages (min seq l.room.lastMessageSeq)) }

/-- `AdvanceLastReadSeq`. -/
def advanceLastReadSeq (userId : Ulid) (seq : ℕ) : RoomLedger :=
  { l with members := l.members.map fun rm => if rm.userId = userId then l.advanced rm seq else rm }

/-- `AddRoomMember`: what was written before is read. -/
def addRoomMember (userId : Ulid) : RoomLedger :=
  if l.isMember userId then l
  else { l with
    members := l.members ++ [⟨l.memberRows, userId, l.room.lastMessageSeq, l.room.lastUserSeq⟩]
    memberRows := l.memberRows + 1 }

/-- `DeleteRoomMember`. The threads that were followed go with it. -/
def deleteRoomMember (userId : Ulid) : RoomLedger :=
  { l with
    members := l.members.filter (fun rm => decide (rm.userId ≠ userId))
    threadMembers := l.threadMembers.filter (fun tm => decide (tm.userId ≠ userId)) }

/-- Whether a user follows a thread. -/
def follows (root userId : Ulid) : Bool :=
  l.threadMembers.any (fun tm => decide (tm.threadRootId = root ∧ tm.userId = userId))

/-- `FollowThread`: only a member of the room, and not one who follows it. -/
def followThread (root : Ulid) (lastReadThreadSeq : ℕ) (userId : Ulid) : RoomLedger :=
  if l.isMember userId && !l.follows root userId then
    { l with threadMembers := l.threadMembers ++ [⟨root, userId, lastReadThreadSeq⟩] }
  else l

/-- `FollowThreadForMentioned`. -/
def followThreadForMentioned (root : Ulid) (users : List Ulid) (lastReadThreadSeq : ℕ) :
    RoomLedger :=
  users.foldl (fun l u => l.followThread root lastReadThreadSeq u) l

/-- `FollowThreadForRoomMembers`. -/
def followThreadForRoomMembers (root : Ulid) (lastReadThreadSeq : ℕ) : RoomLedger :=
  l.followThreadForMentioned root (l.members.map RoomMember.userId) lastReadThreadSeq

/-- Move the position of who follows a thread, never back. -/
def advanceThread (root userId : Ulid) (threadSeq : ℕ) : RoomLedger :=
  { l with
    threadMembers := l.threadMembers.map fun tm =>
      if tm.threadRootId = root ∧ tm.userId = userId then
        { tm with lastReadThreadSeq := max tm.lastReadThreadSeq threadSeq }
      else tm }

/-- `AdvanceThreadReadToThreadSeq`. -/
def advanceThreadReadToThreadSeq (root userId : Ulid) (threadSeq : ℕ) : RoomLedger :=
  l.advanceThread root userId threadSeq

/-- The replies of a thread. -/
def replies (root : Ulid) : List LedgerMessage :=
  l.messages.filter (fun m => decide (m.threadRootId = some root))

/-- `AdvanceThreadRead`: up to the last reply at or before a position. -/
def advanceThreadRead (root userId : Ulid) (seq : ℕ) : RoomLedger :=
  l.advanceThread root userId
    ((((l.replies root).filter (fun m => decide (m.seq ≤ seq))).getLast?.bind
      LedgerMessage.threadSeq).getD 0)

/-! ## Transactions -/

/-- The row of what a user says. -/
def userMessage (numbers : RoomRecord) (changeSeq : ℕ) (actor clientMsgId id : Ulid)
    (body : String) (root : Option Ulid) (threadSeq : Option ℕ) (inChannel : Bool) :
    LedgerMessage where
  kind := .user
  systemType := none
  threadRootId := root
  id := id
  seq := numbers.lastMessageSeq
  changeSeq := changeSeq
  userSeq := numbers.lastUserSeq
  senderId := actor
  clientMsgId := clientMsgId
  body := body
  inChannel := inChannel
  threadSeq := threadSeq
  lastThreadSeq := 0
  threadReplyCount := 0
  deleted := false

/-- The row of a log line. -/
def systemMessage (numbers : RoomRecord) (subject clientMsgId id : Ulid) (type : SystemEventType) :
    LedgerMessage where
  kind := .system
  systemType := some type
  threadRootId := none
  id := id
  seq := numbers.lastMessageSeq
  changeSeq := numbers.lastChangeSeq
  userSeq := numbers.lastUserSeq
  senderId := subject
  clientMsgId := clientMsgId
  body := ""
  inChannel := true
  threadSeq := none
  lastThreadSeq := 0
  threadReplyCount := 0
  deleted := false

end RoomLedger

/-- **A transaction that writes messages.** Ids that are drawn come with it. -/
inductive LedgerWrite
  | sendMessage (actor clientMsgId id : Ulid) (body : String)
  | sendThreadReply (actor clientMsgId id root : Ulid) (body : String) (alsoInChannel : Bool)
      (mentions : BodyMentions)
  | editMessage (message : Ulid) (body : String)
  | deleteMessage (message : Ulid)
  | touchMessage (why : MessageTouch) (message : Ulid)
  | writeSystemMessage (subject clientMsgId id : Ulid) (type : SystemEventType)
  | writeHuddleMessage (starter clientMsgId id : Ulid)
  | touchHuddleMessage (message : Ulid)
  deriving DecidableEq

namespace RoomLedger

variable (kind : RoomKind) (l : RoomLedger)

/-- **What a transaction reads** in the rows that it has locked, before it takes numbers:
whether it goes on. -/
def admits : LedgerWrite → Bool
  | .sendMessage actor clientMsgId _ _ =>
    l.isMember actor && (l.getMessageIDByClientMsgID actor clientMsgId).isNone
  | .sendThreadReply actor clientMsgId _ root _ _ _ =>
    l.isMember actor && (l.getMessageIDByClientMsgID actor clientMsgId).isNone &&
      (l.getMessage root).any (fun m => isThreadRoot m.toMessageRow)
  | .editMessage message body =>
    (l.getMessage message).any
      (fun m => decide (m.kind = .user) && !m.deleted && decide (m.body ≠ body))
  | .deleteMessage message | .touchMessage _ message =>
    (l.getMessage message).any (fun m => decide (m.kind = .user) && !m.deleted)
  | .writeSystemMessage _ _ _ type => decide (type ≠ .huddle)
  | .writeHuddleMessage starter _ _ => l.isMember starter
  | .touchHuddleMessage message =>
    (l.getMessage message).any (fun m => decide (m.systemType = some .huddle))

/-- **The numbers that a transaction takes**, none in an archived room except for log
lines and huddles. -/
def allocate : LedgerWrite → Option RoomRecord
  | .sendMessage _ _ _ _ => l.room.allocateMessageSeq
  | .sendThreadReply _ _ _ _ _ alsoInChannel _ => l.room.allocateThreadReplySeq alsoInChannel
  | .editMessage _ _ | .touchMessage _ _ => l.room.allocateChangeSeq 1
  | .deleteMessage message =>
    l.room.allocateChangeSeq
      (if (l.getMessage message).any (fun m => m.threadRootId.isSome) then 2 else 1)
  | .writeSystemMessage _ _ _ _ => some l.room.allocateSystemMessageSeq
  | .writeHuddleMessage _ _ _ =>
    if kind = .roomDM then l.room.allocateMessageSeq else some l.room.allocateSystemMessageSeq
  | .touchHuddleMessage _ => some l.room.allocateHuddleChangeSeq

/-- Who follows a thread after a reply: its sender, who has read it; the root's sender,
and everybody in a DM, from the first reply on; and who is mentioned. -/
def followReply (actor root rootSender : Ulid) (threadSeq : ℕ) (mentions : BodyMentions) :
    RoomLedger :=
  let l := if l.isMember actor && !l.follows root actor then l.followThread root threadSeq actor
    else l.advanceThreadReadToThreadSeq root actor threadSeq
  let l := if threadSeq = 1 ∧ rootSender ≠ actor then l.followThread root 0 rootSender else l
  let l := if threadSeq = 1 ∧ kind = .roomDM then l.followThreadForRoomMembers root 0 else l
  if mentions.channel then l.followThreadForRoomMembers root (threadSeq - 1)
  else l.followThreadForMentioned root (mentions.users ++ mentions.hereTargets) (threadSeq - 1)

/-- **What a transaction writes** with the numbers it took. -/
def written (numbers : RoomRecord) : LedgerWrite → Option RoomLedger
  | .sendMessage actor clientMsgId id body =>
    ({ l with room := numbers }.createMessage
      (userMessage numbers numbers.lastChangeSeq actor clientMsgId id body none none true)).map
        fun l : RoomLedger => l.advanceLastReadSeq actor numbers.lastMessageSeq
  | .sendThreadReply actor clientMsgId id root body alsoInChannel mentions =>
    match l.getMessage root with
    | none => none
    | some m =>
      let threadSeq := m.lastThreadSeq + 1
      (({ l with room := numbers }.updateMessage root fun m => { m with
        lastThreadSeq := m.lastThreadSeq + 1
        threadReplyCount := m.threadReplyCount + 1
        changeSeq := numbers.lastChangeSeq }).createMessage
          (userMessage numbers (numbers.lastChangeSeq - 1) actor clientMsgId id body (some root)
            (some threadSeq) alsoInChannel)).map fun l : RoomLedger =>
        let l := if alsoInChannel then l.advanceLastReadSeq actor numbers.lastMessageSeq else l
        l.followReply kind actor root m.senderId threadSeq mentions
  | .editMessage message body =>
    some <| { l with room := numbers }.updateMessage message fun m => { m with
      body := body
      changeSeq := numbers.lastChangeSeq }
  | .deleteMessage message =>
    match (l.getMessage message).bind (fun m => m.threadRootId) with
    | some root =>
      some <| ({ l with room := numbers }.updateMessage message fun m => { m with
        body := ""
        deleted := true
        changeSeq := numbers.lastChangeSeq - 1 }).updateMessage root fun m => { m with
          threadReplyCount := m.threadReplyCount - 1
          changeSeq := numbers.lastChangeSeq }
    | none =>
      some <| { l with room := numbers }.updateMessage message fun m => { m with
        body := ""
        deleted := true
        changeSeq := numbers.lastChangeSeq }
  | .touchMessage _ message | .touchHuddleMessage message =>
    some <| { l with room := numbers }.updateMessage message fun m => { m with
      changeSeq := numbers.lastChangeSeq }
  | .writeSystemMessage subject clientMsgId id type =>
    { l with room := numbers }.createMessage (systemMessage numbers subject clientMsgId id type)
  | .writeHuddleMessage starter clientMsgId id =>
    ({ l with room := numbers }.createMessage
      (systemMessage numbers starter clientMsgId id .huddle)).map fun l : RoomLedger =>
        if kind = RoomKind.roomDM then l.advanceLastReadSeq starter numbers.lastMessageSeq else l

/-- **A transaction as a whole**, where nobody steps in between. -/
def perform (w : LedgerWrite) : Option RoomLedger :=
  if l.admits w then (l.allocate kind w).bind (fun numbers => l.written kind numbers w) else none

end RoomLedger

/-! ## Runs

The transactions of a room commit one after another. One statement does not fit in with
that: `MarkRoomRead` locks no row before it writes the member's, and where it waits for
that row it writes what the row has become, by the room and the messages as they were when
it began. So it begins in one step and ends in another. -/

/-- `MarkRoomRead` that has begun, and what it sees of the room. -/
structure PendingRead where
  row : ℕ
  seq : ℕ
  seen : RoomLedger
  deriving DecidableEq

/-- What `MarkRoomRead` answers, and sends to the member. -/
structure ReadState where
  lastReadSeq : ℕ
  lastReadUserSeq : ℕ
  unreadCount : ℤ
  deriving DecidableEq

/-- A room, with what is being marked as read, and what was answered. -/
structure RoomRun where
  ledger : RoomLedger
  pending : List PendingRead
  answers : List ReadState
  deriving DecidableEq

/-- What commits, or happens to `MarkRoomRead`. -/
inductive RoomRunAction
  | write (w : LedgerWrite)
  | joinRoom (userId clientMsgId id : Ulid)
  | leaveRoom (userId clientMsgId id : Ulid) (removed : Bool)
  | leaveWorkspace (userId : Ulid)
  | setArchived (archived : Bool) (actor clientMsgId id : Ulid)
  | markThreadRead (userId root : Ulid) (seq : ℕ)
  | followThread (userId root : Ulid)
  | markRoomRead (userId : Ulid) (seq : ℕ)
  | marked (i : ℕ)
  deriving DecidableEq

namespace RoomLedger

variable (kind : RoomKind) (l : RoomLedger)

/-- A log line of a transaction, with the numbers that it takes. -/
def logged (subject clientMsgId id : Ulid) (type : SystemEventType) : Option RoomLedger :=
  l.written kind l.room.allocateSystemMessageSeq (.writeSystemMessage subject clientMsgId id type)

/-- `JoinRoom`, `AddRoomMember` and `createDM`: who is a member already changes nothing. In
a DM there is no log. -/
def joinRoom (userId clientMsgId id : Ulid) : Option RoomLedger :=
  if l.isMember userId then none
  else if kind = .roomDM then some (l.addRoomMember userId)
  else (l.addRoomMember userId).logged kind userId clientMsgId id .memberJoined

/-- `RemoveRoomMember`. -/
def leaveRoom (userId clientMsgId id : Ulid) (removed : Bool) : Option RoomLedger :=
  if l.isMember userId && decide (kind ≠ .roomDM) then
    (l.deleteRoomMember userId).logged kind userId clientMsgId id
      (if removed then .memberRemoved else .memberLeft)
  else none

/-- `setRoomArchived`. -/
def setArchived (archived : Bool) (actor clientMsgId id : Ulid) : Option RoomLedger :=
  if l.room.archived = archived ∨ kind = .roomDM then none
  else (l.logged kind actor clientMsgId id
    (if archived then .roomArchived else .roomUnarchived)).map fun l : RoomLedger =>
      { l with room := { l.room with archived := archived } }

/-- `SetThreadNotifications`: a thread that has replies is followed from where it is. -/
def followFromNow (userId root : Ulid) : Option RoomLedger :=
  match l.getMessage root with
  | some m =>
    if isThreadRoot m.toMessageRow && decide (m.lastThreadSeq ≠ 0) then
      some (l.followThread root m.lastThreadSeq userId)
    else none
  | none => none

end RoomLedger

namespace RoomRun

variable (kind : RoomKind) (s : RoomRun)

/-- `MarkRoomRead` gets the row: the one that it saw, if it is still there. -/
def mark (p : PendingRead) : RoomRun :=
  match s.ledger.members.find? (fun rm => decide (rm.row = p.row)) with
  | some rm =>
    let rm' := p.seen.advanced rm p.seq
    { s with
      ledger := { s.ledger with
        members := s.ledger.members.map fun x => if x.row = p.row then p.seen.advanced x p.seq else x }
      answers := s.answers ++ [⟨rm'.lastReadSeq, rm'.lastReadUserSeq,
        (p.seen.room.lastUserSeq : ℤ) - rm'.lastReadUserSeq⟩] }
  | none => s

/-- One step. -/
def act : RoomRunAction → Option RoomRun
  | .write w => (s.ledger.perform kind w).map fun l => { s with ledger := l }
  | .joinRoom userId clientMsgId id =>
    (s.ledger.joinRoom kind userId clientMsgId id).map fun l => { s with ledger := l }
  | .leaveRoom userId clientMsgId id removed =>
    (s.ledger.leaveRoom kind userId clientMsgId id removed).map fun l => { s with ledger := l }
  | .leaveWorkspace userId => some { s with ledger := s.ledger.deleteRoomMember userId }
  | .setArchived archived actor clientMsgId id =>
    (s.ledger.setArchived kind archived actor clientMsgId id).map fun l => { s with ledger := l }
  | .markThreadRead userId root seq =>
    some { s with ledger := s.ledger.advanceThreadRead root userId seq }
  | .followThread userId root =>
    (s.ledger.followFromNow userId root).map fun l => { s with ledger := l }
  | .markRoomRead userId seq =>
    (s.ledger.members.find? (fun rm => decide (rm.userId = userId))).map fun rm =>
      { s with pending := s.pending ++ [⟨rm.row, seq, s.ledger⟩] }
  | .marked i =>
    match s.pending[i]? with
    | some p => some ({ s with pending := s.pending.eraseIdx i }.mark p)
    | none => none

/-- **The runs of a room** in which nothing has happened. -/
def system : TransitionSystem RoomRun RoomRunAction where
  init s := s = ⟨.empty, [], []⟩
  step s a := act kind s a

end RoomRun

/-! ## The numbers that are given out -/

namespace RoomRecord

variable {r numbers : RoomRecord}

theorem eq_of_allocateMessageSeq (h : r.allocateMessageSeq = some numbers) : { r with
      lastMessageSeq := r.lastMessageSeq + 1
      lastChangeSeq := r.lastChangeSeq + 1
      lastUserSeq := r.lastUserSeq + 1 } = numbers := by
  unfold allocateMessageSeq at h
  split at h
  · cases h
  · exact some.inj h

theorem eq_of_allocateThreadReplySeq {inChannel : Bool}
    (h : r.allocateThreadReplySeq inChannel = some numbers) :
    { r with
      lastMessageSeq := r.lastMessageSeq + 1
      lastChangeSeq := r.lastChangeSeq + 2
      lastUserSeq := r.lastUserSeq + if inChannel then 1 else 0 } = numbers := by
  unfold allocateThreadReplySeq at h
  by_cases harchived : r.archived = true
  · rw [if_pos harchived] at h
    cases h
  · rw [if_neg harchived] at h
    exact some.inj h

theorem eq_of_allocateChangeSeq {n : ℕ} (h : r.allocateChangeSeq n = some numbers) :
    { r with lastChangeSeq := r.lastChangeSeq + n } = numbers := by
  unfold allocateChangeSeq at h
  split at h
  · cases h
  · exact some.inj h

end RoomRecord

/-! ## What never changes about a message -/

/-- What a message is inserted with, and keeps. -/
structure MessageFrame extends MessageRow where
  id : Ulid
  seq : ℕ
  userSeq : ℕ
  senderId : Ulid
  clientMsgId : Ulid
  inChannel : Bool
  threadSeq : Option ℕ
  deriving DecidableEq

def LedgerMessage.frame (m : LedgerMessage) : MessageFrame :=
  ⟨m.toMessageRow, m.id, m.seq, m.userSeq, m.senderId, m.clientMsgId, m.inChannel, m.threadSeq⟩

namespace RoomLedger

variable {kind : RoomKind} {l l' : RoomLedger} {w : LedgerWrite} {numbers : RoomRecord}
  {f : LedgerMessage → LedgerMessage} {m : LedgerMessage}

/-- What never changes, of all messages. -/
def frames (l : RoomLedger) : List MessageFrame := l.messages.map LedgerMessage.frame

theorem frames_updateMessage (id : Ulid)
    (hf : ∀ m, (f m).frame = m.frame) : (l.updateMessage id f).frames = l.frames := by
  unfold frames updateMessage
  rw [List.map_map]
  refine map_congr_left fun m _ => ?_
  show (if m.id = id then f m else m).frame = m.frame
  split
  · exact hf m
  · rfl

/-- **A message is inserted at the end**, with an id of its own, and what its sender named
it is new. -/
theorem createMessage_eq_some (h : l.createMessage m = some l') :
    l' = { l with messages := l.messages ++ [m] } ∧ (∀ x ∈ l.messages, x.id ≠ m.id) ∧
      ∀ x ∈ l.messages, x.senderId = m.senderId → x.clientMsgId ≠ m.clientMsgId := by
  unfold createMessage at h
  split at h
  · cases h
  · next hnew =>
    simp only [Bool.not_eq_true, List.any_eq_false, decide_eq_true_eq, not_or, not_and] at hnew
    exact ⟨(some.inj h).symm, fun x hx => (hnew x hx).1, fun x hx => (hnew x hx).2⟩

theorem mem_of_getMessage {id : Ulid} (h : l.getMessage id = some m) : m ∈ l.messages ∧ m.id = id :=
  ⟨mem_of_find?_eq_some h, by simpa [getMessage] using find?_some h⟩

@[simp] theorem messages_advanceLastReadSeq (userId : Ulid) (seq : ℕ) :
    (l.advanceLastReadSeq userId seq).messages = l.messages := rfl

@[simp] theorem room_advanceLastReadSeq (userId : Ulid) (seq : ℕ) :
    (l.advanceLastReadSeq userId seq).room = l.room := rfl

/-! ### Following a thread

Who follows a thread, and how far, is all that a reply changes after its row. -/

/-- Two ledgers differ in who follows which thread only. -/
def SameButThreads (l l' : RoomLedger) : Prop :=
  l' = { l with threadMembers := l'.threadMembers }

theorem SameButThreads.refl : SameButThreads l l := rfl

theorem SameButThreads.trans {l'' : RoomLedger} (h : SameButThreads l l')
    (h' : SameButThreads l' l'') : SameButThreads l l'' := by
  unfold SameButThreads at *
  rw [h', h]

theorem SameButThreads.of_threadMembers {ts : List ThreadMember} :
    SameButThreads l { l with threadMembers := ts } := rfl

theorem sameButThreads_followThread (root : Ulid) (n : ℕ) (userId : Ulid) :
    SameButThreads l (l.followThread root n userId) := by
  unfold followThread
  split
  · exact .of_threadMembers
  · exact .refl

theorem sameButThreads_followThreadForMentioned (root : Ulid) (users : List Ulid) (n : ℕ) :
    SameButThreads l (l.followThreadForMentioned root users n) := by
  unfold followThreadForMentioned
  induction users generalizing l with
  | nil => exact .refl
  | cons u _ ih => exact (sameButThreads_followThread root n u).trans ih

theorem sameButThreads_followReply (actor root rootSender : Ulid) (threadSeq : ℕ)
    (mentions : BodyMentions) :
    SameButThreads l (l.followReply kind actor root rootSender threadSeq mentions) := by
  have hsender : SameButThreads l
      (if l.isMember actor && !l.follows root actor then l.followThread root threadSeq actor
        else l.advanceThreadReadToThreadSeq root actor threadSeq) := by
    split
    · exact sameButThreads_followThread _ _ _
    · exact .of_threadMembers
  have hroot : ∀ l : RoomLedger, SameButThreads l
      (if threadSeq = 1 ∧ rootSender ≠ actor then l.followThread root 0 rootSender else l) := by
    intro l
    split
    · exact sameButThreads_followThread _ _ _
    · exact .refl
  have hdm : ∀ l : RoomLedger, SameButThreads l
      (if threadSeq = 1 ∧ kind = .roomDM then l.followThreadForRoomMembers root 0 else l) := by
    intro l
    split
    · exact sameButThreads_followThreadForMentioned _ _ _
    · exact .refl
  have hmentions : ∀ l : RoomLedger, SameButThreads l
      (if mentions.channel then l.followThreadForRoomMembers root (threadSeq - 1)
        else l.followThreadForMentioned root (mentions.users ++ mentions.hereTargets)
          (threadSeq - 1)) := by
    intro l
    split
    · exact sameButThreads_followThreadForMentioned _ _ _
    · exact sameButThreads_followThreadForMentioned _ _ _
  exact ((hsender.trans (hroot _)).trans (hdm _)).trans (hmentions _)

theorem sameButThreads_followFromNow {userId root : Ulid}
    (h : l.followFromNow userId root = some l') : SameButThreads l l' := by
  unfold followFromNow at h
  split at h
  · split at h
    · rw [← some.inj h]
      exact sameButThreads_followThread _ _ _
    · cases h
  · cases h

/-! ### What a transaction does -/

theorem perform_eq_some (h : l.perform kind w = some l') :
    ∃ numbers, l.admits w = true ∧ l.allocate kind w = some numbers ∧
      l.written kind numbers w = some l' := by
  unfold perform at h
  by_cases hadmits : l.admits w = true
  · rw [if_pos hadmits] at h
    obtain ⟨numbers, hnumbers, hwritten⟩ := bind_eq_some_iff.mp h
    exact ⟨numbers, hadmits, hnumbers, hwritten⟩
  · rw [if_neg hadmits] at h
    cases h

/-- The message that a transaction inserts, if it does. -/
def posted (kind : RoomKind) (l : RoomLedger) (numbers : RoomRecord) :
    LedgerWrite → Option LedgerMessage
  | .sendMessage actor clientMsgId id body =>
    some (userMessage numbers numbers.lastChangeSeq actor clientMsgId id body none none true)
  | .sendThreadReply actor clientMsgId id root body alsoInChannel _ =>
    (l.getMessage root).map fun m =>
      userMessage numbers (numbers.lastChangeSeq - 1) actor clientMsgId id body (some root)
        (some (m.lastThreadSeq + 1)) alsoInChannel
  | .writeSystemMessage subject clientMsgId id type =>
    some (systemMessage numbers subject clientMsgId id type)
  | .writeHuddleMessage starter clientMsgId id =>
    some (systemMessage numbers starter clientMsgId id .huddle)
  | _ => none

/-- Who has read what a transaction inserts: who says something in the channel, and who
starts a huddle in a DM. -/
def reader (kind : RoomKind) : LedgerWrite → Option Ulid
  | .sendMessage actor _ _ _ => some actor
  | .sendThreadReply actor _ _ _ _ true _ => some actor
  | .writeHuddleMessage starter _ _ => if kind = .roomDM then some starter else none
  | _ => none

/-- **What a transaction leaves**: the room with the new numbers, the messages as they
were with what it inserts, and the members as they were, except that who has read what it
inserts is up to date. -/
structure Leaves (kind : RoomKind) (l : RoomLedger) (numbers : RoomRecord) (w : LedgerWrite)
    (l' : RoomLedger) : Prop where
  room : l'.room = numbers
  frames : l'.frames = l.frames ++ ((posted kind l numbers w).map LedgerMessage.frame).toList
  fresh : ∀ p ∈ posted kind l numbers w, ∀ f ∈ l.frames,
    f.id ≠ p.id ∧ (f.senderId = p.senderId → f.clientMsgId ≠ p.clientMsgId)
  members : l'.members = l.members.map fun rm =>
    if reader kind w = some rm.userId then l'.advanced rm numbers.lastMessageSeq else rm
  memberRows : l'.memberRows = l.memberRows

theorem members_of_reader_none (h : reader kind w = none) (l' : RoomLedger) (n : ℕ) :
    l.members = l.members.map fun rm =>
      if reader kind w = some rm.userId then l'.advanced rm n else rm := by
  rw [h]
  simp

theorem members_of_reader {u : Ulid} (h : reader kind w = some u) (members : List RoomMember)
    (n : ℕ) :
    members.map (fun rm => if rm.userId = u then l.advanced rm n else rm)
      = members.map fun rm => if reader kind w = some rm.userId then l.advanced rm n else rm := by
  refine map_congr_left fun rm _ => ?_
  have hiff : rm.userId = u ↔ reader kind w = some rm.userId := by
    rw [h, some_inj]
    exact eq_comm
  simp only [hiff]

theorem fresh_of_createMessage {p : LedgerMessage} (hid : ∀ x ∈ l.messages, x.id ≠ p.id)
    (hclient : ∀ x ∈ l.messages, x.senderId = p.senderId → x.clientMsgId ≠ p.clientMsgId) :
    ∀ f ∈ l.frames, f.id ≠ p.id ∧ (f.senderId = p.senderId → f.clientMsgId ≠ p.clientMsgId) := by
  intro f hf
  obtain ⟨x, hx, rfl⟩ := List.mem_map.mp hf
  exact ⟨hid x hx, hclient x hx⟩

/-- A transaction that only changes messages that are there. -/
theorem Leaves.of_updateMessage (hposted : posted kind l numbers w = none)
    (hreader : reader kind w = none) (id : Ulid)
    (hf : ∀ m, (f m).frame = m.frame) :
    Leaves kind l numbers w ({ l with room := numbers }.updateMessage id f) where
  room := rfl
  frames := by
    rw [frames_updateMessage id hf, hposted]
    exact (append_nil _).symm
  fresh := by
    rw [hposted]
    exact nofun
  members := members_of_reader_none hreader _ _
  memberRows := rfl

theorem written_leaves (h : l.written kind numbers w = some l') : Leaves kind l numbers w l' := by
  cases w with
  | sendMessage =>
    obtain ⟨l₁, hl₁, rfl⟩ := map_eq_some_iff.mp h
    obtain ⟨rfl, hid, hclient⟩ := createMessage_eq_some hl₁
    refine ⟨rfl, by simp [frames, posted], fun p hp => ?_, ?_, rfl⟩
    · cases hp
      exact fresh_of_createMessage hid hclient
    · exact members_of_reader (l := { l with
        room := numbers
        messages := l.messages ++ [_] }) rfl l.members numbers.lastMessageSeq
  | sendThreadReply actor clientMsgId id root body alsoInChannel mentions =>
    unfold written at h
    cases hroot : l.getMessage root with
    | none => simp [hroot] at h
    | some m =>
      simp only [hroot] at h
      obtain ⟨l₁, hl₁, rfl⟩ := map_eq_some_iff.mp h
      obtain ⟨rfl, hid, hclient⟩ := createMessage_eq_some hl₁
      set l₂ : RoomLedger := { l with room := numbers }.updateMessage root fun m => { m with
        lastThreadSeq := m.lastThreadSeq + 1
        threadReplyCount := m.threadReplyCount + 1
        changeSeq := numbers.lastChangeSeq } with hl₂
      have hframes : l₂.frames = l.frames := frames_updateMessage root fun m => rfl
      rw [sameButThreads_followReply actor root m.senderId (m.lastThreadSeq + 1) mentions]
      refine ⟨?_, ?_, fun p hp => ?_, ?_, ?_⟩
      · cases alsoInChannel <;> rfl
      · have happend : (l₂.frames ++ [(userMessage numbers (numbers.lastChangeSeq - 1) actor
            clientMsgId id body (some root) (some (m.lastThreadSeq + 1)) alsoInChannel).frame])
            = l.frames ++ ((posted kind l numbers (.sendThreadReply actor clientMsgId id root body
              alsoInChannel mentions)).map LedgerMessage.frame).toList := by
          rw [hframes, posted, hroot]
          rfl
        rw [← happend]
        cases alsoInChannel <;> simp [frames]
      · rw [posted, hroot] at hp
        cases hp
        rw [← hframes]
        exact fresh_of_createMessage hid hclient
      · cases alsoInChannel with
        | false => exact members_of_reader_none rfl _ _
        | true =>
          exact members_of_reader (l := { l₂ with messages := l₂.messages ++ [_] }) rfl
            l.members numbers.lastMessageSeq
      · cases alsoInChannel <;> rfl
  | editMessage message =>
    cases h
    exact .of_updateMessage rfl rfl message fun m => rfl
  | touchMessage _ message =>
    cases h
    exact .of_updateMessage rfl rfl message fun m => rfl
  | touchHuddleMessage message =>
    cases h
    exact .of_updateMessage rfl rfl message fun m => rfl
  | deleteMessage message =>
    cases hroot : (l.getMessage message).bind (fun m => m.threadRootId) with
    | some root =>
      simp only [written, hroot] at h
      cases h
      refine ⟨rfl, ?_, fun p hp => absurd hp (by simp [posted]), members_of_reader_none rfl _ _, rfl⟩
      refine (frames_updateMessage root ?_).trans ((frames_updateMessage message ?_).trans ?_)
      · exact fun m => rfl
      · exact fun m => rfl
      · exact (append_nil _).symm
    | none =>
      simp only [written, hroot] at h
      cases h
      exact .of_updateMessage rfl rfl message fun m => rfl
  | writeSystemMessage =>
    obtain ⟨rfl, hid, hclient⟩ := createMessage_eq_some h
    refine ⟨rfl, by simp [frames, posted], fun p hp => ?_, members_of_reader_none rfl _ _, rfl⟩
    cases hp
    exact fresh_of_createMessage hid hclient
  | writeHuddleMessage starter clientMsgId id =>
    obtain ⟨l₁, hl₁, rfl⟩ := map_eq_some_iff.mp h
    obtain ⟨rfl, hid, hclient⟩ := createMessage_eq_some hl₁
    refine ⟨?_, ?_, fun p hp => ?_, ?_, ?_⟩
    · split <;> rfl
    · split <;> simp [frames, posted]
    · cases hp
      exact fresh_of_createMessage hid hclient
    · by_cases hkind : kind = .roomDM
      · have hreader : reader kind (.writeHuddleMessage starter clientMsgId id) = some starter :=
          if_pos hkind
        rw [if_pos hkind]
        exact members_of_reader (l := { l with
          room := numbers
          messages := l.messages ++ [_] }) hreader l.members numbers.lastMessageSeq
      · have hreader : reader kind (.writeHuddleMessage starter clientMsgId id) = none :=
          if_neg hkind
        rw [if_neg hkind]
        exact members_of_reader_none hreader _ _
    · split <;> rfl

end RoomLedger

end Hibari
