import Hibari.RoomLedger
import Hibari.HeldRows
import Hibari.GoText

/-!
# Attachments, their messages and their objects

A file is sent in three calls. The first makes a row and signs a URL to which the client puts the
object; the second finds the object in the store; and a message that is sent takes the attachments
that were found. An attachment is deleted with its message, or alone – and if nothing is left of the
message then, with the message. The object itself is deleted by a job, and so is that of what was
never sent. The row is the only trace of an object, so the keys of a room that is deleted are copied
to a table that the same job goes through.

Calls run at once, each one statement after another. A statement that locks a row waits for whoever
has it, except those of the job, which skip it; what a transaction writes is seen when it commits;
and a call may fail anywhere. The store is no part of any transaction: what is put there or deleted
there stays so.

Who may do what, and everything else for which a call is refused without having written anything, is
left to failing. So are the checks of a file's name, type and size, which go by the input alone. Of a
media type there is what is left when it was parsed. Mentions, previews, reactions, who follows a
thread, read positions, pins and times of messages are left out.
-/

namespace Hibari

/-! ## Objects -/

/-- What the store says of an object; `mime.ParseMediaType` may fail on what it says. -/
structure ObjectInfo where
  mediaType : Option String
  size : ℕ
  deriving DecidableEq

/-- The key of an object, made of two ids. -/
structure ObjectKey where
  roomId : Ulid
  attachmentId : Ulid
  deriving DecidableEq

/-- `attachmentObjectKey`. -/
def attachmentObjectKey (roomId attachmentId : Ulid) : ObjectKey := ⟨roomId, attachmentId⟩

/-- **A URL that was signed** for putting an object. -/
structure PresignedPut where
  key : ObjectKey
  expiresAt : ℕ
  deriving DecidableEq

/-- Fifteen minutes. The unit of time is a second. -/
def uploadURLTTL : ℕ := 15 * 60

/-- A day. -/
def attachmentRetention : ℕ := 24 * 60 * 60

def storageDeletionDelay : ℕ := uploadURLTTL

def cleanupBatchSize : ℕ := 100

def maxAttachmentsPerMessage : ℕ := 10

def messageBodyMax : ℕ := 4000

/-! ## Rows -/

inductive AttachmentStatus
  | pending
  | uploaded
  | attached
  | deleted
  deriving DecidableEq

/-- How far an attachment is. -/
def AttachmentStatus.rank : AttachmentStatus → ℕ
  | pending => 0
  | uploaded => 1
  | attached => 2
  | deleted => 3

structure AttachmentRow where
  id : Ulid
  roomId : Ulid
  uploaderId : Ulid
  messageId : Option Ulid
  status : AttachmentStatus
  mimeType : String
  sizeBytes : ℕ
  createdAt : ℕ
  deriving DecidableEq

namespace AttachmentRow

def objectKey (r : AttachmentRow) : ObjectKey := attachmentObjectKey r.roomId r.id

/-- Whether an object is what was announced. -/
def matchesInfo (r : AttachmentRow) (info : ObjectInfo) : Bool :=
  decide (info.mediaType = some r.mimeType ∧ info.size = r.sizeBytes)

/-- Whether a message of a room takes an attachment of its sender. -/
def attachable (r : AttachmentRow) (actor room : Ulid) : Bool :=
  decide (r.roomId = room ∧ r.uploaderId = actor ∧ r.status = .uploaded)

/-- Whether an attachment is one of a message. -/
def attachedTo (r : AttachmentRow) (message : Ulid) : Bool :=
  decide (r.messageId = some message ∧ r.status = .attached)

/-- `AttachToMessage`, of one row. -/
def attach (message : Ulid) (r : AttachmentRow) : AttachmentRow :=
  { r with
    status := .attached
    messageId := some message }

/-- `DeleteMessageAttachment` and `MarkMessageAttachmentsDeleted`, of one row. -/
def delete (r : AttachmentRow) : AttachmentRow := { r with status := .deleted }

/-- Whether the job deletes an attachment, by the time that it read. -/
def due (r : AttachmentRow) (now : ℕ) : Bool :=
  decide (r.status ≠ .attached ∧ (r.status = .deleted ∨ r.createdAt + attachmentRetention < now))

end AttachmentRow

/-- The key of an object that is to be deleted, but not before some time. -/
structure StorageDeletion where
  objectKey : ObjectKey
  notBefore : ℕ
  deriving DecidableEq

/-- A message, and the room that it is in. -/
structure ChatMessage extends LedgerMessage where
  roomId : Ulid
  deriving DecidableEq

namespace ChatMessage

/-- `AddThreadReply`. -/
def addReply (changeSeq : ℕ) (m : ChatMessage) : ChatMessage :=
  { m with
    lastThreadSeq := m.lastThreadSeq + 1
    threadReplyCount := m.threadReplyCount + 1
    changeSeq := changeSeq }

/-- `RemoveThreadReply`. -/
def removeReply (changeSeq : ℕ) (m : ChatMessage) : ChatMessage :=
  { m with
    threadReplyCount := m.threadReplyCount - 1
    changeSeq := changeSeq }

/-- `UpdateMessageBody`. -/
def edit (body : String) (changeSeq : ℕ) (m : ChatMessage) : ChatMessage :=
  { m with
    body := body
    changeSeq := changeSeq }

/-- `SoftDeleteMessage`. -/
def softDelete (changeSeq : ℕ) (m : ChatMessage) : ChatMessage :=
  { m with
    body := ""
    deleted := true
    changeSeq := changeSeq }

/-- `UpdateMessageChangeSeq`. -/
def touch (changeSeq : ℕ) (m : ChatMessage) : ChatMessage := { m with changeSeq := changeSeq }

end ChatMessage

/-- **The tables.** -/
structure AttachmentTables where
  rooms : Ulid → Option RoomRecord
  messages : List ChatMessage
  attachments : List AttachmentRow
  storageDeletions : List StorageDeletion

/-! ## Calls -/

/-- The input of `SendMessage`. -/
structure SendMessageInput where
  clientMsgId : Ulid
  body : String
  threadRootId : Option Ulid
  alsoInChannel : Bool
  attachmentIds : List Ulid
  deriving DecidableEq

/-- `validateBody`: the errors of a body. -/
def validateBody (body : String) (hasAttachments : Bool) : List (String × String) :=
  if GoText.blank body && !hasAttachments then [("body", "required")]
  else if body.length > messageBodyMax then [("body", "too_long")]
  else if body.toList.any fun c => GoText.isControl c && c ≠ '\n' && c ≠ '\t' && c ≠ '\r' then
    [("body", "invalid_format")]
  else []

/-- `validateAttachmentIDs`: the errors of the attachments. -/
def validateAttachmentIDs (ids : List Ulid) : List (String × String) :=
  if ids.length > maxAttachmentsPerMessage then [("attachment_ids", "too_long")]
  else if ids.dedup.length ≠ ids.length then [("attachment_ids", "invalid_value")]
  else []

namespace SendMessageInput

/-- The errors of a message that is to be sent. -/
def fieldErrors (input : SendMessageInput) : List (String × String) :=
  (if input.clientMsgId = 0 then [("client_msg_id", "required")] else []) ++
    validateBody input.body (decide (0 < input.attachmentIds.length)) ++
    validateAttachmentIDs input.attachmentIds ++
    if input.alsoInChannel && input.threadRootId.isNone then [("also_in_channel", "invalid_value")]
    else []

end SendMessageInput

/-- Why a call ends that does not go through. -/
inductive AttachmentError
  | chat (e : ChatError)
  | fields (errors : List (String × String))
  | attachmentNotUploaded
  | attachmentMismatch
  deriving DecidableEq

/-- **The calls.** -/
inductive AttachmentCall
  | sendMessage (actor room : Ulid) (input : SendMessageInput)
  | editMessage (actor room message : Ulid) (body : String)
  | deleteMessage (room message : Ulid)
  | deleteMessageAttachment (room message attachment : Ulid)
  | createAttachment (actor room : Ulid) (mimeType : String) (sizeBytes : ℕ)
  | completeAttachment (actor attachment : Ulid)
  | deleteRoom (room : Ulid)
  | cleanupAttachmentBatch
  | cleanupStorageDeletionBatch
  deriving DecidableEq

/-! ## What is written -/

/-- **What a transaction writes** in all, and is seen when it commits. -/
inductive AttachmentWrite
  /-- A message, or a reply, with its attachments. -/
  | sendMessage (m : ChatMessage) (numbers : RoomRecord) (attachmentIds : List Ulid)
  | updateMessageBody (m : ChatMessage) (numbers : RoomRecord) (body : String)
  /-- A message is deleted, with its attachments. -/
  | softDeleteMessage (m : ChatMessage) (numbers : RoomRecord) (attachmentIds : List Ulid)
  /-- An attachment of a message that stays is deleted. -/
  | deleteMessageAttachment (m : ChatMessage) (numbers : RoomRecord) (attachment : Ulid)
  | deleteRoom (room : Ulid) (messages attachments : List Ulid) (deletions : List StorageDeletion)
  | deleteAttachments (rows : List AttachmentRow)
  | deleteStorageDeletions (rows : List StorageDeletion)
  deriving DecidableEq

namespace AttachmentTables

variable (d : AttachmentTables)

/-- `GetMessageForUpdate`. -/
def getMessage (room id : Ulid) : Option ChatMessage :=
  d.messages.find? fun m => decide (m.roomId = room ∧ m.id = id)

/-- `GetMessageIDByClientMsgID`. -/
def getMessageIDByClientMsgID (room sender clientMsgId : Ulid) : Option Ulid :=
  (d.messages.find? fun m =>
    decide (m.roomId = room ∧ m.senderId = sender ∧ m.clientMsgId = clientMsgId)).map
    fun m => m.id

/-- `GetAttachment`. -/
def getAttachment (id : Ulid) : Option AttachmentRow := d.attachments.find? fun r => decide (r.id = id)

/-- Write a message that is there. -/
def updateMessage (id : Ulid) (f : ChatMessage → ChatMessage) : AttachmentTables :=
  { d with messages := d.messages.map fun m => if m.id = id then f m else m }

/-- Write attachments that are there. -/
def updateAttachments (ids : List Ulid) (f : AttachmentRow → AttachmentRow) : AttachmentTables :=
  { d with attachments := d.attachments.map fun r => if r.id ∈ ids then f r else r }

/-- The numbers that a room has given out. -/
def setRoom (room : Ulid) (numbers : RoomRecord) : AttachmentTables :=
  { d with rooms := Function.update d.rooms room (some numbers) }

/-- `AddThreadReply` and `RemoveThreadReply`: write the root, if the message is a reply. -/
def updateRoot (root : Option Ulid) (f : ChatMessage → ChatMessage) : AttachmentTables :=
  match root with
  | none => d
  | some root => d.updateMessage root f

/-- `CreateMessage`. -/
def createMessage (m : ChatMessage) : AttachmentTables := { d with messages := d.messages ++ [m] }

/-- **What a transaction leaves of the tables.** -/
def perform : AttachmentWrite → AttachmentTables
  | .sendMessage m numbers ids =>
    (((d.setRoom m.roomId numbers).updateRoot m.threadRootId
      (ChatMessage.addReply numbers.lastChangeSeq)).createMessage m).updateAttachments ids
        (AttachmentRow.attach m.id)
  | .updateMessageBody m numbers body =>
    (d.setRoom m.roomId numbers).updateMessage m.id (ChatMessage.edit body numbers.lastChangeSeq)
  | .softDeleteMessage m numbers ids =>
    -- of the two numbers of a reply that is deleted, the root has the second
    (((d.setRoom m.roomId numbers).updateMessage m.id
      (ChatMessage.softDelete (numbers.lastChangeSeq - if m.threadRootId.isSome then 1 else 0))
      ).updateRoot m.threadRootId (ChatMessage.removeReply numbers.lastChangeSeq)).updateAttachments
        ids AttachmentRow.delete
  | .deleteMessageAttachment m numbers attachment =>
    ((d.setRoom m.roomId numbers).updateMessage m.id
      (ChatMessage.touch numbers.lastChangeSeq)).updateAttachments [attachment] AttachmentRow.delete
  | .deleteRoom room _ _ deletions =>
    { rooms := Function.update d.rooms room none
      messages := d.messages.filter fun m => m.roomId ≠ room
      attachments := d.attachments.filter fun r => r.roomId ≠ room
      storageDeletions := d.storageDeletions ++ deletions.filter fun e =>
        e.objectKey ∉ d.storageDeletions.map StorageDeletion.objectKey }
  | .deleteAttachments rows =>
    { d with attachments := d.attachments.filter fun r => r.id ∉ rows.map AttachmentRow.id }
  | .deleteStorageDeletions rows =>
    { d with storageDeletions := d.storageDeletions.filter fun e =>
      e.objectKey ∉ rows.map StorageDeletion.objectKey }

end AttachmentTables

/-! ## Calls that go on -/

/-- How a call ends: by a commit, without having written anything in a transaction, or refused. -/
inductive AttachmentResult
  | wrote (w : AttachmentWrite)
  | returned
  | refused (e : AttachmentError)
  deriving DecidableEq

/-- **How far a call is**, and what it has read. -/
inductive AttachmentTask
  /-- `SendMessage`: waiting for the row of the sender. -/
  | sendMessage (actor room : Ulid) (input : SendMessageInput)
  /-- `sendThreadReply`: waiting for the root. -/
  | sendThreadReply (actor room root : Ulid) (input : SendMessageInput)
  /-- Waiting for the room, to get numbers. -/
  | allocateSeq (actor room : Ulid) (input : SendMessageInput) (root : Option ChatMessage)
  /-- The message is written: about to take the attachments. -/
  | attachToMessage (m : ChatMessage) (numbers : RoomRecord) (ids : List Ulid)
  | attaching (m : ChatMessage) (numbers : RoomRecord) (ids todo taken : List Ulid)
  /-- `EditMessage`: waiting for the row of the sender. -/
  | editMessage (actor room message : Ulid) (body : String)
  /-- Waiting for the message. -/
  | lockEdited (actor room message : Ulid) (body : String)
  /-- Waiting for the room. -/
  | allocateEdit (m : ChatMessage) (body : String)
  /-- `DeleteMessage`: waiting for the message. -/
  | deleteMessage (room message : Ulid)
  /-- `DeleteMessageAttachment`: waiting for the message. -/
  | lockMessage (room message attachment : Ulid)
  /-- Waiting for the attachment. -/
  | deleteMessageAttachment (m : ChatMessage) (attachment : Ulid)
  | checkAlreadyDeleted (m : ChatMessage) (attachment : Ulid)
  | countMessageAttachments (m : ChatMessage) (attachment : Ulid)
  /-- Waiting for the room. -/
  | allocateChange (m : ChatMessage) (attachment : Ulid)
  /-- `softDeleteMessage`: waiting for the root, if the message is a reply. -/
  | softDeleteMessage (m : ChatMessage) (attachment : Option Ulid)
  /-- Waiting for the room. -/
  | allocateDelete (m : ChatMessage) (attachment : Option Ulid)
  | markMessageAttachmentsDeleted (m : ChatMessage) (numbers : RoomRecord)
  | marking (m : ChatMessage) (numbers : RoomRecord) (todo marked : List Ulid)
  /-- `CreateAttachment`. -/
  | createAttachment (actor room : Ulid) (mimeType : String) (sizeBytes : ℕ)
  /-- Waiting for the key of the room. -/
  | insertAttachment (row : AttachmentRow)
  | presignPut (key : ObjectKey)
  /-- `CompleteAttachment`. -/
  | completeAttachment (actor attachment : Ulid)
  | headObject (row : AttachmentRow)
  | deleteMismatched (key : ObjectKey)
  /-- Waiting for the attachment. -/
  | markAttachmentUploaded (attachment : Ulid)
  | rereadAttachment (attachment : Ulid)
  /-- `DeleteRoom`: waiting for the room. -/
  | deleteRoom (room : Ulid)
  | enqueueRoomStorageDeletions (room : Ulid)
  /-- Waiting for the rows in the room. -/
  | cascade (room : Ulid) (deletions : List StorageDeletion)
  /-- `cleanupAttachmentBatch`. -/
  | cleanupAttachmentBatch
  | lockAttachmentsForCleanup (now : ℕ)
  /-- Some objects are deleted, others are to be. -/
  | deleteObjects (gone todo : List AttachmentRow)
  /-- `cleanupStorageDeletionBatch`. -/
  | cleanupStorageDeletionBatch
  | lockDueStorageDeletions (now : ℕ)
  | deleteDueObjects (gone todo : List StorageDeletion)
  | commit (w : AttachmentWrite)
  | done (result : AttachmentResult)
  deriving DecidableEq

/-! ## Locks -/

/-- What is locked. Inserting a row in a room locks the key of the room. -/
inductive AttachmentLock
  | roomMember (room user : Ulid)
  | message (id : Ulid)
  | room (id : Ulid)
  | roomKey (id : Ulid)
  | attachment (id : Ulid)
  | storageDeletion (key : ObjectKey)
  deriving DecidableEq

namespace ChatMessage

/-- What is locked by whoever sends a message. -/
def sendLocks (m : ChatMessage) : List AttachmentLock :=
  .roomMember m.roomId m.senderId :: m.threadRootId.toList.map .message ++ [.room m.roomId]

/-- What is locked by whoever deletes a message. -/
def deleteLocks (m : ChatMessage) : List AttachmentLock :=
  .message m.id :: m.threadRootId.toList.map .message

end ChatMessage

/-- What a transaction has locked when it commits. -/
def AttachmentWrite.held : AttachmentWrite → List AttachmentLock
  | sendMessage m _ ids => m.sendLocks ++ ids.map .attachment
  | updateMessageBody m _ _ => [.roomMember m.roomId m.senderId, .message m.id, .room m.roomId]
  | softDeleteMessage m _ ids => m.deleteLocks ++ [.room m.roomId] ++ ids.map .attachment
  | deleteMessageAttachment m _ attachment =>
    [.message m.id, .attachment attachment, .room m.roomId]
  | deleteRoom room messages attachments _ =>
    [.room room, .roomKey room] ++ messages.map .message ++ attachments.map .attachment
  | deleteAttachments rows => rows.map fun r => .attachment r.id
  | deleteStorageDeletions rows => rows.map fun e => .storageDeletion e.objectKey

namespace AttachmentTask

/-- **The locks that a call has.** -/
def held : AttachmentTask → List AttachmentLock
  | sendMessage _ _ _ | editMessage _ _ _ _ | deleteMessage _ _ | lockMessage _ _ _
  | createAttachment _ _ _ _ | insertAttachment _ | presignPut _ | completeAttachment _ _
  | headObject _ | deleteMismatched _ | markAttachmentUploaded _ | rereadAttachment _
  | deleteRoom _ | cleanupAttachmentBatch | lockAttachmentsForCleanup _
  | cleanupStorageDeletionBatch | lockDueStorageDeletions _ | done _ => []
  | sendThreadReply actor room _ _ | lockEdited actor room _ _ => [.roomMember room actor]
  | allocateSeq actor room _ root =>
    .roomMember room actor :: root.toList.map fun m => .message m.id
  | attachToMessage m _ _ => m.sendLocks
  | attaching m _ _ _ taken => m.sendLocks ++ taken.map .attachment
  | allocateEdit m _ => [.roomMember m.roomId m.senderId, .message m.id]
  | deleteMessageAttachment m _ | checkAlreadyDeleted m _ => [.message m.id]
  | countMessageAttachments m attachment | allocateChange m attachment =>
    [.message m.id, .attachment attachment]
  | softDeleteMessage m attachment => .message m.id :: attachment.toList.map .attachment
  | allocateDelete m attachment => m.deleteLocks ++ attachment.toList.map .attachment
  | markMessageAttachmentsDeleted m _ => m.deleteLocks ++ [.room m.roomId]
  | marking m _ _ marked => m.deleteLocks ++ [.room m.roomId] ++ marked.map .attachment
  | enqueueRoomStorageDeletions room | cascade room _ => [.room room, .roomKey room]
  | deleteObjects gone todo => (gone ++ todo).map fun r => .attachment r.id
  | deleteDueObjects gone todo => (gone ++ todo).map fun e => .storageDeletion e.objectKey
  | commit w => w.held

end AttachmentTask

namespace AttachmentTables

variable (d : AttachmentTables)

/-- A statement that locks a message locks it if it is in the room. -/
def messageLock (room id : Ulid) : List AttachmentLock :=
  (d.getMessage room id).toList.map fun m => .message m.id

/-- Giving out numbers locks the row of a room that is not archived. -/
def allocateLock (room : Ulid) : List AttachmentLock :=
  if (d.rooms room).any fun r => !r.archived then [.room room] else []

/-- **The locks that a call waits for** next. A statement does not wait for a row that is not as it
asks for. -/
def asks : AttachmentTask → List AttachmentLock
  | .sendMessage actor room _ | .editMessage actor room _ _ => [.roomMember room actor]
  | .sendThreadReply _ room root _ => d.messageLock room root
  | .allocateSeq _ room _ _ => d.allocateLock room
  | .attaching _ _ _ (id :: _) _ | .marking _ _ (id :: _) _ => [.attachment id]
  | .lockEdited _ room message _ | .deleteMessage room message | .lockMessage room message _ =>
    d.messageLock room message
  | .deleteMessageAttachment m attachment =>
    ((d.getAttachment attachment).filter fun r =>
      decide (r.roomId = m.roomId) && r.attachedTo m.id).toList.map fun r => .attachment r.id
  | .allocateEdit m _ | .allocateChange m _ | .allocateDelete m _ => d.allocateLock m.roomId
  | .softDeleteMessage m _ => (m.threadRootId.toList.map (d.messageLock m.roomId)).flatten
  | .insertAttachment row => [.roomKey row.roomId]
  | .markAttachmentUploaded attachment =>
    ((d.getAttachment attachment).filter fun r => decide (r.status = .pending)).toList.map
      fun r => .attachment r.id
  | .deleteRoom room => if (d.rooms room).isSome then [.room room, .roomKey room] else []
  | .cascade room _ =>
    ((d.messages.filter fun m => m.roomId = room).map fun m => .message m.id) ++
      (d.attachments.filter fun r => r.roomId = room).map fun r => .attachment r.id
  | _ => []

end AttachmentTables

/-! ## Steps -/

/-- **The tables, the store, and what runs on them.** -/
structure AttachmentService where
  tables : AttachmentTables
  store : ObjectKey → Option ObjectInfo
  urls : List PresignedPut
  clock : ℕ
  /-- The next id that is drawn. -/
  ids : Ulid
  tasks : List AttachmentTask

/-- What happens: a call begins, goes on or fails; time goes by; a client puts an object; and in a
room that nobody else writes to, a log line is written, or it is archived or restored. -/
inductive AttachmentAction
  | start (c : AttachmentCall)
  | step (i : ℕ)
  | fail (i : ℕ)
  | tick
  | put (url : ℕ) (info : ObjectInfo)
  | log (room subject : Ulid) (type : SystemEventType)
  | archive (room : Ulid) (archived : Bool)
  deriving DecidableEq

/-- **How a call begins.** -/
def AttachmentCall.begins : AttachmentCall → AttachmentTask
  | sendMessage actor room input =>
    if input.fieldErrors = [] then .sendMessage actor room input
    else .done (.refused (.fields input.fieldErrors))
  | editMessage actor room message body =>
    if validateBody body false = [] then .editMessage actor room message body
    else .done (.refused (.fields (validateBody body false)))
  | deleteMessage room message => .deleteMessage room message
  | deleteMessageAttachment room message attachment => .lockMessage room message attachment
  | createAttachment actor room mimeType sizeBytes => .createAttachment actor room mimeType sizeBytes
  | completeAttachment actor attachment => .completeAttachment actor attachment
  | deleteRoom room => .deleteRoom room
  | cleanupAttachmentBatch => .cleanupAttachmentBatch
  | cleanupStorageDeletionBatch => .cleanupStorageDeletionBatch

namespace AttachmentService

variable (s : AttachmentService)

/-- Nobody holds a lock. -/
abbrev FreeLock (l : AttachmentLock) : Prop := HeldRows.Free AttachmentTask.held s.tasks l

/-- A call goes on. -/
def goes (i : ℕ) (t : AttachmentTask) : AttachmentService := { s with tasks := s.tasks.set i t }

/-- A call is refused. -/
def refuse (e : ChatError) : AttachmentTask := .done (.refused (.chat e))

/-- The error of what is no root. -/
def invalidThreadRoot : AttachmentTask :=
  .done (.refused (.fields [("thread_root_id", "invalid_value")]))

/-- The message that is sent, with an id that is drawn. -/
def newMessage (actor room : Ulid) (input : SendMessageInput) (root : Option ChatMessage)
    (numbers : RoomRecord) : ChatMessage :=
  match root with
  | none => ⟨RoomLedger.userMessage numbers numbers.lastChangeSeq actor input.clientMsgId s.ids
      input.body none none true, room⟩
  | some root => ⟨RoomLedger.userMessage numbers (numbers.lastChangeSeq - 1) actor
      input.clientMsgId s.ids input.body (some root.id) (some (root.lastThreadSeq + 1))
      input.alsoInChannel, room⟩

/-- The numbers of a message that is sent. -/
def sendNumbers (room : Ulid) (input : SendMessageInput) (root : Option ChatMessage) :
    Option RoomRecord :=
  (s.tables.rooms room).bind fun r => match root with
    | none => r.allocateMessageSeq
    | some _ => r.allocateThreadReplySeq input.alsoInChannel

/-- `AllocateChangeSeq`. -/
def changeNumbers (room : Ulid) (n : ℕ) : Option RoomRecord :=
  (s.tables.rooms room).bind fun r => r.allocateChangeSeq n

/-- Attachments that the job takes: those that are due and that nobody has, the oldest first. -/
def dueAttachments (now : ℕ) : List AttachmentRow :=
  ((s.tables.attachments.filter fun r =>
    r.due now && decide (s.FreeLock (.attachment r.id))).insertionSort
      fun r r' => r.createdAt ≤ r'.createdAt).take cleanupBatchSize

/-- The same of keys. -/
def dueStorageDeletions (now : ℕ) : List StorageDeletion :=
  ((s.tables.storageDeletions.filter fun e =>
    decide (e.notBefore ≤ now) && decide (s.FreeLock (.storageDeletion e.objectKey))).insertionSort
      fun e e' => e.notBefore ≤ e'.notBefore).take cleanupBatchSize

/-- **What a call does next**, once it has the locks that it asks for. -/
def turn : AttachmentTask → AttachmentTask
  | .sendMessage actor room input =>
    match s.tables.getMessageIDByClientMsgID room actor input.clientMsgId with
    | some _ => .done .returned
    | none => match input.threadRootId with
      | some root => .sendThreadReply actor room root input
      | none => .allocateSeq actor room input none
  | .sendThreadReply actor room root input =>
    match s.tables.getMessage room root with
    | some m => if isThreadRoot m.toMessageRow then .allocateSeq actor room input (some m)
      else invalidThreadRoot
    | none => invalidThreadRoot
  | .allocateSeq actor room input root =>
    match s.sendNumbers room input root with
    | some numbers =>
      .attachToMessage (s.newMessage actor room input root numbers) numbers input.attachmentIds
    | none => refuse .roomArchived
  | .attachToMessage m numbers ids =>
    -- the rows that the statement sees; each is looked at again when it is locked
    .attaching m numbers ids (ids.filter fun id =>
      (s.tables.getAttachment id).any fun r => r.attachable m.senderId m.roomId) []
  | .attaching m numbers ids (id :: todo) taken =>
    if (s.tables.getAttachment id).any fun r => r.attachable m.senderId m.roomId then
      .attaching m numbers ids todo (taken ++ [id])
    else .attaching m numbers ids todo taken
  | .attaching m numbers ids [] taken =>
    if taken.length = ids.length then .commit (.sendMessage m numbers taken)
    else .done (.refused (.fields [("attachment_ids", "invalid_value")]))
  | .editMessage actor room message body => .lockEdited actor room message body
  | .lockEdited actor room message body =>
    match s.tables.getMessage room message with
    | some m =>
      if m.kind = .system then refuse .forbidden
      else if m.senderId ≠ actor then refuse .forbidden
      else if m.deleted then refuse .messageDeleted
      else if m.body = body then .done .returned
      else .allocateEdit m body
    | none => refuse .notFound
  | .allocateEdit m body =>
    match s.changeNumbers m.roomId 1 with
    | some numbers => .commit (.updateMessageBody m numbers body)
    | none => refuse .roomArchived
  | .deleteMessage room message =>
    match s.tables.getMessage room message with
    | some m =>
      if m.kind = .system then refuse .forbidden
      else if m.deleted then .done .returned
      else .softDeleteMessage m none
    | none => refuse .notFound
  | .lockMessage room message attachment =>
    match s.tables.getMessage room message with
    | some m =>
      if m.kind = .system ∨ m.deleted then refuse .notFound
      else .deleteMessageAttachment m attachment
    | none => refuse .notFound
  | .deleteMessageAttachment m attachment =>
    if (s.tables.getAttachment attachment).any fun r =>
        decide (r.roomId = m.roomId) && r.attachedTo m.id then
      .countMessageAttachments m attachment
    else .checkAlreadyDeleted m attachment
  | .checkAlreadyDeleted m attachment =>
    if (s.tables.getAttachment attachment).any fun r =>
        decide (r.roomId = m.roomId ∧ r.messageId = some m.id ∧ r.status = .deleted) then
      .done .returned
    else refuse .notFound
  | .countMessageAttachments m attachment =>
    -- the one that is deleted is not counted any more
    if (s.tables.attachments.filter fun r =>
        decide (r.roomId = m.roomId) && r.attachedTo m.id && r.id ≠ attachment).length = 0 ∧
        GoText.blank m.body then
      .softDeleteMessage m (some attachment)
    else .allocateChange m attachment
  | .allocateChange m attachment =>
    match s.changeNumbers m.roomId 1 with
    | some numbers => .commit (.deleteMessageAttachment m numbers attachment)
    | none => refuse .roomArchived
  | .softDeleteMessage m attachment =>
    if m.threadRootId.all fun root => (s.tables.getMessage m.roomId root).isSome then
      .allocateDelete m attachment
    else refuse .failed
  | .allocateDelete m attachment =>
    match s.changeNumbers m.roomId (if m.threadRootId.isSome then 2 else 1) with
    | some numbers =>
      match attachment with
      | some id => .commit (.softDeleteMessage m numbers [id])
      | none => .markMessageAttachmentsDeleted m numbers
    | none => refuse .roomArchived
  | .markMessageAttachmentsDeleted m numbers =>
    .marking m numbers ((s.tables.attachments.filter fun r =>
      decide (r.roomId = m.roomId) && r.attachedTo m.id).map AttachmentRow.id) []
  | .marking m numbers (id :: todo) marked =>
    if (s.tables.getAttachment id).any fun r =>
        decide (r.roomId = m.roomId) && r.attachedTo m.id then
      .marking m numbers todo (marked ++ [id])
    else .marking m numbers todo marked
  | .marking m numbers [] marked => .commit (.softDeleteMessage m numbers marked)
  | .createAttachment actor room mimeType sizeBytes =>
    .insertAttachment ⟨s.ids, room, actor, none, .pending, mimeType, sizeBytes, s.clock⟩
  | .insertAttachment row =>
    if (s.tables.rooms row.roomId).isSome then .presignPut row.objectKey else refuse .failed
  | .presignPut _ => .done .returned
  | .completeAttachment actor attachment =>
    match s.tables.getAttachment attachment with
    | some row =>
      if row.uploaderId ≠ actor then refuse .notFound
      else if row.status ≠ .pending then
        if row.status = .deleted then refuse .notFound else .done .returned
      else .headObject row
    | none => refuse .notFound
  | .headObject row =>
    match s.store row.objectKey with
    | none => .done (.refused .attachmentNotUploaded)
    | some info =>
      if row.matchesInfo info then .markAttachmentUploaded row.id else .deleteMismatched row.objectKey
  | .deleteMismatched _ => .done (.refused .attachmentMismatch)
  | .markAttachmentUploaded attachment =>
    if (s.tables.getAttachment attachment).any fun r => decide (r.status = .pending) then
      .done .returned
    else .rereadAttachment attachment
  | .rereadAttachment attachment =>
    match s.tables.getAttachment attachment with
    | some row => if row.status = .deleted then refuse .notFound else .done .returned
    | none => refuse .notFound
  | .deleteRoom room =>
    if (s.tables.rooms room).isSome then .enqueueRoomStorageDeletions room else refuse .failed
  | .enqueueRoomStorageDeletions room =>
    .cascade room ((s.tables.attachments.filter fun r => r.roomId = room).map fun r =>
      ⟨r.objectKey, s.clock + storageDeletionDelay⟩)
  | .cascade room deletions =>
    .commit (.deleteRoom room
      ((s.tables.messages.filter fun m => m.roomId = room).map fun m => m.id)
      ((s.tables.attachments.filter fun r => r.roomId = room).map AttachmentRow.id) deletions)
  | .cleanupAttachmentBatch => .lockAttachmentsForCleanup s.clock
  | .lockAttachmentsForCleanup now => .deleteObjects [] (s.dueAttachments now)
  | .deleteObjects gone (r :: todo) => .deleteObjects (gone ++ [r]) todo
  | .deleteObjects gone [] => .commit (.deleteAttachments gone)
  | .cleanupStorageDeletionBatch => .lockDueStorageDeletions s.clock
  | .lockDueStorageDeletions now => .deleteDueObjects [] (s.dueStorageDeletions now)
  | .deleteDueObjects gone (e :: todo) => .deleteDueObjects (gone ++ [e]) todo
  | .deleteDueObjects gone [] => .commit (.deleteStorageDeletions gone)
  | .commit w => .done (.wrote w)
  | .done result => .done result

/-- **What others see** of what a call does. -/
def effect : AttachmentTask → AttachmentService
  | .allocateSeq _ room input root =>
    if (s.sendNumbers room input root).isSome then { s with ids := s.ids + 1 } else s
  | .createAttachment _ _ _ _ => { s with ids := s.ids + 1 }
  | .insertAttachment row =>
    if (s.tables.rooms row.roomId).isSome then
      { s with tables := { s.tables with attachments := s.tables.attachments ++ [row] } }
    else s
  | .presignPut key => { s with urls := s.urls ++ [⟨key, s.clock + uploadURLTTL⟩] }
  | .deleteMismatched key => { s with store := Function.update s.store key none }
  | .markAttachmentUploaded attachment =>
    { s with tables := { s.tables with
      attachments := s.tables.attachments.map fun r =>
        if r.id = attachment ∧ r.status = .pending then { r with status := .uploaded } else r } }
  | .deleteObjects _ (r :: _) => { s with store := Function.update s.store r.objectKey none }
  | .deleteDueObjects _ (e :: _) => { s with store := Function.update s.store e.objectKey none }
  | .commit w => { s with tables := s.tables.perform w }
  | _ => s

/-- `writeSystemMessage`, in a room that nobody else writes to. -/
def log (room subject : Ulid) (type : SystemEventType) : Option AttachmentService :=
  if s.FreeLock (.room room) then
    (s.tables.rooms room).map fun r =>
      { s with
        ids := s.ids + 1
        tables := (s.tables.setRoom room r.allocateSystemMessageSeq).createMessage
          ⟨RoomLedger.systemMessage r.allocateSystemMessageSeq subject s.ids s.ids type, room⟩ }
  else none

/-- One step. -/
def act : AttachmentAction → Option AttachmentService
  | .start c => some { s with tasks := s.tasks ++ [c.begins] }
  | .step i =>
    match s.tasks[i]? with
    | none | some (.done _) => none
    | some t => if ∀ l ∈ s.tables.asks t, s.FreeLock l then some ((s.effect t).goes i (s.turn t))
      else none
  | .fail i =>
    match s.tasks[i]? with
    | none | some (.done _) => none
    | some _ => some (s.goes i (refuse .failed))
  | .tick => some { s with clock := s.clock + 1 }
  | .put url info => s.urls[url]?.bind fun u =>
    if s.clock < u.expiresAt then some { s with store := Function.update s.store u.key (some info) }
    else none
  | .log room subject type => s.log room subject type
  | .archive room archived =>
    if s.FreeLock (.room room) then
      (s.tables.rooms room).map fun r => { s with tables := s.tables.setRoom room { r with archived := archived } }
    else none

/-- **The runs of the service** with some rooms and nothing in them. -/
def system : TransitionSystem AttachmentService AttachmentAction where
  init s := s.tables.messages = [] ∧ s.tables.attachments = [] ∧ s.tables.storageDeletions = [] ∧
    s.store = (fun _ => none) ∧ s.urls = [] ∧ s.tasks = []
  step s a := act s a

/-! ## What a step is -/

/-- **What a step is.** -/
inductive Step (s : AttachmentService) : AttachmentAction → AttachmentService → Prop
  | step {i : ℕ} {t : AttachmentTask} : s.tasks[i]? = some t → (∀ l ∈ s.tables.asks t, s.FreeLock l) →
      (∀ result, t ≠ .done result) → Step s (.step i) ((s.effect t).goes i (s.turn t))
  | fail {i : ℕ} {t : AttachmentTask} : s.tasks[i]? = some t → (∀ result, t ≠ .done result) →
      Step s (.fail i) (s.goes i (refuse .failed))
  | start (c : AttachmentCall) : Step s (.start c) { s with tasks := s.tasks ++ [c.begins] }
  | tick : Step s .tick { s with clock := s.clock + 1 }
  | put {url : ℕ} {u : PresignedPut} {info : ObjectInfo} : s.urls[url]? = some u →
      s.clock < u.expiresAt →
      Step s (.put url info) { s with store := Function.update s.store u.key (some info) }
  | log {room subject : Ulid} {type : SystemEventType} {r : RoomRecord} :
      s.FreeLock (.room room) → s.tables.rooms room = some r →
      Step s (.log room subject type) { s with
        ids := s.ids + 1
        tables := (s.tables.setRoom room r.allocateSystemMessageSeq).createMessage
          ⟨RoomLedger.systemMessage r.allocateSystemMessageSeq subject s.ids s.ids type, room⟩ }
  | archive {room : Ulid} {archived : Bool} {r : RoomRecord} : s.FreeLock (.room room) →
      s.tables.rooms room = some r →
      Step s (.archive room archived)
        { s with tables := s.tables.setRoom room { r with archived := archived } }

variable {s} {s' : AttachmentService} {a : AttachmentAction}

theorem step_of_act (hact : s.act a = some s') : Step s a s' := by
  cases a with
  | start c =>
    cases hact
    exact .start c
  | step =>
    simp only [act] at hact
    split at hact
    · cases hact
    · cases hact
    · next t hdone hi =>
      split at hact
      · next hfree =>
        cases hact
        exact .step hi hfree hdone
      · cases hact
  | fail =>
    simp only [act] at hact
    split at hact
    · cases hact
    · cases hact
    · next t hdone hi =>
      cases hact
      exact .fail hi hdone
  | tick =>
    cases hact
    exact .tick
  | put =>
    obtain ⟨u, hu, hput⟩ := Option.bind_eq_some_iff.mp hact
    split at hput
    · next hvalid =>
      cases hput
      exact .put hu hvalid
    · cases hput
  | log =>
    simp only [act, log] at hact
    split at hact
    · next hfree =>
      obtain ⟨r, hr, rfl⟩ := Option.map_eq_some_iff.mp hact
      exact .log hfree hr
    · cases hact
  | archive =>
    simp only [act] at hact
    split at hact
    · next hfree =>
      obtain ⟨r, hr, rfl⟩ := Option.map_eq_some_iff.mp hact
      exact .archive hfree hr
    · cases hact

end AttachmentService

end Hibari
