import Hibari.LinkUrls
import Hibari.Attachments

/-!
# Previews of links

A message has a row for each URL of its body that is unfolded. The row waits until a worker has
fetched the page, or finds at once what was fetched lately; its author may remove it, and then it
stays, so that the URL is not unfolded again. Rows are made, dropped and put in order when the message
is sent and edited, while workers claim rows that wait – each for some time, after which another may –
and complete them.

Every transaction on a message locks its row before it reads anything of it, and has it until it
commits; so each is one step here. Between claiming a row, finding or fetching its page and completing
it, anything may happen, and a call may end anywhere. What a page says, and the objects of its images,
are left out, as is who may do what beyond being the author of a message.
-/

namespace Hibari

/-! ## Rows -/

instance lawfulBEq_chars : LawfulBEq (List Char) := inferInstance

/-- What is called for the candidates of a body: Go's `url.Parse` and `strings.EqualFold`, and the
address of the app. -/
structure Unfolding where
  parse : List Char → Option LinkUrls.URL
  equalFold : List Char → List Char → Bool
  app : Option LinkUrls.URL

/-- `linkpreview.Candidates`. -/
def Unfolding.candidates (c : Unfolding) (body : String) : List (List Char) :=
  LinkUrls.Candidates c.parse c.equalFold c.app body.toList

/-- Thirty minutes. The unit of time is a second. -/
def linkPreviewReuse : ℕ := 30 * 60

/-- Two hours. -/
def linkPreviewRetention : ℕ := 2 * 60 * 60

/-- A minute. -/
def linkPreviewClaim : ℕ := 60

def linkPreviewMaxAttempts : ℕ := 3

/-- `link_previews`: what was fetched of a URL. -/
structure LinkPreview where
  id : Ulid
  url : List Char
  status : LinkPreviewStatus
  fetchedAt : ℕ
  deriving DecidableEq

/-- `message_link_previews`: a URL of a message. -/
structure MessageLinkPreview where
  id : Ulid
  roomId : Ulid
  messageId : Ulid
  url : List Char
  position : ℕ
  status : LinkPreviewStatus
  linkPreviewId : Option Ulid
  attempts : ℕ
  claimedUntil : Option ℕ
  removedAt : Option ℕ
  createdAt : ℕ
  deriving DecidableEq

/-- **The tables.** -/
structure PreviewTables where
  rooms : Ulid → Option RoomRecord
  messages : List ChatMessage
  previews : List MessageLinkPreview
  links : List LinkPreview

/-- A row that was claimed, and how often. -/
structure ClaimedPreview where
  id : Ulid
  roomId : Ulid
  messageId : Ulid
  url : List Char
  attempts : ℕ
  deriving DecidableEq

/-- How far a worker is with a row that it claimed. -/
inductive PreviewWorker
  | resolve (claimed : ClaimedPreview)
  /-- Nothing was fetched lately. -/
  | fetch (claimed : ClaimedPreview)
  | complete (claimed : ClaimedPreview) (status : LinkPreviewStatus) (link : Option Ulid)
  | done
  deriving DecidableEq

/-- **The tables and what works on them.** What authors have suppressed or removed is written down
beside them; no call reads that. -/
structure PreviewService where
  tables : PreviewTables
  clock : ℕ
  /-- The next id that is drawn. -/
  ids : Ulid
  workers : List PreviewWorker
  hidden : List (Ulid × List Char)

/-- **What happens.** -/
inductive PreviewAction
  | sendMessage (actor room : Ulid) (input : SendMessageInput) (suppressed : List (List Char))
  | editMessage (actor room message : Ulid) (body : String)
  | removeLinkPreview (actor room message preview : Ulid)
  | deleteMessage (room message : Ulid)
  | claim (preview : Ulid)
  | resolve (worker : ℕ)
  /-- A page was fetched, or is none, or fetching it failed. -/
  | fetch (worker : ℕ) (result : Option Bool)
  | complete (worker : ℕ)
  | fail (worker : ℕ)
  /-- Someone who writes a message sees a preview in the box. -/
  | previewLink (url : List Char) (ok : Bool)
  | cleanup (links : List Ulid)
  /-- Something else of a message changes, and others see it. -/
  | touch (room message : Ulid)
  | archive (room : Ulid) (archived : Bool)
  | tick
  deriving DecidableEq

namespace PreviewTables

variable (d : PreviewTables)

/-- `GetMessageForUpdate`. -/
def getMessage (room id : Ulid) : Option ChatMessage :=
  d.messages.find? fun m => decide (m.roomId = room ∧ m.id = id)

/-- `GetMessageLinkPreviewForUpdate`. -/
def getPreview (id message : Ulid) : Option MessageLinkPreview :=
  d.previews.find? fun r => decide (r.id = id ∧ r.messageId = message)

/-- `FindFreshLinkPreview`: what was fetched of a URL last, if that was lately. -/
def findFresh (url : List Char) (now : ℕ) : Option LinkPreview :=
  (d.links.filter fun l => decide (l.url = url ∧ now ≤ l.fetchedAt + linkPreviewReuse)).argmax
    fun l => l.fetchedAt

/-- The numbers that a room has given out. -/
def setRoom (room : Ulid) (numbers : RoomRecord) : PreviewTables :=
  { d with rooms := Function.update d.rooms room (some numbers) }

/-- Write a message that is there. -/
def updateMessage (id : Ulid) (f : ChatMessage → ChatMessage) : PreviewTables :=
  { d with messages := d.messages.map fun m => if m.id = id then f m else m }

/-- Write the root of a message, if it is a reply. -/
def updateRoot (root : Option Ulid) (f : ChatMessage → ChatMessage) : PreviewTables :=
  match root with
  | none => d
  | some root => d.updateMessage root f

/-- Write a row that is there. -/
def updatePreview (id : Ulid) (f : MessageLinkPreview → MessageLinkPreview) : PreviewTables :=
  { d with previews := d.previews.map fun r => if r.id = id then f r else r }

/-- `createMessageLinkPreview`: the row of a URL – with what was fetched of it lately, or waiting. -/
def createPreview (now : ℕ) (id : Ulid) (m : ChatMessage) (url : List Char) (position : ℕ)
    (removedAt : Option ℕ) : MessageLinkPreview :=
  let row := ⟨id, m.roomId, m.id, url, position, .pending, none, 0, none, removedAt, now⟩
  match d.findFresh url now with
  | some cached =>
    if cached.status = .ok then { row with
      status := .ok
      linkPreviewId := some cached.id }
    else { row with status := .failed }
  | none => row

/-- `createMessageLinkPreviews`: the rows of a message that is sent. -/
def createPreviews (c : Unfolding) (now : ℕ) (ids : Ulid) (m : ChatMessage)
    (suppressed : List (List Char)) : List MessageLinkPreview :=
  (c.candidates m.body).zipIdx.map fun u =>
    d.createPreview now (ids + u.2) m u.1 u.2 (if u.1 ∈ suppressed then some now else none)

/-- `NOT (url = ANY(urls))`: a slice that is nil is `NULL`, of which nothing is known. -/
def notAny (urls : List (List Char)) (url : List Char) : Bool := urls ≠ [] && url ∉ urls

/-- `DeleteMessageLinkPreviewsExcept`. -/
def deletePreviewsExcept (message : Ulid) (urls : List (List Char)) : PreviewTables :=
  { d with previews := d.previews.filter fun r =>
    !(r.messageId = message && r.removedAt.isNone && notAny urls r.url) }

/-- `UpdateMessageLinkPreviewPositions`. -/
def updatePositions (message : Ulid) (urls : List (List Char)) : PreviewTables :=
  { d with previews := d.previews.map fun r =>
    if r.messageId = message then match urls.idxOf? r.url with
      | some i => { r with position := i }
      | none => r
    else r }

/-- `syncMessageLinkPreviews`: the rows of a message that is edited. -/
def syncPreviews (c : Unfolding) (now : ℕ) (ids : Ulid) (m : ChatMessage) (body : String) :
    PreviewTables :=
  let urls := c.candidates body
  let existing := (d.previews.filter fun r => r.messageId = m.id).map fun r => r.url
  let d' := d.deletePreviewsExcept m.id urls
  let new := (urls.zipIdx.filter fun u => u.1 ∉ existing).map fun u =>
    d.createPreview now (ids + u.2) m u.1 u.2 none
  PreviewTables.updatePositions { d' with previews := d'.previews ++ new } m.id urls

/-- `DeleteMessageLinkPreviews`. -/
def deletePreviews (message : Ulid) : PreviewTables :=
  { d with previews := d.previews.filter fun r => r.messageId ≠ message }

/-- `loadMessageLinkPreviews`: **the previews that a message shows**, in their order. -/
def shown (m : ChatMessage) : List MessageLinkPreview :=
  if m.deleted then []
  else (d.previews.filter fun r =>
    decide (r.roomId = m.roomId ∧ r.messageId = m.id ∧ r.status = .ok ∧ r.removedAt = none) &&
      d.links.any fun l => r.linkPreviewId = some l.id).insertionSort
        fun r r' => r.position ≤ r'.position

/-- `AllocateChangeSeq`. -/
def allocateChangeSeq (room : Ulid) (n : ℕ) : Option RoomRecord :=
  (d.rooms room).bind fun r => r.allocateChangeSeq n

end PreviewTables

namespace PreviewService

variable (c : Unfolding) (s : PreviewService)

/-- The message that is sent. -/
def newMessage (actor room : Ulid) (input : SendMessageInput) (root : Option ChatMessage)
    (numbers : RoomRecord) : ChatMessage :=
  match root with
  | none => ⟨RoomLedger.userMessage numbers numbers.lastChangeSeq actor input.clientMsgId s.ids
      input.body none none true, room⟩
  | some root => ⟨RoomLedger.userMessage numbers (numbers.lastChangeSeq - 1) actor
      input.clientMsgId s.ids input.body (some root.id) (some (root.lastThreadSeq + 1))
      input.alsoInChannel, room⟩

/-- A message is written, and its rows. -/
def writeMessage (input : SendMessageInput) (suppressed : List (List Char)) (m : ChatMessage)
    (numbers : RoomRecord) : PreviewService :=
  let d := (s.tables.setRoom m.roomId numbers).updateRoot m.threadRootId
    (ChatMessage.addReply numbers.lastChangeSeq)
  { s with
    tables := { d with
      messages := d.messages ++ [m]
      previews := d.previews ++ d.createPreviews c s.clock (s.ids + 1) m suppressed }
    ids := s.ids + 1 + (c.candidates input.body).length
    hidden := s.hidden ++
      ((c.candidates input.body).filter fun u => u ∈ suppressed).map fun u => (m.id, u) }

/-- `SendMessage` and `sendThreadReply`. -/
def sendMessage (actor room : Ulid) (input : SendMessageInput) (suppressed : List (List Char)) :
    Option PreviewService :=
  if input.fieldErrors ≠ [] then none
  else match input.threadRootId with
  | none =>
    ((s.tables.rooms room).bind RoomRecord.allocateMessageSeq).map fun numbers =>
      s.writeMessage c input suppressed (s.newMessage actor room input none numbers) numbers
  | some root =>
    (s.tables.getMessage room root).bind fun x =>
      if isThreadRoot x.toMessageRow then
        ((s.tables.rooms room).bind fun r => r.allocateThreadReplySeq input.alsoInChannel).map
          fun numbers =>
            s.writeMessage c input suppressed (s.newMessage actor room input (some x) numbers) numbers
      else none

/-- `EditMessage`. -/
def editMessage (actor room message : Ulid) (body : String) : Option PreviewService :=
  if validateBody body false ≠ [] then none
  else (s.tables.getMessage room message).bind fun m =>
    if m.kind = .system ∨ m.senderId ≠ actor ∨ m.deleted ∨ m.body = body then none
    else (s.tables.allocateChangeSeq room 1).map fun numbers =>
      { s with
        tables := ((s.tables.setRoom room numbers).updateMessage message
          (ChatMessage.edit body numbers.lastChangeSeq)).syncPreviews c s.clock s.ids m body
        ids := s.ids + (c.candidates body).length }

/-- `RemoveLinkPreview`: only a preview that others see needs a number. -/
def removeLinkPreview (actor room message preview : Ulid) : Option PreviewService :=
  (s.tables.getMessage room message).bind fun m =>
    if m.kind = .system ∨ m.senderId ≠ actor ∨ m.deleted then none
    else (s.tables.getPreview preview message).bind fun row =>
      if row.removedAt.isSome then none
      else
        let s' := { s with
          tables := s.tables.updatePreview preview fun r => { r with removedAt := some s.clock }
          hidden := s.hidden ++ [(message, row.url)] }
        if row.status ≠ .ok then some s'
        else (s.tables.allocateChangeSeq room 1).map fun numbers =>
          { s' with
            tables := (s'.tables.setRoom room numbers).updateMessage message
              (ChatMessage.touch numbers.lastChangeSeq) }

/-- `DeleteMessage`. -/
def deleteMessage (room message : Ulid) : Option PreviewService :=
  (s.tables.getMessage room message).bind fun m =>
    if m.kind = .system ∨ m.deleted then none
    else
      let n := if m.threadRootId.isSome then 2 else 1
      (s.tables.allocateChangeSeq room n).map fun numbers =>
        { s with
          tables := (((s.tables.setRoom room numbers).updateMessage message
            (ChatMessage.softDelete (numbers.lastChangeSeq - n + 1))).updateRoot m.threadRootId
              (ChatMessage.removeReply numbers.lastChangeSeq)).deletePreviews message }

/-- `ClaimPendingMessageLinkPreview`: some row that waits and is not claimed, or not any more. -/
def claim (preview : Ulid) : Option PreviewService :=
  (s.tables.previews.find? fun r => decide (r.id = preview ∧ r.status = .pending ∧
      r.removedAt = none) && r.claimedUntil.all fun time => time ≤ s.clock).map fun r =>
    { s with
      tables := s.tables.updatePreview preview fun r => { r with
        claimedUntil := some (s.clock + linkPreviewClaim)
        attempts := r.attempts + 1 }
      workers := s.workers ++ [.resolve ⟨r.id, r.roomId, r.messageId, r.url, r.attempts + 1⟩] }

/-- A worker goes on. -/
def goes (i : ℕ) (w : PreviewWorker) : PreviewService := { s with workers := s.workers.set i w }

/-- `resolveLinkPreview`, until the page has to be fetched. -/
def resolve (i : ℕ) : Option PreviewService :=
  match s.workers[i]? with
  | some (.resolve claimed) =>
    if claimed.attempts ≤ linkPreviewMaxAttempts then
      match s.tables.findFresh claimed.url s.clock with
      | some l =>
        if l.status = .ok then some (s.goes i (.complete claimed .ok (some l.id)))
        else some (s.goes i (.complete claimed .failed none))
      | none => some (s.goes i (.fetch claimed))
    else some (s.goes i (.complete claimed .failed none))
  | _ => none

/-- `CreateLinkPreview`. -/
def createLink (url : List Char) (ok : Bool) : PreviewService :=
  { s with
    tables := { s.tables with
      links := s.tables.links ++ [⟨s.ids, url, if ok then .ok else .failed, s.clock⟩] }
    ids := s.ids + 1 }

/-- The rest of `resolveLinkPreview`: what there is of a page is written down. -/
def fetch (i : ℕ) (result : Option Bool) : Option PreviewService :=
  match s.workers[i]? with
  | some (.fetch claimed) =>
    match result with
    | some true => some ((s.createLink claimed.url true).goes i (.complete claimed .ok (some s.ids)))
    | some false => some ((s.createLink claimed.url false).goes i (.complete claimed .failed none))
    | none => some (s.goes i .done)
  | _ => none

/-- `CompleteMessageLinkPreview`; what a row refers to must be there. -/
def completePreview (id : Ulid) (status : LinkPreviewStatus) (link : Option Ulid) :
    Option PreviewTables :=
  if link.all fun id => s.tables.links.any fun l => l.id = id then
    some (s.tables.updatePreview id fun r => { r with
      status := status
      linkPreviewId := link
      claimedUntil := none })
  else none

/-- `completeLinkPreview`: the tables that it leaves. -/
def completeLinkPreview (claimed : ClaimedPreview) (status : LinkPreviewStatus)
    (link : Option Ulid) : Option PreviewTables :=
  match s.tables.getMessage claimed.roomId claimed.messageId with
  | none => none
  | some m => match s.tables.getPreview claimed.id claimed.messageId with
    | none => none
    | some row =>
      if row.status ≠ .pending ∨ m.deleted then none
      else if status = .ok ∧ row.removedAt = none then
        match s.tables.allocateChangeSeq claimed.roomId 1 with
        | none => s.completePreview claimed.id .failed none
        | some numbers => (s.completePreview claimed.id status link).map fun d =>
          (d.setRoom claimed.roomId numbers).updateMessage claimed.messageId
            (ChatMessage.touch numbers.lastChangeSeq)
      else s.completePreview claimed.id status link

/-- A worker completes its row, and is done. -/
def complete (i : ℕ) : Option PreviewService :=
  match s.workers[i]? with
  | some (.complete claimed status link) =>
    match s.completeLinkPreview claimed status link with
    | some d => some { s with
        tables := d
        workers := s.workers.set i .done }
    | none => some (s.goes i .done)
  | _ => none

/-- One step. -/
def act : PreviewAction → Option PreviewService
  | .sendMessage actor room input suppressed => s.sendMessage c actor room input suppressed
  | .editMessage actor room message body => s.editMessage c actor room message body
  | .removeLinkPreview actor room message preview => s.removeLinkPreview actor room message preview
  | .deleteMessage room message => s.deleteMessage room message
  | .claim preview => s.claim preview
  | .resolve i => s.resolve i
  | .fetch i result => s.fetch i result
  | .complete i => s.complete i
  | .fail i => if i < s.workers.length then some (s.goes i .done) else none
  | .previewLink url ok =>
    if (s.tables.findFresh url s.clock).isNone then some (s.createLink url ok) else none
  | .cleanup links =>
    if s.tables.links.all fun l => decide (l.id ∈ links →
        l.fetchedAt + linkPreviewRetention < s.clock ∧
          ∀ r ∈ s.tables.previews, r.linkPreviewId ≠ some l.id) then
      some { s with tables := { s.tables with
        links := s.tables.links.filter fun l => l.id ∉ links } }
    else none
  | .touch room message =>
    (s.tables.getMessage room message).bind fun _ =>
      (s.tables.allocateChangeSeq room 1).map fun numbers =>
        { s with
          tables := (s.tables.setRoom room numbers).updateMessage message
            (ChatMessage.touch numbers.lastChangeSeq) }
  | .archive room archived =>
    (s.tables.rooms room).map fun r =>
      { s with tables := s.tables.setRoom room { r with archived := archived } }
  | .tick => some { s with clock := s.clock + 1 }

/-- **The runs of the service** with some rooms and nothing in them. -/
def system : TransitionSystem PreviewService PreviewAction where
  init s := s.tables.messages = [] ∧ s.tables.previews = [] ∧ s.tables.links = [] ∧
    s.workers = [] ∧ s.hidden = []
  step s a := act c s a

end PreviewService

end Hibari
