import Mathlib

/-!
# Messages, rooms and pages

The records the API sends and the web client keeps (`types.gen`), with the
fields that the modelled functions read or copy. A field that is optional in
the API is an `Option`, and so is one that may be null; `me` and `saved` are
the two that only a REST answer carries, since a WebSocket frame goes to
every subscriber alike.

Numbers – `seq`, `change_seq`, `user_seq` – are natural numbers. The unread
count is an integer: it is computed by a subtraction that nothing in the
type keeps from going below zero.

An id is a ULID. The code compares ids for equality, and in a few places by
the order of their 26 characters; those are fixed-width and in the order of
the value they encode, so an id is its value here.
-/

namespace Hibari

/-- A ULID, as the number it encodes. -/
abbrev Ulid := ℕ

/-- An ISO 8601 time of the API, copied and never computed with. -/
abbrev DateTime := String

/-- **A time as the API writes it**, in UTC: the date and time of day to the
second, which is fixed-width and so in the order of the second it names, then
the digits of the fraction with no trailing zero (none at all on a whole
second), then a `Z`. -/
structure Timestamp where
  second : ℕ
  fraction : List (Fin 10)
  /-- The writer trims trailing zeros. -/
  trimmed : fraction.getLast? ≠ some 0
  deriving DecidableEq

theorem Timestamp.trimmed_nil : ([] : List (Fin 10)).getLast? ≠ some 0 := by simp

/-- A user as other people see them. -/
structure UserProfile where
  id : Ulid
  handle : String
  displayName : String
  deriving DecidableEq

/-- Whether a row is something a person said or a log line. -/
inductive MessageKind
  | user
  | system
  deriving DecidableEq

/-- What a log line reports. -/
inductive SystemEventType
  | roomCreated
  | memberJoined
  | memberLeft
  | memberRemoved
  | roomRenamed
  | messagePinned
  | roomArchived
  | roomUnarchived
  | huddle
  deriving DecidableEq

/-- A log line. -/
structure SystemEvent where
  type : SystemEventType
  oldName : Option String
  newName : Option String
  messageId : Option Ulid
  huddleId : Option Ulid
  deriving DecidableEq

/-- Whom a mention addresses. -/
inductive MentionKind
  | user
  | channel
  | here
  deriving DecidableEq

/-- A mention in a body. -/
structure Mention where
  kind : MentionKind
  user : Option UserProfile
  deriving DecidableEq

/-- An emoji reaction. `me` is absent from WebSocket frames. -/
structure MessageReaction where
  emoji : String
  count : ℕ
  me : Option Bool
  users : List Ulid
  deriving DecidableEq

/-- Who pinned a message, and when. -/
structure MessagePin where
  pinnedBy : UserProfile
  at_ : Timestamp
  deriving DecidableEq

/-- A message as the API sends it. -/
structure Message where
  id : Ulid
  roomId : Ulid
  /-- The position in the room: what the timeline is ordered by. -/
  seq : ℕ
  /-- The number of the change that made this version of the message. -/
  changeSeq : ℕ
  /-- How many things people had said when this was said. -/
  userSeq : ℕ
  sender : UserProfile
  clientMsgId : Ulid
  kind : MessageKind
  system : Option SystemEvent
  body : String
  /-- The root of the thread a reply belongs to. -/
  threadRootId : Option Ulid
  /-- Whether a reply was sent to the channel as well. -/
  alsoInChannel : Bool
  mentions : List Mention
  reactions : List MessageReaction
  pinned : Option MessagePin
  /-- Whether the viewer saved it; absent from WebSocket frames. -/
  saved : Option Bool
  createdAt : DateTime
  deletedAt : Option DateTime
  deriving DecidableEq

/-- Whether a row shows in the channel's timeline: a post always does, a
thread reply only when it was sent to the channel as well. -/
def inChannel (message : Message) : Bool :=
  message.threadRootId.isNone || message.alsoInChannel

/-! ## What never changes about a message

The position of a message and whether it shows in the channel are settled
when it is sent. Its **place** is these; its **stamp** adds the number of
the change that made this version. Two copies of one version agree on the
stamp whatever the viewer's own fields say. -/

/-- What identifies a message and where it stands. -/
structure Place where
  id : Ulid
  seq : ℕ
  inChannel : Bool
  deriving DecidableEq

/-- One version of the message at a place. -/
structure Stamp where
  place : Place
  changeSeq : ℕ
  deriving DecidableEq

/-- The place of a message. -/
def Message.place (m : Message) : Place := ⟨m.id, m.seq, Hibari.inChannel m⟩

/-- The version of a message. -/
def Message.stamp (m : Message) : Stamp := ⟨m.place, m.changeSeq⟩

@[simp] theorem Message.place_seq (m : Message) : m.place.seq = m.seq := rfl

@[simp] theorem Message.place_inChannel (m : Message) :
    m.place.inChannel = Hibari.inChannel m := rfl

/-- A message to try things on: version `changeSeq` of what user `sender` said
at position `n`. -/
def Message.said (sender n changeSeq : ℕ) : Message where
  id := n
  roomId := 0
  seq := n
  changeSeq := changeSeq
  userSeq := n
  sender := ⟨sender, "sora", "Sora"⟩
  clientMsgId := n
  kind := .user
  system := none
  body := "hello"
  threadRootId := none
  alsoInChannel := false
  mentions := []
  reactions := []
  pinned := none
  saved := none
  createdAt := "2026-01-01T00:00:00Z"
  deletedAt := none

end Hibari
