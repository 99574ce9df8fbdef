import Hibari.Huddles
import Hibari.Requests
import Hibari.RoomSummary
import Hibari.TransitionSystem

/-!
# Rooms from answers and from events

An answer of the server that has a room has all of it, and `putRoom` puts it in the place of what the
client has. An event changes what it is about: `applyMessageToRoom`, `applyReadToRoom` and
`receiveHuddleUpdated` compare numbers and keep what is newer. An answer was read at some moment between
its request and its arrival, and `putRoom` compares nothing.

The row of a room on the server is a history that grows: the numbers of messages and the position up to
which the user has read, and the versions of one huddle. An event is sent with the row after it.
-/

namespace Hibari

/-- A room, with what is shown of its huddle and the number of its members. -/
structure RoomCopy where
  room : Room
  huddle : Option RoomHuddle
  memberCount : Option ℕ
  deriving DecidableEq

/-- What an event says about a room. -/
inductive CopyNotice
  | created (m : Message)
  /-- `message.updated` and `message.deleted`. -/
  | changed (m : Message)
  | read (r : ReadNotice)
  | huddle (huddle : Option RoomHuddle)
  deriving DecidableEq

/-- What the server did to a room, and the room after it. -/
structure RoomEvent where
  roomId : Ulid
  notice : CopyNotice
  after : RoomCopy
  deriving DecidableEq

/-- Whose answers have rooms. -/
inductive RoomRequest
  /-- The rooms that are listed; the number of members is not. -/
  | loadRooms (workspaceId : Ulid) (roomIds : List Ulid)
  | refreshRoom (roomId : Ulid)
  | openRoom (roomId : Ulid)
  | joinedRoom (roomId : Ulid)
  | joinRoom (roomId : Ulid)
  | updateRoom (roomId : Ulid)
  | archiveRoom (roomId : Ulid)
  | unarchiveRoom (roomId : Ulid)
  deriving DecidableEq

/-- The rooms that an answer has. -/
def RoomRequest.roomIds : RoomRequest → List Ulid
  | .loadRooms _ roomIds => roomIds
  | .refreshRoom roomId | .openRoom roomId | .joinedRoom roomId | .joinRoom roomId
  | .updateRoom roomId | .archiveRoom roomId | .unarchiveRoom roomId => [roomId]

/-- Which go through `once`. -/
def RoomRequest.alone : RoomRequest → Bool
  | .loadRooms _ _ | .refreshRoom _ | .openRoom _ | .joinedRoom _ => true
  | .joinRoom _ | .updateRoom _ | .archiveRoom _ | .unarchiveRoom _ => false

/-- The key under which it does. -/
def RoomRequest.sameKey : RoomRequest → RoomRequest → Bool
  | .loadRooms w _, .loadRooms w' _ => w = w'
  | a, b => a = b

/-- What an answer has of a room. -/
def RoomRequest.carries : RoomRequest → RoomCopy → RoomCopy
  | .loadRooms _ _, copy => { copy with memberCount := none }
  | _, copy => copy

namespace RoomCopy

/-- What an event does to a room that is known. -/
def receive (userId : Ulid) (copy : RoomCopy) : CopyNotice → RoomCopy
  | .created m => { copy with room := applyMessageToRoom copy.room m userId true }
  | .changed m => { copy with room := applyMessageToRoom copy.room m userId false }
  | .read r => { copy with room := applyReadToRoom copy.room r }
  | .huddle h => { copy with huddle := newerHuddle copy.huddle h }

/-- `putRoom`: the number of members is kept where the answer has none. -/
def put (existing : Option RoomCopy) (copy : RoomCopy) : RoomCopy :=
  { copy with memberCount := copy.memberCount.or (existing.bind RoomCopy.memberCount) }

/-- The numbers of messages and the read position do not get smaller. -/
structure NumbersLe (a b : RoomCopy) : Prop where
  lastMessageSeq : a.room.lastMessageSeq ≤ b.room.lastMessageSeq
  lastUserSeq : a.room.lastUserSeq ≤ b.room.lastUserSeq
  lastReadSeq : ∀ x ∈ a.room.lastReadSeq, ∃ y ∈ b.room.lastReadSeq, x ≤ y
  lastReadUserSeq : ∀ x ∈ a.room.lastReadUserSeq, ∃ y ∈ b.room.lastReadUserSeq, x ≤ y

/-- A huddle is not replaced by an older version of it. -/
def HuddleLe (a b : RoomCopy) : Prop :=
  ∀ h ∈ a.huddle, ∀ h' ∈ b.huddle, h.id = h'.id → h.version ≤ h'.version

instance (a b : RoomCopy) : Decidable (a.NumbersLe b) :=
  decidable_of_iff (a.room.lastMessageSeq ≤ b.room.lastMessageSeq ∧
      a.room.lastUserSeq ≤ b.room.lastUserSeq ∧
      (∀ x ∈ a.room.lastReadSeq, ∃ y ∈ b.room.lastReadSeq, x ≤ y) ∧
      ∀ x ∈ a.room.lastReadUserSeq, ∃ y ∈ b.room.lastReadUserSeq, x ≤ y)
    ⟨fun ⟨h, h', h'', h'''⟩ => ⟨h, h', h'', h'''⟩, fun ⟨h, h', h'', h'''⟩ => ⟨h, h', h'', h'''⟩⟩

instance (a b : RoomCopy) : Decidable (a.HuddleLe b) :=
  inferInstanceAs (Decidable (∀ h ∈ a.huddle, ∀ h' ∈ b.huddle, _))

/-- Whether an event is news to a room that is known. -/
def News (copy : RoomCopy) : CopyNotice → Prop
  | .created m => inChannel m = true ∧ copy.room.lastMessageSeq < m.seq
  | .changed _ => False
  | .read r => copy.room.lastReadSeq.getD 0 < r.lastReadSeq ∨
      copy.room.lastReadUserSeq.getD 0 < r.lastReadUserSeq
  | .huddle h => newerHuddle copy.huddle h ≠ copy.huddle

instance (copy : RoomCopy) (notice : CopyNotice) : Decidable (copy.News notice) := by
  cases notice <;> unfold News <;> infer_instance

end RoomCopy

/-- An event says what the row is after it. -/
def RoomEvent.Tells (userId : Ulid) (e : RoomEvent) : Prop :=
  match e.notice with
  | .created m => inChannel m = true → e.after.room.lastMessageSeq = m.seq ∧
      e.after.room.lastUserSeq = m.userSeq ∧ (isMine userId m = true →
        e.after.room.lastReadSeq = some m.seq ∧ e.after.room.lastReadUserSeq = some m.userSeq)
  | .changed _ => True
  | .read r => e.after.room.lastReadSeq = some r.lastReadSeq ∧
      e.after.room.lastReadUserSeq = some r.lastReadUserSeq
  | .huddle h => e.after.huddle = h

instance (userId : Ulid) (e : RoomEvent) : Decidable (e.Tells userId) := by
  unfold RoomEvent.Tells
  split <;> infer_instance

/-- **The server, and the rooms of a client.** -/
structure CopyState where
  base : Ulid → RoomCopy
  log : List RoomEvent
  inflight : List (Request RoomRequest)
  rooms : Ulid → Option RoomCopy

/-- **What happens.** -/
inductive CopyAction
  | happen (e : RoomEvent)
  /-- An event arrives, in any order and any number of times. -/
  | deliver (j : ℕ)
  | start (key : RoomRequest)
  | answer (i : ℕ)
  | settle (i : ℕ)
  deriving DecidableEq

namespace CopyState

variable (userId : Ulid) (s : CopyState)

/-- The rooms on the server after a number of events. -/
def serverAt (k : ℕ) : Ulid → RoomCopy :=
  (s.log.take k).foldl (fun rooms e => Function.update rooms e.roomId e.after) s.base

/-- **The history of a room grows**: the numbers do, and of one huddle the version. -/
def Grows (e : RoomEvent) : Prop :=
  (s.serverAt s.log.length e.roomId).NumbersLe e.after ∧
    (∀ j ≤ s.log.length, (s.serverAt j e.roomId).HuddleLe e.after) ∧ e.Tells userId

instance (e : RoomEvent) : Decidable (s.Grows userId e) :=
  inferInstanceAs (Decidable (_ ∧ (∀ j ≤ _, _) ∧ _))

/-- `patchRoom`. -/
def receive (e : RoomEvent) : CopyState :=
  let received := (s.rooms e.roomId).map fun copy => copy.receive userId e.notice
  { s with rooms := Function.update s.rooms e.roomId received }

/-- `putRoom`, for each room of an answer. -/
def put (key : RoomRequest) (rooms : Ulid → RoomCopy) : Ulid → Option RoomCopy :=
  key.roomIds.foldl (fun copies roomId => Function.update copies roomId
    (some (.put (copies roomId) (key.carries (rooms roomId))))) s.rooms

/-- One step. -/
def act : CopyAction → Option CopyState
  | .happen e => if s.Grows userId e then some { s with log := s.log ++ [e] } else none
  | .deliver j => s.log[j]?.map fun e => s.receive userId e
  | .start key =>
    if key.alone && s.inflight.any (fun q => q.key.sameKey key) then some s
    else some { s with inflight := s.inflight ++ [⟨key, s.log.length, none⟩] }
  | .answer i => some { s with inflight := Request.answer i s.log.length s.inflight }
  | .settle i => s.inflight[i]?.bind fun q => q.read.map fun k => { s with
      inflight := s.inflight.eraseIdx i
      rooms := s.put q.key (s.serverAt k) }

/-- **The runs** of a client that starts with nothing. -/
def system : TransitionSystem CopyState CopyAction where
  init s := s.log = [] ∧ s.inflight = [] ∧ s.rooms = fun _ => none
  step s a := act userId s a

/-- **The condition**: what comes while an answer that was read is on its way, and has the same room, was
there when it was read. -/
def InTurn : CopyAction → Prop
  | .deliver j => ∀ e ∈ s.log[j]?, ∀ copy ∈ s.rooms e.roomId, copy.News e.notice →
      ∀ q ∈ s.inflight, e.roomId ∈ q.key.roomIds → ∀ k ∈ q.read, j < k
  | .settle i => ∀ q ∈ s.inflight[i]?, ∀ k ∈ q.read, ∀ q' ∈ s.inflight.eraseIdx i,
      ∀ roomId ∈ q.key.roomIds, roomId ∈ q'.key.roomIds → ∀ k' ∈ q'.read,
        k ≤ k' ∨ s.serverAt k roomId = s.serverAt k' roomId
  | _ => True

instance (a : CopyAction) : Decidable (s.InTurn a) := by
  cases a <;> unfold InTurn <;> infer_instance

end CopyState

end Hibari
