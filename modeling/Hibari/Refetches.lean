import Hibari.Message
import Hibari.Requests
import Hibari.TransitionSystem

/-!
# Refetching who is there

An event about members does not bring the list. The client takes out who has left, and asks the server
again for the rest: for the members of a room, for the room with its number of members, for the members
of the workspace. Each of these goes through `once`, which sends nothing while a request for the same key
is in flight. `reloadMembers` and `reloadRooms` wait for what is in flight and then send; `reloadRoomMembers`,
`refreshRoom` and `joinedRoom` do not.

Lists of members are ordered by user, so they are taken as sets. What was asked for because of an event,
and which requests were applied, is written down; nothing reads that.
-/

namespace Hibari

open Function

/-- The key of a request. -/
inductive RefetchKey
  /-- `reloadRoomMembers`. -/
  | members (roomId : Ulid)
  /-- `refreshRoom`. -/
  | roomInfo (roomId : Ulid)
  | joined (roomId : Ulid)
  /-- `openRoom`. -/
  | room (roomId : Ulid)
  /-- A change of a room, whose answer is the room; it does not go through `once`. -/
  | change (roomId : Ulid)
  /-- `loadMembers`. -/
  | wsmembers (workspaceId : Ulid)
  /-- `loadRooms`. -/
  | rooms (workspaceId : Ulid)
  deriving DecidableEq

/-- Who is where. -/
structure Memberships where
  roomMembers : Ulid → Finset Ulid
  members : Ulid → Finset Ulid

/-- An event, for what it says about members. -/
inductive MemberEvent
  | memberJoined (workspaceId roomId userId : Ulid)
  | memberLeft (roomId userId : Ulid)
  | roomUpdated (roomId : Ulid)
  | roomDeleted (roomId : Ulid)
  /-- `room.member_removed`: the user was. -/
  | roomMemberRemoved (roomId : Ulid)
  | workspaceMemberRemoved (workspaceId userId : Ulid)
  /-- `message.deleted`, of the last message the client knows or of another. -/
  | messageDeleted (roomId : Ulid) (last : Bool)
  deriving DecidableEq

/-- What the server did before it sent an event. -/
def Memberships.apply (me : Ulid) (m : Memberships) : MemberEvent → Memberships
  | .memberJoined workspaceId roomId userId =>
    { roomMembers := Function.update m.roomMembers roomId (insert userId (m.roomMembers roomId))
      members := Function.update m.members workspaceId (insert userId (m.members workspaceId)) }
  | .memberLeft roomId userId => { m with
      roomMembers := Function.update m.roomMembers roomId ((m.roomMembers roomId).erase userId) }
  | .roomDeleted roomId => { m with roomMembers := Function.update m.roomMembers roomId ∅ }
  | .roomMemberRemoved roomId => { m with
      roomMembers := Function.update m.roomMembers roomId ((m.roomMembers roomId).erase me) }
  | .workspaceMemberRemoved workspaceId userId => { m with
      members := Function.update m.members workspaceId ((m.members workspaceId).erase userId) }
  | .roomUpdated _ | .messageDeleted _ _ => m

/-- The set that an answer is about. -/
def RefetchKey.brings (m : Memberships) : RefetchKey → Finset Ulid
  | .members roomId | .roomInfo roomId | .joined roomId | .room roomId | .change roomId =>
    m.roomMembers roomId
  | .wsmembers workspaceId => m.members workspaceId
  | .rooms _ => ∅

/-- The room whose number of members an answer has. -/
def RefetchKey.counts : RefetchKey → Option Ulid
  | .roomInfo roomId | .joined roomId | .room roomId | .change roomId => some roomId
  | .members _ | .wsmembers _ | .rooms _ => none

/-- `reloadMembers` and `reloadRooms` wait. -/
def RefetchKey.waits : RefetchKey → Bool
  | .wsmembers _ | .rooms _ => true
  | .members _ | .roomInfo _ | .joined _ | .room _ | .change _ => false

/-- **The server, and a store.** -/
structure RefetchState where
  base : Memberships
  /-- What the server did and sent. -/
  log : List MemberEvent
  /-- How much of it was delivered. -/
  seen : ℕ
  inflight : List (Request RefetchKey)
  /-- Who waits for what is in flight, to ask again. -/
  waiting : List RefetchKey
  roomMembers : Ulid → Option (Finset Ulid)
  /-- `member_count`, where it is known. -/
  memberCount : Ulid → Option ℕ
  members : Ulid → Option (Finset Ulid)
  removedRooms : Ulid → Bool
  /-- What was asked for, and after how many events. -/
  asked : List (RefetchKey × ℕ)
  /-- The requests that were applied, and after how many events they were sent. -/
  applied : List (RefetchKey × ℕ)

/-- **What happens.** -/
inductive RefetchAction
  /-- The server does something. -/
  | happen (e : MemberEvent)
  /-- The next event arrives. -/
  | deliver
  /-- A screen opens, or the user changes a room. -/
  | load (key : RefetchKey)
  /-- What `reloadMembers` and `reloadRooms` do. -/
  | reload (key : RefetchKey)
  | answer (i : ℕ)
  | settle (i : ℕ)
  deriving DecidableEq

namespace RefetchState

variable (me : Ulid) (isPublic : Ulid → Bool) (s : RefetchState)

/-- The server after a number of events. -/
def serverAt (k : ℕ) : Memberships := (s.log.take k).foldl (Memberships.apply me) s.base

/-- An entry that is being loaded is there. -/
def loading : RefetchKey → RefetchState
  | .members roomId => { s with
      roomMembers := Function.update s.roomMembers roomId (some ((s.roomMembers roomId).getD ∅)) }
  | .wsmembers workspaceId => { s with
      members := Function.update s.members workspaceId (some ((s.members workspaceId).getD ∅)) }
  | _ => s

/-- A request through `once`. A change is sent in any case. -/
def start (key : RefetchKey) : RefetchState :=
  match key with
  | .change _ => { s with inflight := s.inflight ++ [⟨key, s.seen, none⟩] }
  | _ => { s.loading key with inflight := Request.once key s.seen s.inflight }

/-- It waits for what is in flight, and then asks. -/
def reload (key : RefetchKey) : RefetchState :=
  if s.inflight.any fun q => q.key = key then { s with waiting := key :: s.waiting } else s.start key

/-- A handler asks. -/
def ask (key : RefetchKey) : RefetchState :=
  { s.start key with asked := (key, s.seen) :: s.asked }

/-- A handler asks, after what is in flight. -/
def askAgain (key : RefetchKey) : RefetchState :=
  { s.reload key with asked := (key, s.seen) :: s.asked }

/-- `if (core.state.rooms[roomId]?.member_count !== undefined) void refreshRoom(roomId)`. -/
def askCount (roomId : Ulid) : RefetchState :=
  if (s.memberCount roomId).isSome then s.ask (.roomInfo roomId) else s

/-- Nothing of the room is shown any more. -/
def remove (roomId : Ulid) : RefetchState :=
  { s with
    roomMembers := Function.update s.roomMembers roomId none
    removedRooms := Function.update s.removedRooms roomId true }

/-- `reloadMembers`, if somebody is not in the list. -/
def askMembers (workspaceId userId : Ulid) : RefetchState :=
  if (s.members workspaceId).any fun list => userId ∉ list then s.askAgain (.wsmembers workspaceId)
  else s

/-- `applyEvent`. -/
def applyEvent : MemberEvent → RefetchState
  | .memberJoined workspaceId roomId userId =>
    let s := s.askMembers workspaceId userId
    if userId = me then s.ask (.joined roomId)
    else
      let s := if (s.roomMembers roomId).isSome then s.ask (.members roomId) else s
      s.askCount roomId
  | .memberLeft roomId userId =>
    if userId = me then s
    else
      let left := (s.roomMembers roomId).map fun list => list.erase userId
      { s with roomMembers := Function.update s.roomMembers roomId left }.askCount roomId
  | .roomUpdated _ => s
  | .roomDeleted roomId => s.remove roomId
  | .roomMemberRemoved roomId => if isPublic roomId then s else s.remove roomId
  | .workspaceMemberRemoved workspaceId userId =>
    let left := (s.members workspaceId).map fun list => list.erase userId
    { s with members := Function.update s.members workspaceId left }
  | .messageDeleted roomId last => if last then s.ask (.roomInfo roomId) else s

/-- What an answer does. -/
def apply (key : RefetchKey) (m : Memberships) : RefetchState :=
  match key with
  | .members roomId => { s with
      roomMembers := Function.update s.roomMembers roomId (some (m.roomMembers roomId)) }
  | .roomInfo roomId | .room roomId | .change roomId => { s with
      memberCount := Function.update s.memberCount roomId (some (m.roomMembers roomId).card) }
  | .joined roomId => { s with
      memberCount := Function.update s.memberCount roomId (some (m.roomMembers roomId).card)
      removedRooms := Function.update s.removedRooms roomId false }
  | .wsmembers workspaceId => { s with
      members := Function.update s.members workspaceId (some (m.members workspaceId)) }
  | .rooms _ => s

/-- Who has waited for it goes on. -/
def proceed (key : RefetchKey) : RefetchState :=
  if key ∈ s.waiting then
    { s.start key with waiting := s.waiting.filter (· ≠ key) }
  else s

/-- One step. -/
def act : RefetchAction → Option RefetchState
  | .happen e => some { s with log := s.log ++ [e] }
  | .deliver => s.log[s.seen]?.map fun e => applyEvent me isPublic { s with seen := s.seen + 1 } e
  | .load key => some (s.start key)
  | .reload key => if key.waits then some (s.reload key) else none
  | .answer i => some { s with inflight := Request.answer i s.log.length s.inflight }
  | .settle i => s.inflight[i]?.bind fun q => q.read.map fun k =>
    let s' := { s with
      inflight := s.inflight.eraseIdx i
      applied := (q.key, q.started) :: s.applied }
    (s'.apply q.key (s.serverAt me k)).proceed q.key

/-! ## In turn -/

/-- What the handler of an event asks for without waiting. -/
def asksAlone : MemberEvent → List RefetchKey
  | .memberJoined _ roomId userId =>
    if userId = me then [.joined roomId]
    else (if (s.roomMembers roomId).isSome then [.members roomId] else []) ++
      if (s.memberCount roomId).isSome then [.roomInfo roomId] else []
  | .memberLeft roomId userId =>
    if userId ≠ me ∧ (s.memberCount roomId).isSome then [.roomInfo roomId] else []
  | .messageDeleted roomId last => if last then [.roomInfo roomId] else []
  | _ => []

/-- What it asks for again. -/
def asksAgain : MemberEvent → List RefetchKey
  | .memberJoined workspaceId _ userId =>
    if (s.members workspaceId).any fun list => userId ∉ list then [.wsmembers workspaceId] else []
  | _ => []

/-- The room that the user has joined or left herself, and that is still shown. -/
def ownRoom : MemberEvent → Option Ulid
  | .memberJoined _ roomId userId | .memberLeft roomId userId =>
    if userId = me then some roomId else none
  | .roomMemberRemoved roomId => if isPublic roomId then some roomId else none
  | _ => none

/-- A request for a key is in flight. -/
def InFlight (key : RefetchKey) : Prop := ∃ q ∈ s.inflight, q.key = key

/-- A request for the number of members is in flight. -/
def Counting (roomId : Ulid) : Prop := ∃ q ∈ s.inflight, q.key.counts = some roomId

instance (key : RefetchKey) : Decidable (s.InFlight key) :=
  inferInstanceAs (Decidable (∃ q ∈ s.inflight, _))

instance (roomId : Ulid) : Decidable (s.Counting roomId) :=
  inferInstanceAs (Decidable (∃ q ∈ s.inflight, _))

/-- **An event comes in turn.** What its handler asks for without waiting is not in flight; no answer is on
its way that was read before the event and is another after it, but to what is asked for again; and where
the user has joined or left herself, the list and the number of members are not loaded, or have it, or are
in flight. -/
def EventInTurn (e : MemberEvent) : Prop :=
  (∀ key ∈ s.asksAlone me e, ¬ s.InFlight key) ∧
  (∀ q ∈ s.inflight, ∀ k ∈ q.read, k ≤ s.seen →
    q.key.brings (s.serverAt me (s.seen + 1)) = q.key.brings (s.serverAt me s.seen) ∨
      q.key ∈ s.asksAgain e) ∧
  ∀ roomId ∈ ownRoom me isPublic e,
    (s.serverAt me (s.seen + 1)).roomMembers roomId = (s.serverAt me s.seen).roomMembers roomId ∨
    (s.InFlight (.members roomId) ∨ ∀ list ∈ s.roomMembers roomId,
      (me ∈ list ↔ me ∈ (s.serverAt me (s.seen + 1)).roomMembers roomId)) ∧
    (.joined roomId ∈ s.asksAlone me e ∨ s.Counting roomId ∨ ∀ n ∈ s.memberCount roomId,
      n = ((s.serverAt me (s.seen + 1)).roomMembers roomId).card)

instance (e : MemberEvent) : Decidable (s.EventInTurn me isPublic e) := by
  unfold EventInTurn
  infer_instance

/-- **The condition** on steps. -/
def InTurn : RefetchAction → Prop
  | .deliver => ∀ e ∈ s.log[s.seen]?, s.EventInTurn me isPublic e
  | _ => True

instance (a : RefetchAction) : Decidable (s.InTurn me isPublic a) := by
  cases a <;> unfold InTurn <;> infer_instance

/-- **The runs** of a store. -/
def system : TransitionSystem RefetchState RefetchAction where
  init s := s.log = [] ∧ s.seen = 0 ∧ s.inflight = [] ∧ s.waiting = [] ∧ s.roomMembers = (fun _ => none) ∧
    s.memberCount = (fun _ => none) ∧ s.members = (fun _ => none) ∧ s.removedRooms = (fun _ => false) ∧
    s.asked = [] ∧ s.applied = []
  step s a := act me isPublic s a

end RefetchState

end Hibari
