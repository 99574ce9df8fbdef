import Hibari.Requests
import Hibari.Timeline
import Hibari.TransitionSystem

/-!
# Rooms that are taken away

When the user is taken out of a private room, or a room is deleted, `removedFromRoom` and `roomDeleted`
take its entries out of the lists, the timelines, the members, the pins and the threads. The loaders that
make those entries look at the state before they wait for the server; when their answer comes, they write.
An answer has what the user could read when it was read.

What a store has of a room is here an entry with its status, and whether something of the server is in it.
-/

namespace Hibari

open Function

/-- What is shown of something that is loaded: its status, and whether it has anything. -/
structure Entry where
  status : LoadStatus
  filled : Bool
  deriving DecidableEq

/-- It is being loaded. -/
def Entry.loading : Entry := ⟨.loading, false⟩

/-- It was loaded. -/
def Entry.ready : Entry := ⟨.ready, true⟩

/-- Nothing is shown. -/
def Entry.Empty (e : Entry) : Prop := e.status ≠ .ready ∧ e.filled = false

instance (e : Entry) : Decidable e.Empty := inferInstanceAs (Decidable (_ ∧ _))

/-- What happens to the user and a room. -/
inductive RoomChange
  /-- `member.joined`: the user has joined, or was added. -/
  | gained (roomId : Ulid)
  /-- `room.member_removed`. -/
  | lost (roomId : Ulid)
  /-- `room.deleted`. -/
  | deleted (roomId : Ulid)
  deriving DecidableEq

/-- A request of a store. -/
inductive Loader
  | loadRooms (workspaceId : Ulid)
  /-- `openRoom`, of a timeline that is there or is not. -/
  | openRoom (roomId : Ulid) (cached : Bool)
  | joinedRoom (roomId : Ulid)
  | refreshRoom (roomId : Ulid)
  /-- `createRoom` and `openDm`. -/
  | addRoom (roomId : Ulid)
  | members (roomId : Ulid)
  | pins (roomId : Ulid)
  | thread (roomId rootId : Ulid)
  /-- `jumpToMessage` and `jumpToUnread`. -/
  | jump (roomId : Ulid)
  /-- Further messages of a timeline: `loadOlder`, `loadNewer` and `syncTimeline`. -/
  | page (roomId : Ulid)
  /-- Further messages of a thread. -/
  | threadPage (roomId rootId : Ulid)
  deriving DecidableEq

/-- The key under which a request is made once. -/
def Loader.sameKey : Loader → Loader → Bool
  | .openRoom r _, .openRoom r' _ => r = r'
  | .thread _ root, .thread _ root' => root = root'
  | .addRoom _, _ | .jump _, _ | .page _, _ | .threadPage _ _, _ => false
  | a, b => a = b

/-- **A store, and what the user may read.** -/
structure ShelfState where
  /-- The rooms that the user may read. -/
  base : Finset Ulid
  log : List RoomChange
  inflight : List (Request Loader)
  /-- The rooms that the store knows. -/
  known : Finset Ulid
  roomLists : Ulid → Option (Finset Ulid)
  timelines : Ulid → Option Entry
  roomMembers : Ulid → Option Entry
  pins : Ulid → Option Entry
  /-- The threads, with their rooms. -/
  threads : Ulid → Option (Ulid × Entry)
  removedRooms : Ulid → Bool
  /-- What was taken away: the room, and its place among the events. -/
  taken : List (Ulid × ℕ)
  /-- What was put into the list when the user joined, and when that was read. -/
  puts : List (Ulid × ℕ)

/-- **What happens.** -/
inductive ShelfAction
  | happen (change : RoomChange)
  /-- An event arrives, or the answer to the same done by the user herself. -/
  | deliver (j : ℕ)
  | start (key : Loader)
  | answer (i : ℕ)
  | settle (i : ℕ)
  /-- An answer does not arrive. -/
  | fail (i : ℕ)
  deriving DecidableEq

/-- A status changes where something is there. -/
def Entry.patch (status : LoadStatus) (e : Option Entry) : Option Entry :=
  e.map fun e => { e with status := status }

/-- A list could not be loaded: what was there is shown. -/
def Entry.failed (status : LoadStatus) (e : Option Entry) : Option Entry :=
  some ⟨status, e.any Entry.filled⟩

namespace ShelfState

variable (isPublic : Ulid → Bool) (workspaceOf rootRoom : Ulid → Ulid) (s : ShelfState)

/-- What a change does to what the user may read. A public room can be read by those who are not in it. -/
def readable (rooms : Finset Ulid) : RoomChange → Finset Ulid
  | .gained roomId => insert roomId rooms
  | .lost roomId => if isPublic roomId then rooms else rooms.erase roomId
  | .deleted roomId => rooms.erase roomId

/-- The rooms that the user may read after a number of events. -/
def roomsAt (k : ℕ) : Finset Ulid := (s.log.take k).foldl (readable isPublic) s.base

/-- `addRoom`, and the end of `joinedRoom`. -/
def list (roomId : Ulid) : ShelfState :=
  { s with
    known := insert roomId s.known
    roomLists := Function.update s.roomLists (workspaceOf roomId)
      ((s.roomLists (workspaceOf roomId)).map fun ids => insert roomId ids) }

/-- Threads of a room are dropped. -/
def dropThreads (roomId : Ulid) : Ulid → Option (Ulid × Entry) :=
  fun rootId => if (s.threads rootId).any (fun t => t.1 = roomId) then none else s.threads rootId

/-- What both ways of losing a room take out. -/
def drop (roomId : Ulid) : ShelfState :=
  { s with
    threads := s.dropThreads roomId
    removedRooms := Function.update s.removedRooms roomId true
    timelines := Function.update s.timelines roomId none
    roomMembers := Function.update s.roomMembers roomId none
    roomLists := Function.update s.roomLists (workspaceOf roomId)
      ((s.roomLists (workspaceOf roomId)).map fun ids => ids.erase roomId) }

/-- `removedFromRoom`: a public room stays. -/
def removedFromRoom (roomId : Ulid) : ShelfState :=
  if roomId ∈ s.known ∧ isPublic roomId = true then s else s.drop workspaceOf roomId

/-- `roomDeleted`. -/
def roomDeleted (roomId : Ulid) : ShelfState :=
  let dropped := s.drop workspaceOf roomId
  { dropped with pins := Function.update s.pins roomId none }

/-- What a loader writes before it asks. -/
def loading : Loader → ShelfState
  | .loadRooms workspaceId => { s with
      roomLists := Function.update s.roomLists workspaceId (some ((s.roomLists workspaceId).getD ∅)) }
  | .openRoom roomId cached =>
    if cached then s else { s with timelines := Function.update s.timelines roomId (some .loading) }
  | .members roomId => { s with
      roomMembers := Function.update s.roomMembers roomId (some ((s.roomMembers roomId).getD .loading)) }
  | .pins roomId => { s with
      pins := Function.update s.pins roomId (some ((s.pins roomId).getD .loading)) }
  | .thread roomId rootId =>
    if (s.threads rootId).any fun t => t.1 = roomId then s
    else { s with threads := Function.update s.threads rootId (some (roomId, .loading)) }
  | _ => s

/-- What is asked for: a room is opened by what is there of it. -/
def asking : Loader → Loader
  | .openRoom roomId _ => .openRoom roomId ((s.timelines roomId).any fun e => e.status = .ready)
  | key => key

/-- A request is sent, unless one is in flight. -/
def start (key : Loader) : ShelfState :=
  if s.inflight.any fun q => q.key.sameKey key then s
  else
    let asked := s.loading (s.asking key)
    { asked with inflight := s.inflight ++ [⟨s.asking key, s.log.length, none⟩] }

/-- What an answer writes. -/
def apply (rooms : Finset Ulid) (k : ℕ) : Loader → ShelfState
  | .loadRooms workspaceId =>
    let ids := rooms.filter fun r => workspaceOf r = workspaceId
    { s with
      known := s.known ∪ ids
      roomLists := Function.update s.roomLists workspaceId (some ids) }
  | .openRoom roomId cached =>
    { s with
      known := insert roomId s.known
      timelines := if cached then s.timelines
        else Function.update s.timelines roomId (some .ready) }
  | .joinedRoom roomId =>
    let listed := s.list workspaceOf roomId
    { listed with
      removedRooms := Function.update s.removedRooms roomId false
      puts := (roomId, k) :: s.puts }
  | .refreshRoom roomId => { s with known := insert roomId s.known }
  | .addRoom roomId =>
    let listed := s.list workspaceOf roomId
    { listed with puts := (roomId, k) :: s.puts }
  | .members roomId => { s with roomMembers := Function.update s.roomMembers roomId (some .ready) }
  | .pins roomId => { s with pins := Function.update s.pins roomId (some .ready) }
  | .thread roomId rootId => { s with
      threads := Function.update s.threads rootId (some (roomId, .ready)) }
  | .jump roomId => { s with
      timelines := Function.update s.timelines roomId ((s.timelines roomId).map fun _ => .ready) }
  | .page roomId =>
    let filled := (s.timelines roomId).map fun e => { e with filled := true }
    { s with timelines := Function.update s.timelines roomId filled }
  | .threadPage _ rootId =>
    let filled := (s.threads rootId).map fun t => (t.1, { t.2 with filled := true })
    { s with threads := Function.update s.threads rootId filled }

/-- What an error writes. -/
def fail (status : LoadStatus) : Loader → ShelfState
  | .loadRooms workspaceId => { s with
      roomLists := Function.update s.roomLists workspaceId (some ((s.roomLists workspaceId).getD ∅)) }
  | .openRoom roomId _ => { s with
      timelines := Function.update s.timelines roomId (Entry.patch status (s.timelines roomId)) }
  | .members roomId => { s with
      roomMembers := Function.update s.roomMembers roomId (Entry.failed status (s.roomMembers roomId)) }
  | .pins roomId => { s with
      pins := Function.update s.pins roomId (Entry.failed status (s.pins roomId)) }
  | .thread _ rootId =>
    let patched := (s.threads rootId).map fun t => (t.1, { t.2 with status := status })
    { s with threads := Function.update s.threads rootId patched }
  | _ => s

/-- The room that has to be readable for an answer. -/
def roomOf : Loader → Option Ulid
  | .loadRooms _ => none
  | .openRoom r _ | .joinedRoom r | .refreshRoom r | .addRoom r | .members r | .pins r | .thread r _
  | .jump r | .page r | .threadPage r _ => some r

/-- A thread is opened in the room of its root. -/
def fits : Loader → Bool
  | .thread roomId rootId | .threadPage roomId rootId => rootRoom rootId = roomId
  | _ => true

/-- One step. -/
def act : ShelfAction → Option ShelfState
  | .happen change => some { s with log := s.log ++ [change] }
  | .deliver j => s.log[j]?.map fun
    | .gained roomId => s.start (.joinedRoom roomId)
    | .lost roomId =>
      let removed := s.removedFromRoom isPublic workspaceOf roomId
      if isPublic roomId then removed else { removed with taken := (roomId, j) :: s.taken }
    | .deleted roomId =>
      let deleted := s.roomDeleted workspaceOf roomId
      { deleted with taken := (roomId, j) :: s.taken }
  | .start key => if fits rootRoom key then some (s.start key) else none
  | .answer i => some { s with inflight := Request.answer i s.log.length s.inflight }
  | .settle i => s.inflight[i]?.bind fun q => q.read.map fun k =>
    let rest := { s with inflight := s.inflight.eraseIdx i }
    let rooms := s.roomsAt isPublic k
    if (roomOf q.key).all fun r => r ∈ rooms then rest.apply workspaceOf rooms k q.key
    else rest.fail .notFound q.key
  | .fail i => s.inflight[i]?.map fun q =>
    let rest := { s with inflight := s.inflight.eraseIdx i }
    rest.fail .error q.key

/-- **The runs** of a store that starts with nothing. -/
def system : TransitionSystem ShelfState ShelfAction where
  init s := s.log = [] ∧ s.inflight = [] ∧ s.known = ∅ ∧ s.roomLists = (fun _ => none) ∧
    s.timelines = (fun _ => none) ∧ s.roomMembers = (fun _ => none) ∧ s.pins = (fun _ => none) ∧
    s.threads = (fun _ => none) ∧ s.removedRooms = (fun _ => false) ∧ s.taken = [] ∧ s.puts = []
  step s a := act isPublic workspaceOf rootRoom s a

/-! ## In turn -/

/-- Whether an answer can show a room. -/
def shows (roomId : Ulid) : Loader → Bool
  | .loadRooms workspaceId => workspaceOf roomId = workspaceId
  | .openRoom r cached => r = roomId ∧ cached = false
  | .refreshRoom _ => false
  | .joinedRoom r | .addRoom r | .members r | .pins r | .thread r _ | .jump r | .page r
  | .threadPage r _ => r = roomId

/-- No answer that was read while the room could be read is on its way. -/
def Clear (roomId : Ulid) : Prop :=
  ∀ q ∈ s.inflight, shows workspaceOf roomId q.key = true → ∀ k ∈ q.read,
    roomId ∉ s.roomsAt isPublic k

instance (roomId : Ulid) : Decidable (s.Clear isPublic workspaceOf roomId) := by
  unfold Clear
  infer_instance

/-- **The condition.** A room is taken away while no answer is on its way that was read before and shows
it, and if the user is taken out of it while its pins are not loaded. A room is put into the list while no
answer of `loadRooms` is on its way that was read before and lacks it. -/
def InTurn : ShelfAction → Prop
  | .deliver j => ∀ change ∈ s.log[j]?, match change with
    | .gained _ => True
    | .lost roomId => isPublic roomId = false →
      s.Clear isPublic workspaceOf roomId ∧ ∀ e ∈ s.pins roomId, e.Empty
    | .deleted roomId => s.Clear isPublic workspaceOf roomId
  | .settle i => ∀ q ∈ s.inflight[i]?, match q.key with
    | .joinedRoom roomId | .addRoom roomId => ∀ k ∈ q.read, ∀ q' ∈ s.inflight.eraseIdx i,
      q'.key = .loadRooms (workspaceOf roomId) → ∀ k' ∈ q'.read,
        k ≤ k' ∨ roomId ∈ s.roomsAt isPublic k'
    | _ => True
  | _ => True

instance (a : ShelfAction) : Decidable (s.InTurn isPublic workspaceOf a) := by
  cases a with
  | deliver j =>
    have : ∀ change : RoomChange, Decidable (match change with
        | .gained _ => True
        | .lost roomId => isPublic roomId = false →
          s.Clear isPublic workspaceOf roomId ∧ ∀ e ∈ s.pins roomId, e.Empty
        | .deleted roomId => s.Clear isPublic workspaceOf roomId) := by
      intro change
      cases change <;> infer_instance
    exact inferInstanceAs (Decidable (∀ change ∈ s.log[j]?, _))
  | settle i =>
    have : ∀ q : Request Loader, Decidable (match q.key with
        | .joinedRoom roomId | .addRoom roomId => ∀ k ∈ q.read, ∀ q' ∈ s.inflight.eraseIdx i,
          q'.key = .loadRooms (workspaceOf roomId) → ∀ k' ∈ q'.read,
            k ≤ k' ∨ roomId ∈ s.roomsAt isPublic k'
        | _ => True) := by
      intro q
      split <;> infer_instance
    exact inferInstanceAs (Decidable (∀ q ∈ s.inflight[i]?, _))
  | _ => exact inferInstanceAs (Decidable True)

end ShelfState

end Hibari
