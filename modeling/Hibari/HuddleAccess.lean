import Hibari.HeldRows
import Hibari.HuddleRest

/-!
# Who may be in a huddle

Whether somebody may be in a huddle is in the database: the huddle is of a room, and who is in
it has to be a member of that room. A membership goes when the user leaves the room or is
removed from it, when the user leaves the workspace or is removed from it, and when the room is
deleted. A join holds the row of its membership until its transaction is over, so that a
transaction that deletes it waits. What the deletion leaves in Redis is taken away when its
transaction is over, and by then it holds nothing.

The calls of the huddle service go on here as they do there (`HuddleService.next`), under the
rows that the deletions hold too. A transaction is a few steps: each waits for a row that it
goes on to hold, and the last one commits. Whatever makes a transaction fail – a check that
refuses the request, a deadlock, a statement – is one action.
-/

namespace Hibari

/-- The rows that joins and deletions hold. -/
inductive AccessRow
  | roomMember (room user : Ulid)
  | workspaceMember (workspace user : Ulid)
  | huddle (id : Ulid)
  | room (id : Ulid)
  deriving DecidableEq

/-- The room of which a row is a membership. -/
def AccessRow.memberOf : AccessRow → Option Ulid
  | roomMember id _ => some id
  | _ => none

/-- **Where a call is.** -/
inductive AccessTask
  /-- `JoinHuddle`: about to lock the membership. -/
  | joinMember (join : HuddleJoin) (again : Bool)
  /-- In the huddle service, or over. -/
  | call (t : HuddleTask)
  /-- `RemoveRoomMember`: about to delete the membership. -/
  | removeRoomMember (room user : Ulid)
  /-- `RemoveMember`: about to lock the membership of the workspace. -/
  | removeMember (workspace user : Ulid)
  /-- It is locked: about to delete the memberships of the rooms. -/
  | removeMemberships (workspace user : Ulid)
  /-- `DeleteRoom`: about to lock the room. -/
  | deleteRoom (room : Ulid)
  /-- The room is locked: about to lock the huddle that goes on. -/
  | deleteHuddle (room : Ulid)
  /-- The huddle is locked, if there is one: about to delete the room. -/
  | deleteRows (room : Ulid) (active : Option Ulid)
  /-- The room is deleted: about to clear the huddle. -/
  | clearRoom (huddle : Ulid)
  deriving DecidableEq

/-- What the transactions of the huddle service hold. A huddle that was inserted took its
number from the row of the room. -/
def HuddleTask.heldRows : HuddleTask → List AccessRow
  | joinFind join _ | joinWait join _ _ | joinStart join _ => [.roomMember join.room join.user]
  | joinLocked join huddle created | joinJoined join huddle created _ =>
    .roomMember join.room join.user :: .huddle huddle :: if created then [.room join.room] else []
  | endRead huddle _ | ending huddle _ => [.huddle huddle]
  | _ => []

namespace AccessTask

/-- What the transaction of a call holds. -/
def holds : AccessTask → List AccessRow
  | call t => t.heldRows
  | removeMemberships workspace user => [.workspaceMember workspace user]
  | deleteHuddle room => [.room room]
  | deleteRows room active => .room room :: active.toList.map .huddle
  | _ => []

/-- A call in the huddle service. -/
def call? : AccessTask → Option HuddleTask
  | call t => some t
  | _ => none

/-- The number that a join will write to Redis. -/
def fresh : AccessTask → List Ulid
  | joinMember join _ | call (.joinFind join _) | call (.joinWait join _ _)
  | call (.joinStart join _) | call (.joinLocked join _ _) => [join.participant]
  | _ => []

/-- Where a call of the huddle service goes on. A join that was overtaken by another one that
starts a huddle begins its transaction again. -/
def place : HuddleTask → AccessTask
  | .joinFind join true => joinMember join true
  | t => call t

/-- Where a deletion goes on that has committed: the huddle that went on is cleared. -/
def afterDeletion : Option Ulid → AccessTask
  | some huddle => clearRoom huddle
  | none => call .done

end AccessTask

/-- **Redis, the database and the calls.** Numbers of participations are issued once. -/
structure HuddleAccess where
  store : HuddleRedis
  rows : AList (fun _ : Ulid => HuddleRow)
  /-- The rooms, and their workspaces. -/
  rooms : AList (fun _ : Ulid => Ulid)
  /-- Who is a member of which room. -/
  members : Finset (Ulid × Ulid)
  issued : List Ulid
  tasks : List AccessTask

/-- What happens: a call begins, goes on, or its transaction fails; and somebody becomes a member
of a room. -/
inductive HuddleAccessAction
  | start (t : AccessTask)
  | step (i : ℕ) (choice : Ulid)
  | fail (i : ℕ)
  | addRoomMember (room user : Ulid)

namespace HuddleAccess

open AccessTask

variable (s : HuddleAccess)

/-- No transaction holds a row. -/
abbrev Free (r : AccessRow) : Prop := HeldRows.Free holds s.tasks r

/-- What the huddle service sees. -/
def service : HuddleService := ⟨s.store, s.rows, s.tasks.filterMap call?⟩

/-- The rooms of a workspace. -/
def roomsOf (workspace : Ulid) : List Ulid :=
  (s.rooms.entries.filter fun e => e.2 = workspace).map Sigma.fst

/-- The huddles of a room. -/
def huddlesOf (room : Ulid) : List Ulid :=
  (s.rows.entries.filter fun e => e.2.room = room).map Sigma.fst

/-- The rows of huddles without those of a room. -/
def rowsWithout (room : Ulid) : AList (fun _ : Ulid => HuddleRow) :=
  (s.huddlesOf room).foldl (fun rows huddle => rows.erase huddle) s.rows

/-- The rows that the next statement of a call in the huddle service asks for, or inserts. -/
def asks (choice : Ulid) : HuddleTask → List AccessRow
  | .joinWait _ _ huddle | .endLock huddle _ => [.huddle huddle]
  | .joinStart join _ => [.room join.room, .huddle choice]
  | .ending huddle _ => ((s.rows.lookup huddle).map fun row => .room row.room).toList
  | _ => []

/-- Nobody holds a membership of a room, or a huddle of it apart from the one that its deletion
holds. -/
def Deletable (room : Ulid) (active : Option Ulid) : Prop :=
  ∀ t ∈ s.tasks, ∀ r ∈ t.holds,
    r.memberOf ≠ some room ∧ ∀ huddle ∈ s.huddlesOf room, r = .huddle huddle → active = some huddle

instance (room : Ulid) (active : Option Ulid) : Decidable (s.Deletable room active) := by
  unfold Deletable
  infer_instance

/-- **One step of a call**: what it does to Redis and the database, and where it goes. -/
def next (choice : Ulid) : AccessTask → Option (HuddleAccess × AccessTask)
  | joinMember join again =>
    if s.Free (.roomMember join.room join.user) then
      some (s, call (if (join.room, join.user) ∈ s.members then .joinFind join again else .done))
    else none
  | call t =>
    if ∀ r ∈ s.asks choice t, s.Free r then
      (s.service.next choice t).map fun out =>
        ({ s with store := out.1.1, rows := out.1.2 }, place out.2)
    else none
  | removeRoomMember room user =>
    -- the log line that says so takes its number from the room
    if room ∈ s.rooms ∧ s.Free (.roomMember room user) ∧ s.Free (.room room) then
      some ({ s with members := s.members.erase (room, user) }, call (.currentRead user [room]))
    else none
  | removeMember workspace user =>
    if s.Free (.workspaceMember workspace user) then some (s, removeMemberships workspace user)
    else none
  | removeMemberships workspace user =>
    if ∀ room ∈ s.roomsOf workspace, s.Free (.roomMember room user) then
      some ({ s with
          members := s.members.filter fun m => ¬ (m.2 = user ∧ m.1 ∈ s.roomsOf workspace) },
        call (.currentRead user (s.roomsOf workspace)))
    else none
  | deleteRoom room =>
    if room ∈ s.rooms ∧ s.Free (.room room) then some (s, deleteHuddle room) else none
  | deleteHuddle room =>
    match s.service.activeIn room with
    | some huddle => if s.Free (.huddle huddle) then some
      (s, deleteRows room (some huddle)) else none
    | none => some (s, deleteRows room none)
  | deleteRows room active =>
    if s.Deletable room active then
      some ({ s with
          rooms := s.rooms.erase room
          members := s.members.filter fun m => m.1 ≠ room
          rows := s.rowsWithout room },
        afterDeletion active)
    else none
  | clearRoom huddle => some ({ s with store := (s.store.clear huddle).1 }, call .done)

/-- Where a call goes whose transaction fails. What the transaction held is given back. -/
def failed : AccessTask → Option AccessTask
  | call (.endLock _ rooms) | call (.endRead _ rooms) | call (.ending _ rooms) =>
    some (call (.checking rooms))
  | call t => (HuddleService.failed t).map call
  | clearRoom _ => none
  | _ => some (call .done)

/-- The calls as they begin. -/
def Begins : AccessTask → Prop
  | joinMember join again => again = false ∧ join.participant ∉ s.issued
  | removeRoomMember _ _ | removeMember _ _ | deleteRoom _ => True
  | call (.leaveRead _ _ _) | call (.currentRead _ _) | call (.sweep _) => True
  | _ => False

instance (t : AccessTask) : Decidable (s.Begins t) := by
  unfold Begins
  split <;> infer_instance

/-- A room to which a user may be added. Whoever adds a user shares its membership of the
workspace, and the room. -/
def Addable (room user : Ulid) : Prop :=
  room ∈ s.rooms ∧ s.Free (.room room) ∧
    ∀ workspace ∈ s.rooms.lookup room, s.Free (.workspaceMember workspace user)

instance (room user : Ulid) : Decidable (s.Addable room user) := by
  unfold Addable
  infer_instance

/-- One step. -/
def act : HuddleAccessAction → Option HuddleAccess
  | .start t =>
    if s.Begins t then some { s with tasks := s.tasks ++ [t], issued := t.fresh ++ s.issued }
    else none
  | .step i choice =>
    match s.tasks[i]? with
    | none => none
    | some t => (s.next choice t).map fun out => { out.1 with tasks := s.tasks.set i out.2 }
  | .fail i =>
    match s.tasks[i]? with
    | none => none
    | some t => (failed t).map fun t' => { s with tasks := s.tasks.set i t' }
  | .addRoomMember room user =>
    if s.Addable room user then some { s with members := insert (room, user) s.members } else none

/-- **Joins and losses of access at once**, from any rooms and memberships. -/
def system : TransitionSystem HuddleAccess HuddleAccessAction where
  init s := s.store = .empty ∧ s.rows = ∅ ∧ s.issued = [] ∧ s.tasks = [] ∧
    ∀ m ∈ s.members, m.1 ∈ s.rooms
  step := act

/-- No call is in progress. -/
def AtRest : Prop := ∀ t ∈ s.tasks, t = call .done

instance : Decidable s.AtRest := by
  unfold AtRest
  infer_instance

end HuddleAccess

end Hibari
