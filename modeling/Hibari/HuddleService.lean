import Hibari.HuddleMarks
import Hibari.Threads

/-!
# The life of a huddle: joins, removals and ends

Who is in a huddle is in Redis; whether it goes on is in a row of the database. A
join is a transaction that locks the row of the room's huddle, or inserts one, writes
the participation to Redis, and commits. Where it fails after that, the participation
is taken back, when the transaction is over. Whoever takes a participation away –
leaving, sweeping, removing, or joining elsewhere – looks up the huddle and, under
its row's lock, ends it if nobody is in it any more.

A call is a task here, and a step of it is one statement, one script, or the end of a
transaction; a lock is held by the task that is at a place where its transaction
holds it. Calls to the media server, events and the rows that nobody else reads – who
was ever in a huddle, the huddle's message – are left out. What the surroundings
decide is the number that comes with a step: a new huddle's number, and which huddle
is looked at next.
-/

namespace Hibari

/-- A huddle in the database: its room, and whether it is over. -/
structure HuddleRow where
  room : Ulid
  ended : Bool
  deriving DecidableEq

/-- A request to join the huddle of a room. -/
structure HuddleJoin where
  room : Ulid
  user : Ulid
  participant : Ulid
  now : ℕ
  status : HuddleStatus
  deriving DecidableEq

/-- How many participations a huddle may have. -/
def huddleParticipantLimit : ℕ := 20

/-- How long a heartbeat is good for, in milliseconds. -/
def huddleHeartbeatTtl : ℕ := 30000

/-- How many participations one sweep removes. -/
def huddleSweepBatch : ℕ := 100

namespace HuddleJoin

/-- The participation that a request writes. -/
def participation (j : HuddleJoin) (huddle : Ulid) : Participation :=
  ⟨j.participant, huddle, j.user, "", "", false, j.now⟩

end HuddleJoin

/-- **Where a call is.** -/
inductive HuddleTask
  /-- `JoinHuddle`: about to look for the room's huddle. -/
  | joinFind (join : HuddleJoin) (again : Bool)
  /-- Waiting for the row of the huddle that was found. -/
  | joinWait (join : HuddleJoin) (again : Bool) (huddle : Ulid)
  /-- No huddle goes on: about to insert one. -/
  | joinStart (join : HuddleJoin) (again : Bool)
  /-- The row is locked, or inserted: about to write to Redis. -/
  | joinLocked (join : HuddleJoin) (huddle : Ulid) (created : Bool)
  /-- The participation is written: about to commit. -/
  | joinJoined (join : HuddleJoin) (huddle : Ulid) (created : Bool) (evicted : Option Ulid)
  /-- The transaction failed: about to take the participation back. -/
  | undo (huddle participant : Ulid) (evicted : Option Ulid)
  /-- `afterHuddleRemoval`: looking up the huddles of what was removed. -/
  | lookups (removed rooms : List Ulid)
  /-- About to look at the huddles that were found. -/
  | checking (rooms : List Ulid)
  /-- `endHuddleIfEmpty`: about to lock the row. -/
  | endLock (huddle : Ulid) (rooms : List Ulid)
  /-- The row is locked: about to read who is in the huddle. -/
  | endRead (huddle : Ulid) (rooms : List Ulid)
  /-- Nobody is: about to end it. -/
  | ending (huddle : Ulid) (rooms : List Ulid)
  /-- It is over: about to clear Redis. -/
  | clearing (huddle : Ulid) (rooms : List Ulid)
  /-- `LeaveHuddle`: about to read the participation. -/
  | leaveRead (user huddle participant : Ulid)
  /-- About to remove it. -/
  | removing (huddle participant : Ulid)
  /-- `removeFromHuddle`: about to read where the user is, for the rooms that are affected. -/
  | currentRead (user : Ulid) (affected : List Ulid)
  /-- About to look up the huddle. -/
  | currentLookup (huddle participant : Ulid) (affected : List Ulid)
  /-- One round of `SweepHuddles`. -/
  | sweep (now : ℕ)
  | done
  deriving DecidableEq

namespace HuddleTask

/-- The row that the transaction of a call holds. -/
def holds : HuddleTask → Option Ulid
  | joinLocked _ huddle _ | joinJoined _ huddle _ _ | endRead huddle _ | ending huddle _ =>
    some huddle
  | _ => none

/-- The row that the transaction of a call has inserted: the huddle, and its room. -/
def creates : HuddleTask → Option (Ulid × Ulid)
  | joinLocked join huddle true | joinJoined join huddle true _ => some (huddle, join.room)
  | _ => none

/-- The huddle in which a join has to take back its participation. -/
def undoes : HuddleTask → Option Ulid
  | undo huddle _ _ => some huddle
  | _ => none

/-- The call will still look at a huddle, and end it if nobody is in it. -/
def due (h : Ulid) : HuddleTask → Prop
  | joinJoined _ _ _ evicted | undo _ _ evicted => evicted = some h
  | lookups removed rooms => h ∈ removed ∨ h ∈ rooms
  | checking rooms | clearing _ rooms => h ∈ rooms
  | endLock huddle rooms | endRead huddle rooms | ending huddle rooms => h = huddle ∨ h ∈ rooms
  | _ => False

instance (h : Ulid) (t : HuddleTask) : Decidable (t.due h) := by
  unfold due
  split <;> infer_instance

end HuddleTask

/-- **Redis, the database and the calls.** -/
structure HuddleService where
  store : HuddleRedis
  rows : AList (fun _ : Ulid => HuddleRow)
  tasks : List HuddleTask

/-- What happens: a call begins, goes on, or its transaction fails. -/
inductive HuddleServiceAction
  | start (t : HuddleTask)
  | step (i : ℕ) (choice : Ulid)
  | fail (i : ℕ)

namespace HuddleService

open HuddleTask

variable (s : HuddleService)

/-- No transaction holds a row. -/
def Free (h : Ulid) : Prop := ∀ t ∈ s.tasks, t.holds ≠ some h

instance (h : Ulid) : Decidable (s.Free h) := by
  unfold Free
  infer_instance

/-- The huddle of a room that goes on, as a statement sees it. -/
def activeIn (room : Ulid) : Option Ulid :=
  (s.rows.entries.find? (fun e => decide (e.2.room = room) && !e.2.ended)).map (fun e => e.1)

/-- No row was ever inserted under a number, and no call uses it. -/
def Unused (h : Ulid) : Prop :=
  h ∉ s.rows ∧ ∀ t ∈ s.tasks, t.holds ≠ some h ∧ t.undoes ≠ some h

instance (h : Ulid) : Decidable (s.Unused h) := by
  unfold Unused
  infer_instance

/-- No transaction has inserted a huddle into a room that is not committed yet. -/
def NoneStarting (room : Ulid) : Prop := ∀ t ∈ s.tasks, ∀ e ∈ t.creates, e.2 ≠ room

instance (room : Ulid) : Decidable (s.NoneStarting room) := by
  unfold NoneStarting
  infer_instance

/-- **One step of a call**: what it does to Redis and the rows, and where it goes. -/
def next (choice : Ulid) :
    HuddleTask → Option ((HuddleRedis × AList (fun _ : Ulid => HuddleRow)) × HuddleTask)
  | joinFind join again =>
    match s.activeIn join.room with
    | some huddle => some ((s.store, s.rows), joinWait join again huddle)
    | none => some ((s.store, s.rows), joinStart join again)
  | joinWait join again huddle =>
    if s.Free huddle then
      match s.rows.lookup huddle with
      | some ⟨_, false⟩ => some ((s.store, s.rows), joinLocked join huddle false)
      | _ => some ((s.store, s.rows), joinStart join again)
    else none
  | joinStart join again =>
    -- the unique index makes a second insert wait for the first, and fail if that commits
    if s.NoneStarting join.room then
      match s.activeIn join.room with
      | some _ => some ((s.store, s.rows), if again then done else joinFind join true)
      | none =>
        if s.Unused choice then some ((s.store, s.rows), joinLocked join choice true) else none
    else none
  | joinLocked join huddle created =>
    let joined := s.store.join (join.participation huddle) (join.now + huddleHeartbeatTtl)
      huddleParticipantLimit join.status
    match joined.2 with
    | none => some ((s.store, s.rows), done)
    | some result =>
      some ((joined.1, s.rows),
        joinJoined join huddle created (result.evicted.map Participation.huddleId))
  | joinJoined join huddle created evicted =>
    some ((s.store, if created then s.rows.insert huddle ⟨join.room, false⟩ else s.rows),
      lookups evicted.toList [])
  | undo huddle participant evicted =>
    some (((s.store.removeScript huddle participant).1, s.rows), lookups evicted.toList [])
  | lookups [] rooms => some ((s.store, s.rows), checking rooms)
  | lookups (huddle :: removed) rooms =>
    if huddle ∈ rooms ∨ huddle ∉ s.rows then some ((s.store, s.rows), lookups removed rooms)
    else some ((s.store, s.rows), lookups removed (rooms ++ [huddle]))
  | checking rooms =>
    if rooms = [] then some ((s.store, s.rows), done)
    else if choice ∈ rooms then some ((s.store, s.rows), endLock choice (rooms.erase choice))
    else none
  | endLock huddle rooms =>
    if s.Free huddle then
      match s.rows.lookup huddle with
      | some ⟨_, false⟩ => some ((s.store, s.rows), endRead huddle rooms)
      | _ => some ((s.store, s.rows), checking rooms)
    else none
  | endRead huddle rooms =>
    if s.store.count huddle = 0 then some ((s.store, s.rows), ending huddle rooms)
    else some ((s.store, s.rows), checking rooms)
  | ending huddle rooms =>
    match s.rows.lookup huddle with
    | some row =>
      some ((s.store, s.rows.insert huddle { row with ended := true }), clearing huddle rooms)
    | none => none
  | clearing huddle rooms => some (((s.store.clear huddle).1, s.rows), checking rooms)
  | leaveRead user huddle participant =>
    match (s.store.members huddle).lookup participant with
    | some p =>
      some ((s.store, s.rows), if p.userId = user then removing huddle participant else done)
    | none => some ((s.store, s.rows), done)
  | removing huddle participant =>
    let removed := s.store.removeScript huddle participant
    match removed.2.1 with
    | some p => some ((removed.1, s.rows), lookups [p.huddleId] [])
    | none => some ((removed.1, s.rows), done)
  | currentRead user affected =>
    match s.store.userKeys user with
    | some (huddle, participant) =>
      some ((s.store, s.rows), currentLookup huddle participant affected)
    | none => some ((s.store, s.rows), done)
  | currentLookup huddle participant affected =>
    match s.rows.lookup huddle with
    | some row =>
      some ((s.store, s.rows), if row.room ∈ affected then removing huddle participant else done)
    | none => some ((s.store, s.rows), done)
  | sweep now =>
    let swept := s.store.sweep now huddleSweepBatch
    some ((swept.1, s.rows), lookups (swept.2.map (fun e => e.1.huddleId)) [])
  | done => none

/-- Where a join goes whose transaction fails: what it has locked and inserted is given
back, and what it has written to Redis is still to be taken back. -/
def failed : HuddleTask → Option HuddleTask
  | joinFind _ _ | joinWait _ _ _ | joinStart _ _ | joinLocked _ _ _ => some done
  | joinJoined join huddle _ evicted => some (undo huddle join.participant evicted)
  | _ => none

/-- The calls as they begin. -/
def Begins : HuddleTask → Prop
  | joinFind _ again => again = false
  | leaveRead _ _ _ | currentRead _ _ | sweep _ => True
  | _ => False

instance (t : HuddleTask) : Decidable (Begins t) := by
  unfold Begins
  split <;> infer_instance

/-- One step. -/
def act : HuddleServiceAction → Option HuddleService
  | .start t => if Begins t then some { s with tasks := s.tasks ++ [t] } else none
  | .step i choice =>
    match s.tasks[i]? with
    | none => none
    | some t =>
      match s.next choice t with
      | none => none
      | some ((store, rows), t') =>
        some { store := store, rows := rows, tasks := s.tasks.set i t' }
  | .fail i =>
    match s.tasks[i]? with
    | none => none
    | some t =>
      match failed t with
      | none => none
      | some t' => some { s with tasks := s.tasks.set i t' }

/-- Nobody in a huddle, and no call. -/
def new : HuddleService := ⟨.empty, ∅, []⟩

/-- **Calls of the huddle service at once.** -/
def system : TransitionSystem HuddleService HuddleServiceAction where
  init s := s = new
  step := act

/-- No call is in progress. -/
def AtRest : Prop := ∀ t ∈ s.tasks, t = done

instance : Decidable s.AtRest := by
  unfold AtRest
  infer_instance

end HuddleService

end Hibari
