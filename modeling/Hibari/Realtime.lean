import Hibari.Connection
import Hibari.Timeline

/-!
# Subscribing and catching up on a connection

On the connection sits the client that subscribes to what is shown – the
workspace, its rooms, the room of a call – and reads again what may have
changed before each subscription (`realtime/subscriptions.ts`). Subscriptions
are made in batches: whatever is shown and not yet subscribed to when the
store has changed. Only when every target of a batch is answered is it decided
what to read again, and only when no batch is left is the reconnection
declared done.

What happened is kept in a log, each moment with what the store looked like.
The promise is about the log: between the answer to a room's subscription and
the end of the reconnection the room was synced (`Synced`). It is kept by
every step but one. A target that turns out to be gone makes the whole batch
skip the reading, for the rooms that were answered too; they are subscribed
from then on, so no later batch reads them either. `synced_of_reachableBy`
says that nothing else breaks the promise, and `skipped_beside_gone` that
this does.
-/

namespace Hibari

open List Connection TransitionSystem

/-- What can be subscribed to. -/
inductive Target
  | workspace (id : Ulid)
  | room (id : Ulid)
  deriving DecidableEq

/-- The rooms of a workspace's sidebar. -/
structure RoomList where
  status : LoadStatus
  ids : List Ulid
  deriving DecidableEq

/-- What the client reads of the store. A room is given by its workspace, a
timeline by its status; of the members, the notification level and the
activity of a workspace only matters whether they are loaded. -/
structure ChatView where
  activeWorkspaceId : Option Ulid
  removedWorkspaces : Ulid → Bool
  roomLists : Ulid → Option RoomList
  removedRooms : Ulid → Bool
  huddleCallRoomId : Option Ulid
  rooms : Ulid → Option Ulid
  timelines : Ulid → Option LoadStatus
  members : Ulid → Bool
  savedCursor : Ulid → Option ℕ
  notificationLevels : Ulid → Bool
  activity : Ulid → Bool
  focus : Option Ulid
  roomMembers : Ulid → Bool
  threadFocus : Option (Ulid × Ulid)

/-- The workspace that is shown and the rooms of its sidebar, less what the
user was removed from, and the room of the call. -/
def desiredTargets (state : ChatView) : List Target :=
  let shown :=
    match state.activeWorkspaceId with
    | none => []
    | some workspaceId =>
      if state.removedWorkspaces workspaceId then []
      else
        let rooms :=
          match state.roomLists workspaceId with
          | none => []
          | some list => if list.status = LoadStatus.ready then list.ids else []
        .workspace workspaceId :: (rooms.filter (fun id => !state.removedRooms id)).map .room
  match state.huddleCallRoomId with
  | none => shown
  | some call =>
    if state.removedRooms call ∨ .room call ∈ shown then shown else shown ++ [.room call]

/-- The workspaces of some targets. -/
def workspacesOf (state : ChatView) (targets : List Target) : List Ulid :=
  (targets.flatMap fun
    | .workspace id => [id]
    | .room id => (state.rooms id).toList).eraseDups

/-- What is read again from the server. -/
inductive Task
  | reloadRooms (workspaceId : Ulid)
  | reloadThreads (workspaceId : Ulid)
  | loadMembers (workspaceId : Ulid)
  | syncSaved (workspaceId : Ulid)
  | loadNotificationLevel (workspaceId : Ulid)
  | reloadActivity (workspaceId : Ulid)
  | syncTimeline (roomId : Ulid)
  | loadRoomMembers (roomId : Ulid)
  | reloadThread (roomId rootId : Ulid)
  deriving DecidableEq

/-- A task, where it applies. -/
def taskIf (applies : Bool) (task : Task) : List Task := if applies then [task] else []

/-- What is read again for a room that was subscribed to. -/
def syncRoom (state : ChatView) (id : Ulid) : List Task :=
  taskIf (decide (state.timelines id = some .ready)) (.syncTimeline id) ++
    taskIf (decide (state.focus = some id) && state.roomMembers id) (.loadRoomMembers id) ++
    (state.threadFocus.toList.filter (fun focus => decide (focus.1 = id))).map
      (fun focus => .reloadThread id focus.2)

/-- What is read again in a workspace for the targets that were subscribed
to. -/
def syncAfterSubscribe (state : ChatView) (targets : List Target) (workspaceId : Ulid) :
    List Task :=
  [.reloadRooms workspaceId, .reloadThreads workspaceId] ++
    taskIf (state.members workspaceId) (.loadMembers workspaceId) ++
    taskIf (state.savedCursor workspaceId).isSome (.syncSaved workspaceId) ++
    taskIf (state.notificationLevels workspaceId) (.loadNotificationLevel workspaceId) ++
    taskIf (state.activity workspaceId) (.reloadActivity workspaceId) ++
    targets.flatMap fun
      | .workspace _ => []
      | .room id => if state.rooms id = some workspaceId then syncRoom state id else []

/-- How a request for a subscription ended: with the server's answer, or with
the connection. -/
inductive Reply
  | ack (error : Option AckError)
  | closed
  deriving DecidableEq

/-- What that means for the target. -/
inductive SubscribeResult
  | ok
  | notFound
  | failed
  deriving DecidableEq

/-- The result of a reply. -/
def Reply.result : Reply → SubscribeResult
  | .ack none => .ok
  | .ack (some .notFound) => .notFound
  | .ack (some _) => .failed
  | .closed => .failed

/-- A batch waits for the answers to its requests, and then for what it read
again. -/
inductive BatchPhase
  | subscribing
  | syncing
  deriving DecidableEq

/-- Targets that are subscribed to together, what the store looked like when
the batch was made, and the connection it belongs to. -/
structure Batch where
  generation : ℕ
  state : ChatView
  requests : List (Target × Option SubscribeResult)
  phase : BatchPhase

/-- The targets of a batch. -/
def Batch.added (b : Batch) : List Target := b.requests.map Prod.fst

/-- The targets of a batch that were subscribed to. -/
def Batch.ok (b : Batch) : List Target :=
  (b.requests.filter (fun r => decide (r.2 = some .ok))).map Prod.fst

/-- Whether all requests of a batch ended. -/
def Batch.answered (b : Batch) : Bool := b.requests.all (fun r => r.2.isSome)

/-- Whether a target of a batch turned out to be gone. -/
def Batch.gone (b : Batch) : Bool := b.requests.any (fun r => decide (r.2 = some .notFound))

/-- What a batch whose requests ended reads again, given what the store looks
like by now. -/
def Batch.tasks (b : Batch) (now : ChatView) : List Task :=
  if b.gone then (workspacesOf b.state b.added).map .reloadRooms
  else if b.ok ≠ [] then (workspacesOf b.state b.ok).flatMap (syncAfterSubscribe now b.ok)
  else []

/-- What is worth remembering. -/
inductive Happening
  | connection (status : ConnectionStatus)
  | changed
  | subscribe (target : Target)
  | unsubscribe (target : Target)
  | answered (target : Target) (reply : Reply)
  | started (task : Task)
  | restored
  deriving DecidableEq

/-- Whether the connection was opened or lost. -/
def Happening.isConnection : Happening → Bool
  | .connection _ => true
  | _ => false

/-- Something that happened, and what the store looked like then. -/
structure Moment where
  view : ChatView
  what : Happening

/-- What the banner says about the connection. -/
inductive Banner
  | reconnecting
  | syncing
  | restored
  deriving DecidableEq

/-- The banner, and since when the server cannot be reached, after how many
attempts. -/
structure ConnectionView where
  banner : Option Banner
  unavailable : Option (ℕ × ℕ)
  deriving DecidableEq

/-- This many attempts that do not reach the server make it unavailable. -/
def unavailableAfterAttempts : ℕ := 3

/-- The variables of the client, what the store looks like, the batches in
flight, and what happened, the last first. The set of subscriptions is made
anew with each connection that is lost; `generation` tells one from
another. -/
structure Realtime where
  view : ChatView
  connection : ConnectionState
  subscribed : List Target
  subscribing : List Target
  failed : List Target
  generation : ℕ
  batches : ℕ
  everOpened : Bool
  syncingAfterReconnect : Bool
  reconcileScheduled : Bool
  listening : Bool
  restoredTimer : Bool
  banner : ConnectionView
  inFlight : List Batch
  log : List Moment

namespace Realtime

/-- Remember what happened, in order. -/
def record (whats : List Happening) (s : Realtime) : Realtime :=
  { s with log := (whats.map (Moment.mk s.view)).reverse ++ s.log }

/-- The reconnection is done, if it was one and no batch is left. -/
def finishReconnectSync (s : Realtime) : Realtime :=
  if !s.syncingAfterReconnect ∨ 0 < s.batches then s
  else record [.restored] { s with
      syncingAfterReconnect := false
      banner := ⟨some .restored, none⟩
      restoredTimer := true }

/-- Leave what is not shown any more. -/
def unsubscribe (desired : List Target) (s : Realtime) : Realtime :=
  record ((s.subscribed.filter (fun t => decide (t ∉ desired))).map .unsubscribe)
    { s with subscribed := s.subscribed.filter (fun t => decide (t ∈ desired)) }

/-- What is to be subscribed to. -/
def missing (desired : List Target) (s : Realtime) : List Target :=
  desired.filter (fun t => decide (t ∉ s.subscribed ∧ t ∉ s.subscribing ∧ t ∉ s.failed))

/-- Subscribe to some targets. -/
def startBatch (added : List Target) (s : Realtime) : Realtime :=
  record (added.map .subscribe) { s with
      batches := s.batches + 1
      subscribing := s.subscribing ∪ added
      inFlight := s.inFlight ++
        [⟨s.generation, s.view, added.map (fun t => (t, none)), .subscribing⟩] }

/-- Subscribe to what is missing – or, if nothing is, see whether all is
done. -/
def subscribeMissing (added : List Target) (s : Realtime) : Realtime :=
  if added = [] then s.finishReconnectSync else s.startBatch added

/-- Compare what is shown with what is subscribed to. -/
def reconcile (s : Realtime) : Realtime :=
  if s.connection.status ≠ .open_ then s
  else
    let desired := desiredTargets s.view
    let left := s.unsubscribe desired
    left.subscribeMissing (left.missing desired)

/-- The connection changed, and is not open. -/
def handleConnectionState (next : ConnectionState) (s : Realtime) : Realtime :=
  let unavailable :=
    match next.lastOpenedAt with
    | none => none
    | some at_ =>
      if unavailableAfterAttempts ≤ next.unreachableAttempts then
        some (at_, next.unreachableAttempts)
      else none
  record [.connection next.status] { s with
      connection := next
      restoredTimer := false
      syncingAfterReconnect := false
      subscribed := []
      subscribing := []
      failed := []
      generation := s.generation + 1
      batches := 0
      banner :=
        if next.status = .reconnecting then ⟨some .reconnecting, unavailable⟩ else ⟨none, none⟩ }

/-- The connection was opened. -/
def handleOpen (next : ConnectionState) (s : Realtime) : Realtime :=
  reconcile (record [.connection .open_] { s with
      connection := next
      restoredTimer := false
      syncingAfterReconnect := s.everOpened
      everOpened := true
      banner := ⟨if s.everOpened then some .syncing else none, none⟩ })

/-- A request for a subscription ended. -/
def subscribeEnded (target : Target) (reply : Reply) (s : Realtime) : Realtime :=
  record [.answered target reply] { s with
      subscribing := s.subscribing.filter (fun t => decide (t ≠ target))
      subscribed := if reply.result = .ok then s.subscribed ∪ [target] else s.subscribed
      failed :=
        match reply with
        | .ack (some _) => s.failed ∪ [target]
        | _ => s.failed }

/-- All requests of a batch ended: read again what it subscribed to. -/
def batchAnswered (i : ℕ) (b : Batch) (s : Realtime) : Realtime :=
  if b.generation ≠ s.generation then { s with inFlight := s.inFlight.eraseIdx i }
  else record ((b.tasks s.view).map .started)
    { s with inFlight := s.inFlight.set i { b with phase := .syncing } }

/-- What a batch read again is there. -/
def batchSynced (i : ℕ) (b : Batch) (s : Realtime) : Realtime :=
  if b.generation ≠ s.generation then { s with inFlight := s.inFlight.eraseIdx i }
  else
    { s with
      inFlight := s.inFlight.eraseIdx i
      batches := s.batches - 1
      reconcileScheduled := true }

end Realtime

/-- What can happen next. -/
inductive RealtimeAction
  | start
  | stop
  | connectionChanged (next : ConnectionState)
  | opened (next : ConnectionState)
  | storeChanged (view : ChatView)
  | reconcile
  | answered (batch index : ℕ) (reply : Reply)
  | batchAnswered (batch : ℕ)
  | batchSynced (batch : ℕ)
  | restoredTimeout

namespace Realtime

/-- One step. A connection opens when there is none; a request is answered
only while its connection is there; and a batch goes on when all its requests
ended. -/
def step (s : Realtime) : RealtimeAction → Option Realtime
  | .start => some { s with listening := true }
  | .stop => some { s with listening := false, restoredTimer := false }
  | .connectionChanged next =>
    if next.status ≠ .open_ then some (s.handleConnectionState next) else none
  | .opened next =>
    if next.status = .open_ ∧ s.connection.status ≠ .open_ then some (s.handleOpen next) else none
  | .storeChanged view =>
    some (record [.changed]
      { s with view := view, reconcileScheduled := s.reconcileScheduled || s.listening })
  | .reconcile =>
    if s.reconcileScheduled then some (reconcile { s with reconcileScheduled := false }) else none
  | .answered i j reply =>
    match s.inFlight[i]? with
    | none => none
    | some b =>
      match b.requests[j]? with
      | some (target, none) =>
        if b.phase = .subscribing ∧ (b.generation = s.generation ∨ reply = .closed) then
          let requests := b.requests.set j (target, some reply.result)
          some (subscribeEnded target reply
            { s with inFlight := s.inFlight.set i { b with requests := requests } })
        else none
      | _ => none
  | .batchAnswered i =>
    match s.inFlight[i]? with
    | none => none
    | some b => if b.phase = .subscribing ∧ b.answered then some (s.batchAnswered i b) else none
  | .batchSynced i =>
    match s.inFlight[i]? with
    | none => none
    | some b => if b.phase = .syncing then some (s.batchSynced i b) else none
  | .restoredTimeout =>
    if s.restoredTimer then some { s with restoredTimer := false, banner := ⟨none, none⟩ } else none

/-- A client that was just made, whatever the store looks like. -/
def Fresh (s : Realtime) : Prop :=
  s.connection = ⟨.closed, none, 0⟩ ∧ s.subscribed = [] ∧ s.subscribing = [] ∧ s.failed = [] ∧
    s.batches = 0 ∧ s.everOpened = false ∧ s.syncingAfterReconnect = false ∧
    s.reconcileScheduled = false ∧ s.listening = false ∧ s.restoredTimer = false ∧
    s.banner = ⟨none, none⟩ ∧ s.inFlight = [] ∧ s.log = [⟨s.view, .changed⟩]

/-- The client as a transition system. -/
def system : TransitionSystem Realtime RealtimeAction where
  init := Fresh
  step := step

end Realtime

/-! ## What a subscription is owed -/

/-- The room's messages are loaded, and the room belongs to the workspace. -/
def Ready (state : ChatView) (room workspaceId : Ulid) : Prop :=
  state.timelines room = some .ready ∧ state.rooms room = some workspaceId

/-- **A room was synced** in some moments: its timeline was, and so were the
rooms and threads of its workspace, and the saved items, if there was a cursor
to do so. -/
structure SyncedIn (moments : List Moment) (room workspaceId : Ulid) : Prop where
  timeline : .started (.syncTimeline room) ∈ moments.map Moment.what
  rooms : .started (.reloadRooms workspaceId) ∈ moments.map Moment.what
  threads : .started (.reloadThreads workspaceId) ∈ moments.map Moment.what
  saved : (∀ m ∈ moments, (m.view.savedCursor workspaceId).isSome = true) →
    .started (.syncSaved workspaceId) ∈ moments.map Moment.what

/-- **The promise**: a room that was subscribed to on a connection, and that was
ready from then on, was synced before the reconnection was declared done. -/
def Synced (log : List Moment) : Prop :=
  ∀ later done between subscribed earlier room workspaceId,
    log = later ++ done :: (between ++ subscribed :: earlier) → done.what = .restored →
    subscribed.what = .answered (.room room) (.ack none) →
    (∀ m ∈ between, m.what.isConnection = false) →
    (∀ m ∈ subscribed :: between, Ready m.view room workspaceId) →
    SyncedIn between room workspaceId

/-- What is owed at any moment: a room that was subscribed to on this
connection, and that is ready since, was synced – or a batch waits with it. -/
def Owed (log : List Moment) (waits : Ulid → Prop) : Prop :=
  ∀ between subscribed earlier room workspaceId, log = between ++ subscribed :: earlier →
    subscribed.what = .answered (.room room) (.ack none) →
    (∀ m ∈ between, m.what.isConnection = false) →
    (∀ m ∈ subscribed :: between, Ready m.view room workspaceId) →
    SyncedIn between room workspaceId ∨ waits room

section Owed

variable {log new old : List Moment} {waits waits' : Ulid → Prop} {room workspaceId : Ulid}
  {v : ChatView}

theorem SyncedIn.append_left (h : SyncedIn old room workspaceId) :
    SyncedIn (new ++ old) room workspaceId := by
  refine ⟨?_, ?_, ?_, fun hsaved => ?_⟩ <;> rw [map_append]
  · exact mem_append_right _ h.timeline
  · exact mem_append_right _ h.rooms
  · exact mem_append_right _ h.threads
  · exact mem_append_right _ (h.saved fun m hm => hsaved m (mem_append_right _ hm))

theorem SyncedIn.append_right (h : SyncedIn new room workspaceId) :
    SyncedIn (new ++ old) room workspaceId := by
  refine ⟨?_, ?_, ?_, fun hsaved => ?_⟩ <;> rw [map_append]
  · exact mem_append_left _ h.timeline
  · exact mem_append_left _ h.rooms
  · exact mem_append_left _ h.threads
  · exact mem_append_left _ (h.saved fun m hm => hsaved m (mem_append_left _ hm))

/-- What is owed after more has happened: the rooms that wait go on waiting,
or what happened synced them. -/
theorem Owed.append (h : Owed log waits) (new : List Moment) (hhead : ∃ m rest, log = m :: rest ∧ m.view = v)
    (hnew : ∀ m ∈ new, ∀ room, m.what = .answered (.room room) (.ack none) → waits' room)
    (hw : ∀ room, waits room →
      waits' room ∨ ∀ workspaceId, Ready v room workspaceId → SyncedIn new room workspaceId) :
    Owed (new ++ log) waits' := by
  intro between subscribed earlier room workspaceId hlog hsub hconn hready
  rcases append_eq_append_iff.mp hlog with ⟨older, rfl, hold⟩ | ⟨rest, hsplit, hrest⟩
  · -- the subscription is older than what happened now
    have hready' : ∀ m ∈ subscribed :: older, Ready m.view room workspaceId := fun m hm =>
      hready m (mem_cons.mpr ((mem_cons.mp hm).imp id (mem_append_right _)))
    rcases h older subscribed earlier room workspaceId hold hsub
      (fun m hm => hconn m (mem_append_right _ hm)) hready' with hsynced | hwaits
    · exact .inl hsynced.append_left
    · refine (hw room hwaits).symm.imp (fun hnow => ?_) id
      obtain ⟨m, rest, hm, hview⟩ := hhead
      have hmem : m ∈ subscribed :: older := by
        cases older with
        | nil =>
          rw [nil_append, hm, List.cons.injEq] at hold
          exact hold.1 ▸ (.head _)
        | cons =>
          rw [cons_append, hm, List.cons.injEq] at hold
          exact hold.1 ▸ .tail _ (.head _)
      exact (hnow workspaceId (hview ▸ hready' m hmem)).append_right
  · cases rest with
    | nil =>
      -- the subscription is the last thing that happened before
      rw [nil_append] at hrest
      rw [append_nil] at hsplit
      subst hsplit
      rcases h [] subscribed earlier room workspaceId hrest.symm hsub nofun
        (fun m hm => hready m (mem_cons.mpr ((mem_cons.mp hm).imp id
          nofun))) with hsynced | hwaits
      · exact absurd hsynced.timeline not_mem_nil
      · refine (hw room hwaits).symm.imp (fun hnow => ?_) id
        obtain ⟨m, older, hm, hview⟩ := hhead
        rw [hm, List.cons.injEq] at hrest
        exact hnow workspaceId (hview ▸ hrest.1 ▸ hready _ (.head _))
    | cons =>
      rw [cons_append, List.cons.injEq] at hrest
      have hmem : subscribed ∈ new := by
        rw [hsplit, hrest.1]
        exact mem_append_right _ (.head _)
      exact .inr (hnew subscribed hmem room hsub)

/-- The promise is about the moments at which a reconnection was declared
done. -/
theorem Synced.append (h : Synced log) (new : List Moment) (hnew : ∀ m ∈ new, m.what ≠ .restored) :
    Synced (new ++ log) := by
  intro later done between subscribed earlier room workspaceId hlog hdone
  rcases append_eq_append_iff.mp hlog with ⟨older, -, hold⟩ | ⟨rest, hsplit, hrest⟩
  · exact h older done between subscribed earlier room workspaceId hold hdone
  · cases rest with
    | nil =>
      rw [nil_append] at hrest
      exact h [] done between subscribed earlier room workspaceId hrest.symm hdone
    | cons =>
      rw [cons_append, List.cons.injEq] at hrest
      refine absurd hdone (hnew done ?_)
      rw [hsplit, hrest.1]
      exact mem_append_right _ (.head _)

/-- **Nothing is owed when all is declared done**, as long as no room waits. -/
theorem Synced.restored (h : Synced log) (howed : Owed log waits) (hnone : ∀ room, ¬ waits room)
    (m : Moment) : Synced (m :: log) := by
  intro later done between subscribed earlier room workspaceId hlog hdone hsub hconn hready
  cases later with
  | nil =>
    rw [nil_append, List.cons.injEq] at hlog
    exact (howed between subscribed earlier room workspaceId hlog.2 hsub hconn hready).resolve_right
      (hnone room)
  | cons _ later =>
    rw [cons_append, List.cons.injEq] at hlog
    exact h later done between subscribed earlier room workspaceId hlog.2 hdone hsub hconn hready

/-- A connection that is lost owes nothing. -/
theorem owed_connection (status : ConnectionStatus) (v : ChatView) :
    Owed (⟨v, .connection status⟩ :: log) waits := by
  intro between subscribed earlier room workspaceId hlog hsub hconn _
  cases between with
  | nil =>
    rw [nil_append, List.cons.injEq] at hlog
    rw [← hlog.1] at hsub
    cases hsub
  | cons m =>
    rw [cons_append, List.cons.injEq] at hlog
    exact absurd (hlog.1 ▸ hconn m (.head _)) (by simp [Happening.isConnection])

end Owed

namespace Realtime

variable {s s' : Realtime}
  {whats : List Happening} {l : List Batch} {i : ℕ} {b x : Batch} {target : Target}
    {now : ChatView} {task : Task}

/-- A batch of this connection waits for answers, and the room's is there. -/
def Waits (s : Realtime) (room : Ulid) : Prop :=
  ∃ b ∈ s.inFlight, b.generation = s.generation ∧ b.phase = .subscribing ∧
    (Target.room room, some SubscribeResult.ok) ∈ b.requests

/-- **What every step keeps**: the last moment is up to date, the promise was
kept, what is owed is known, and the batches in flight are counted. -/
structure Traced (s : Realtime) : Prop where
  current : ∃ m rest, s.log = m :: rest ∧ m.view = s.view
  synced : Synced s.log
  owed : Owed s.log s.Waits
  counted : s.batches = s.inFlight.countP (fun b => decide (b.generation = s.generation))
  past : ∀ b ∈ s.inFlight, b.generation ≤ s.generation

theorem current_record (h : ∃ m rest, s.log = m :: rest ∧ m.view = s.view) (whats : List Happening) :
    ∃ m rest, (record whats s).log = m :: rest ∧ m.view = (record whats s).view := by
  obtain ⟨m, rest, hlog, hview⟩ := h
  show ∃ m' rest', (whats.map (Moment.mk s.view)).reverse ++ s.log = m' :: rest' ∧ m'.view = s.view
  cases hnew : (whats.map (Moment.mk s.view)).reverse with
  | nil => exact ⟨m, rest, hlog, hview⟩
  | cons x xs =>
    refine ⟨x, xs ++ s.log, rfl, ?_⟩
    have hx : x ∈ (whats.map (Moment.mk s.view)).reverse := hnew ▸ (.head _)
    obtain ⟨what, -, rfl⟩ := mem_map.mp (mem_reverse.mp hx)
    rfl

theorem mem_record {v : ChatView} {m : Moment}
    (hm : m ∈ (whats.map (Moment.mk v)).reverse) : m.what ∈ whats := by
  obtain ⟨what, hwhat, rfl⟩ := mem_map.mp (mem_reverse.mp hm)
  exact hwhat

variable (h : s.Traced)
include h

/-- Remembering what is neither the answer to a subscription nor the end of a
reconnection. -/
theorem Traced.record (hanswered : ∀ room, .answered (.room room) (.ack none) ∉ whats)
    (hrestored : .restored ∉ whats) : (record whats s).Traced where
  current := current_record h.current whats
  synced := h.synced.append _ fun _ hm hwhat => hrestored (hwhat ▸ mem_record hm)
  owed := h.owed.append _ h.current
    (fun _ hm room hwhat => absurd (hwhat ▸ mem_record hm) (hanswered room)) fun _ => .inl
  counted := h.counted
  past := h.past

theorem Traced.unsubscribe (desired : List Target) : (s.unsubscribe desired).Traced := by
  have hleft : ({ s with subscribed := s.subscribed.filter (fun t => decide (t ∈ desired)) } :
      Realtime).Traced := { h with }
  refine hleft.record (fun room hmem => ?_) fun hmem => ?_
  · obtain ⟨t, -, ht⟩ := mem_map.mp hmem
    cases ht
  · obtain ⟨t, -, ht⟩ := mem_map.mp hmem
    cases ht

/-- Where no batch is left, no room waits. -/
theorem Traced.not_waits (hnone : s.batches = 0) (room : Ulid) : ¬ s.Waits room := by
  rintro ⟨b, hb, hgen, -⟩
  have hcount := h.counted
  rw [hnone] at hcount
  exact countP_eq_zero.mp hcount.symm b hb (decide_eq_true hgen)

theorem Traced.finishReconnectSync : s.finishReconnectSync.Traced := by
  unfold Realtime.finishReconnectSync
  split
  · exact h
  · rename_i hdone
    have hnone : s.batches = 0 := Nat.eq_zero_of_not_pos fun hpos => hdone (.inr hpos)
    refine ⟨current_record h.current [.restored], ?_, ?_, h.counted, h.past⟩
    · exact h.synced.restored h.owed (h.not_waits hnone) _
    · refine h.owed.append [⟨s.view, .restored⟩] h.current (fun m hm room hwhat => ?_) fun _ => .inl
      rw [mem_singleton.mp hm] at hwhat
      cases hwhat

theorem Traced.startBatch (added : List Target) : (s.startBatch added).Traced := by
  have hbatch : ({ s with
      batches := s.batches + 1
      subscribing := s.subscribing ∪ added
      inFlight := s.inFlight ++
        [⟨s.generation, s.view, added.map (fun t => (t, none)), .subscribing⟩] } :
      Realtime).Traced := by
    refine ⟨h.current, h.synced, ?_, ?_, fun b hb => ?_⟩
    · refine h.owed.append [] h.current nofun fun room hwaits => .inl ?_
      obtain ⟨b, hb, hrest⟩ := hwaits
      exact ⟨b, mem_append_left _ hb, hrest⟩
    · show s.batches + 1 = List.countP _ (s.inFlight ++ [_])
      rw [countP_append, ← h.counted]
      simp
    · cases mem_append.mp hb with
      | inl hb => exact h.past b hb
      | inr hb => exact (congrArg Batch.generation (mem_singleton.mp hb)).le
  refine hbatch.record (fun room hmem => ?_) fun hmem => ?_
  · obtain ⟨t, -, ht⟩ := mem_map.mp hmem
    cases ht
  · obtain ⟨t, -, ht⟩ := mem_map.mp hmem
    cases ht

theorem Traced.reconcile : s.reconcile.Traced := by
  have hleft := h.unsubscribe (desiredTargets s.view)
  unfold Realtime.reconcile
  split
  · exact h
  · dsimp only
    unfold subscribeMissing
    split
    · exact hleft.finishReconnectSync
    · exact hleft.startBatch _

theorem Traced.handleConnectionState (next : ConnectionState) :
    (s.handleConnectionState next).Traced := by
  refine ⟨current_record h.current _, ?_, owed_connection _ _, ?_, fun b hb => ?_⟩
  · refine h.synced.append [_] fun m hm hwhat => ?_
    rw [mem_singleton.mp hm] at hwhat
    cases hwhat
  · -- the batches in flight belong to the connection that was lost
    refine (countP_eq_zero.mpr fun b hb hgen => ?_).symm
    exact (h.past b hb).not_gt ((Nat.lt_succ_self _).trans_eq (of_decide_eq_true hgen).symm)
  · exact (h.past b hb).trans (Nat.le_succ _)

theorem Traced.handleOpen (next : ConnectionState) : (s.handleOpen next).Traced := by
  have hopen : ({ s with
      connection := next
      restoredTimer := false
      syncingAfterReconnect := s.everOpened
      everOpened := true
      banner := ⟨if s.everOpened then some .syncing else none, none⟩ } : Realtime).Traced := { h with }
  refine (hopen.record (fun room hmem => ?_) fun hmem => ?_).reconcile
  · exact absurd (mem_singleton.mp hmem) (by simp)
  · exact absurd (mem_singleton.mp hmem) (by simp)

theorem Traced.storeChanged (view : ChatView) (scheduled : Bool) : (Realtime.record [.changed]
      { s with view := view, reconcileScheduled := scheduled }).Traced where
  current := ⟨_, _, rfl, rfl⟩
  synced := h.synced.append [_] fun m hm hwhat => by
    rw [mem_singleton.mp hm] at hwhat
    cases hwhat
  owed := h.owed.append [⟨view, .changed⟩] h.current (fun m hm room hwhat => by
      rw [mem_singleton.mp hm] at hwhat
      cases hwhat)
    fun _ => .inl
  counted := h.counted
  past := h.past

omit h

variable (hb : l[i]? = some b)
include hb

/-- A batch that is exchanged for one of the same connection. -/
theorem countP_set_of_generation
    (b' : Batch) (hgen : b'.generation = b.generation) (generation : ℕ) :
    (l.set i b').countP (fun x => decide (x.generation = generation)) =
      l.countP (fun x => decide (x.generation = generation)) := by
  obtain ⟨hi, rfl⟩ := List.getElem?_eq_some_iff.mp hb
  rw [countP_set hi, hgen]
  split
  · rename_i hcurrent
    exact Nat.sub_add_cancel (one_le_countP_iff.mpr ⟨_, getElem_mem hi, hcurrent⟩)
  · rfl

/-- A batch that is taken out. -/
theorem countP_eraseIdx
    (p : Batch → Bool) : l.countP p = (l.eraseIdx i).countP p + if p b then 1 else 0 := by
  obtain ⟨hi, rfl⟩ := List.getElem?_eq_some_iff.mp hb
  rw [← (getElem_cons_eraseIdx_perm hi).countP_eq, countP_cons]

/-- The other batches stay where they are. -/
theorem mem_set_of_ne {b' : Batch} (hx : x ∈ l) : x = b ∨ x ∈ l.set i b' := by
  obtain ⟨j, hj⟩ := mem_iff_getElem?.mp hx
  by_cases hij : i = j
  · subst hij
    exact .inl (Option.some.inj (hj.symm.trans hb))
  · exact .inr (mem_iff_getElem?.mpr ⟨j, by rw [getElem?_set_ne hij, hj]⟩)

theorem mem_eraseIdx_of_ne (hx : x ∈ l) : x = b ∨ x ∈ l.eraseIdx i := by
  obtain ⟨j, hj⟩ := mem_iff_getElem?.mp hx
  by_cases hij : j = i
  · subst hij
    exact .inl (Option.some.inj (hj.symm.trans hb))
  · exact .inr (mem_eraseIdx_iff_getElem?.mpr ⟨j, hij, hj⟩)

omit hb

include h

theorem Traced.answered {j : ℕ} {reply : Reply}
    (hb : s.inFlight[i]? = some b) (hj : b.requests[j]? = some (target, none))
    (hphase : b.phase = .subscribing) (hopen : b.generation = s.generation ∨ reply = .closed) :
    (subscribeEnded target reply { s with
      inFlight := s.inFlight.set i
        { b with requests := b.requests.set j (target, some reply.result) } }).Traced := by
  have hi : i < s.inFlight.length := (List.getElem?_eq_some_iff.mp hb).1
  have hj' : j < b.requests.length := (List.getElem?_eq_some_iff.mp hj).1
  refine ⟨current_record (s := s) h.current [.answered target reply], ?_, ?_, ?_, fun x hx => ?_⟩
  · refine h.synced.append [_] fun m hm hwhat => ?_
    rw [mem_singleton.mp hm] at hwhat
    cases hwhat
  · refine h.owed.append [⟨s.view, .answered target reply⟩] h.current
      (fun m hm room hwhat => ?_) fun room hwaits => .inl ?_
    · rw [mem_singleton.mp hm] at hwhat
      obtain ⟨rfl, rfl⟩ := Happening.answered.inj hwhat
      exact ⟨_, mem_set hi _, hopen.resolve_right (by decide), hphase, mem_set hj' _⟩
    · obtain ⟨x, hx, hgen, hxphase, hroom⟩ := hwaits
      rcases mem_set_of_ne hb hx with rfl | hx
      · -- what was answered before is still there
        refine ⟨_, mem_set hi _, hgen, hxphase, ?_⟩
        obtain ⟨k, hk⟩ := mem_iff_getElem?.mp hroom
        have hkj : j ≠ k := by
          rintro rfl
          cases hj.symm.trans hk
        exact mem_iff_getElem?.mpr ⟨k, (getElem?_set_ne hkj).trans hk⟩
      · exact ⟨x, hx, hgen, hxphase, hroom⟩
  · refine h.counted.trans (Eq.symm ?_)
    exact countP_set_of_generation hb
      { b with requests := b.requests.set j (target, some reply.result) } rfl s.generation
  · rcases mem_or_eq_of_mem_set hx with hx | rfl
    · exact h.past x hx
    · exact h.past b (mem_of_getElem? hb)

/-- A batch of a connection that was lost is forgotten. -/
theorem Traced.forget (hb : s.inFlight[i]? = some b) (hgen : b.generation ≠ s.generation) :
    ({ s with inFlight := s.inFlight.eraseIdx i } : Realtime).Traced := by
  refine ⟨h.current, h.synced, ?_, ?_, fun x hx => h.past x (mem_of_mem_eraseIdx hx)⟩
  · refine h.owed.append [] h.current nofun fun room hwaits => .inl ?_
    obtain ⟨x, hx, hxgen, hrest⟩ := hwaits
    rcases mem_eraseIdx_of_ne hb hx with rfl | hx
    · exact absurd hxgen hgen
    · exact ⟨x, hx, hxgen, hrest⟩
  · refine h.counted.trans ((countP_eraseIdx hb _).trans ?_)
    rw [if_neg (by simpa using hgen), Nat.add_zero]

theorem Traced.batchSynced (hb : s.inFlight[i]? = some b)
    (hphase : b.phase = .syncing) : (s.batchSynced i b).Traced := by
  unfold Realtime.batchSynced
  split
  · rename_i hgen
    exact h.forget hb hgen
  · rename_i hgen
    refine ⟨h.current, h.synced, ?_, ?_, fun x hx => h.past x (mem_of_mem_eraseIdx hx)⟩
    · refine h.owed.append [] h.current nofun fun room hwaits => .inl ?_
      obtain ⟨x, hx, hxgen, hxphase, hroom⟩ := hwaits
      rcases mem_eraseIdx_of_ne hb hx with rfl | hx
      · cases hphase.symm.trans hxphase
      · exact ⟨x, hx, hxgen, hxphase, hroom⟩
    · have hcount := h.counted.trans (countP_eraseIdx hb _)
      rw [if_pos (decide_eq_true (not_not.mp hgen))] at hcount
      show s.batches - 1 = _
      rw [hcount, Nat.add_sub_cancel]

/-! ## The step that may break the promise -/

omit h

/-- **No room is skipped beside one that is gone**: when all requests of a batch
ended, and one of its targets turned out to be gone, no room that was
subscribed to is ready – and the workspace of one that is was known when the
batch was made. -/
def Unhindered (s : Realtime) : RealtimeAction → Prop
  | .batchAnswered i => ∀ b, s.inFlight[i]? = some b → b.generation = s.generation →
      ∀ room workspaceId, .room room ∈ b.ok → Ready s.view room workspaceId →
        b.gone = false ∧ b.state.rooms room = some workspaceId
  | _ => True

theorem mem_ok : target ∈ b.ok ↔ (target, some SubscribeResult.ok) ∈ b.requests := by
  unfold Batch.ok
  rw [mem_map]
  constructor
  · rintro ⟨⟨t, r⟩, hr, rfl⟩
    obtain ⟨hmem, hok⟩ := mem_filter.mp hr
    obtain rfl : r = some .ok := of_decide_eq_true hok
    exact hmem
  · exact fun h => ⟨_, mem_filter.mpr ⟨h, decide_eq_true rfl⟩, rfl⟩

/-- What a batch without a target that is gone reads again for a room. -/
theorem mem_tasks {room workspaceId : Ulid} (hgone : b.gone = false) (hroom : .room room ∈ b.ok)
    (hknown : b.state.rooms room = some workspaceId)
    (htask : task ∈ syncAfterSubscribe now b.ok workspaceId) : task ∈ b.tasks now := by
  unfold Batch.tasks
  rw [if_neg (by rw [hgone]; decide), if_pos (ne_nil_of_mem hroom)]
  refine mem_flatMap.mpr ⟨workspaceId, mem_eraseDups.mpr ?_, htask⟩
  refine mem_flatMap.mpr ⟨.room room, hroom, ?_⟩
  show workspaceId ∈ (b.state.rooms room).toList
  rw [hknown]
  exact .head _

theorem mem_taskIf {applies : Bool} (h : applies = true) : task ∈ taskIf applies task := by
  rw [h]
  exact .head _

/-- **What a batch reads again syncs each of its rooms that is ready.** -/
theorem syncedIn_tasks {room workspaceId : Ulid}
    (hgone : b.gone = false) (hroom : .room room ∈ b.ok)
    (hknown : b.state.rooms room = some workspaceId) (hready : Ready now room workspaceId) :
    SyncedIn (((b.tasks now).map .started).map (Moment.mk now)).reverse room workspaceId := by
  have hstarted : ∀ task ∈ syncAfterSubscribe now b.ok workspaceId,
      ⟨now, .started task⟩ ∈ (((b.tasks now).map .started).map (Moment.mk now)).reverse :=
    fun task htask => mem_reverse.mpr (mem_map_of_mem
      (mem_map_of_mem (mem_tasks hgone hroom hknown htask)))
  have hrooms : .reloadRooms workspaceId ∈ syncAfterSubscribe now b.ok workspaceId := by
    simp [syncAfterSubscribe]
  refine ⟨mem_map_of_mem (hstarted (.syncTimeline room) ?_), mem_map_of_mem (hstarted _ hrooms),
    mem_map_of_mem (hstarted (.reloadThreads workspaceId) ?_),
    fun hsaved => mem_map_of_mem (hstarted (.syncSaved workspaceId) ?_)⟩
  · refine mem_append_right _ (mem_flatMap.mpr ⟨.room room, hroom, ?_⟩)
    show _ ∈ if now.rooms room = some workspaceId then syncRoom now room else []
    rw [if_pos hready.2]
    exact mem_append_left _ (mem_append_left _ (mem_taskIf (decide_eq_true hready.1)))
  · simp [syncAfterSubscribe]
  · have hcursor : (now.savedCursor workspaceId).isSome = true := hsaved _ (hstarted _ hrooms)
    simp [syncAfterSubscribe, taskIf, hcursor]

include h

theorem Traced.batchAnswered (hb : s.inFlight[i]? = some b)
    (hP : Unhindered s (.batchAnswered i)) : (s.batchAnswered i b).Traced := by
  unfold Realtime.batchAnswered
  split
  · rename_i hgen
    exact h.forget hb hgen
  · rename_i hgen
    refine ⟨current_record (s := s) h.current _, ?_, ?_, ?_, fun x hx => ?_⟩
    · refine h.synced.append _ fun m hm hwhat => ?_
      obtain ⟨task, -, htask⟩ := mem_map.mp (mem_record hm)
      rw [← htask] at hwhat
      cases hwhat
    · refine h.owed.append _ h.current (fun m hm room hwhat => ?_) fun room hwaits => ?_
      · obtain ⟨task, -, htask⟩ := mem_map.mp (mem_record hm)
        rw [← htask] at hwhat
        cases hwhat
      · obtain ⟨x, hx, hxgen, hxphase, hroom⟩ := hwaits
        rcases mem_set_of_ne hb hx with rfl | hx
        · refine .inr fun workspaceId hready => ?_
          have hok := mem_ok.mpr hroom
          obtain ⟨hgone, hknown⟩ := hP x hb hxgen room workspaceId hok hready
          exact syncedIn_tasks hgone hok hknown hready
        · exact .inl ⟨x, hx, hxgen, hxphase, hroom⟩
    · exact h.counted.trans
        (countP_set_of_generation hb { b with phase := .syncing } rfl s.generation).symm
    · rcases mem_or_eq_of_mem_set hx with hx | rfl
      · exact h.past x hx
      · exact h.past b (mem_of_getElem? hb)

/-- **Every step that is not hindered keeps the promise.** -/
theorem Traced.step {a : RealtimeAction} (hP : Unhindered s a)
    (hs : s.step a = some s') : s'.Traced := by
  cases a with
  | connectionChanged next => exact of_guard hs ▸ h.handleConnectionState next
  | opened next => exact of_guard hs ▸ h.handleOpen next
  | storeChanged view => exact Option.some.inj hs ▸ h.storeChanged view _
  | reconcile =>
    have hready : ({ s with reconcileScheduled := false } : Realtime).Traced := { h with }
    exact of_guard hs ▸ hready.reconcile
  | answered =>
    unfold Realtime.step at hs
    dsimp only at hs
    split at hs
    · cases hs
    · rename_i b hb
      split at hs
      · rename_i target hj
        obtain ⟨⟨hphase, hopen⟩, hs⟩ := Option.ite_none_right_eq_some.mp hs
        exact Option.some.inj hs ▸ h.answered hb hj hphase hopen
      · cases hs
  | batchAnswered =>
    unfold Realtime.step at hs
    dsimp only at hs
    split at hs
    · cases hs
    · rename_i b hb
      exact of_guard hs ▸ h.batchAnswered hb hP
  | batchSynced =>
    unfold Realtime.step at hs
    dsimp only at hs
    split at hs
    · cases hs
    · rename_i b hb
      obtain ⟨hphase, hs⟩ := Option.ite_none_right_eq_some.mp hs
      exact Option.some.inj hs ▸ h.batchSynced hb hphase
  | restoredTimeout =>
    obtain rfl := of_guard hs
    exact { h with }
  | _ =>
    cases hs
    exact { h with }

omit h

theorem traced_fresh (h : Fresh s) : s.Traced := by
  obtain ⟨-, -, -, -, hbatches, -, -, -, -, -, -, hflight, hlog⟩ := h
  refine ⟨⟨_, _, hlog, rfl⟩, ?_, ?_, ?_, fun b hb => ?_⟩
  · intro later done between subscribed earlier room workspaceId h
    rw [hlog] at h
    have hlen := congrArg List.length h
    simp at hlen
    omega
  · intro between subscribed earlier room workspaceId h hsub
    rw [hlog] at h
    cases between with
    | nil =>
      rw [nil_append, List.cons.injEq] at h
      rw [← h.1] at hsub
      cases hsub
    | cons =>
      have hlen := congrArg List.length h
      simp at hlen
  · rw [hbatches, hflight]
    rfl
  · rw [hflight] at hb
    cases hb

/-- **Every room is synced after its subscription.** In a run in which no room
is skipped beside one that is gone, a room that was subscribed to and ready
was synced, after the answer to its subscription, before the reconnection was
declared done. -/
theorem synced_of_reachableBy (h : system.ReachableBy Unhindered s) : Synced s.log := by
  have htraced : s.Traced :=
    h.invariant (I := Traced) (fun _ => traced_fresh) fun _ _ _ hI hP hs => hI.step hP hs
  exact htraced.synced

/-! ## A sidebar to try things on -/

/-- Workspace 1 is shown with some rooms, and room 10 is open. -/
def sidebar (rooms : List Ulid) : ChatView where
  activeWorkspaceId := some 1
  removedWorkspaces _ := false
  roomLists _ := some ⟨.ready, rooms⟩
  removedRooms _ := false
  huddleCallRoomId := none
  rooms _ := some 1
  timelines id := if id = 10 then some .ready else none
  members _ := false
  savedCursor _ := some 4
  notificationLevels _ := false
  activity _ := false
  focus := none
  roomMembers _ := false
  threadFocus := none

/-- A client that was just made and shows rooms 10 and 11. -/
def idle : Realtime :=
  ⟨sidebar [10, 11], ⟨.closed, none, 0⟩, [], [], [], 0, 0, false, false, false, false, false,
    ⟨none, none⟩, [], [⟨sidebar [10, 11], .changed⟩]⟩

theorem fresh_idle : Fresh idle :=
  ⟨rfl, rfl, rfl, rfl, rfl, rfl, rfl, rfl, rfl, rfl, rfl, rfl, rfl⟩

/-- The connection breaks, comes back, and the workspace and both rooms are
subscribed to again. -/
def resubscribed (reply : Reply) : List RealtimeAction :=
  [.start, .opened ⟨.open_, some 0, 0⟩, .connectionChanged ⟨.reconnecting, some 0, 0⟩,
    .opened ⟨.open_, some 9, 0⟩, .answered 1 0 (.ack none), .answered 1 1 (.ack none),
    .answered 1 2 reply]

/-- All three are answered, and room 10 is synced before the reconnection is
declared done. -/
theorem synced_resubscribed : ∃ s : Realtime, Synced s.log ∧ s.banner = ⟨some .restored, none⟩ ∧
    Happening.started (.syncTimeline 10) ∈ s.log.map Moment.what := by
  let before (s : Realtime) : Bool := s.inFlight[1]?.any (fun b => !b.gone &&
    decide (b.ok = [.workspace 1, .room 10, .room 11] ∧ b.state.rooms 10 = s.view.rooms 10 ∧
      b.state.rooms 11 = s.view.rooms 11))
  let after (s : Realtime) : Bool := decide (s.banner = ⟨some .restored, none⟩ ∧
    Happening.started (.syncTimeline 10) ∈ s.log.map Moment.what)
  have hrun : (system.run idle (resubscribed (.ack none))).any (fun s₁ => before s₁ &&
      (s₁.step (.batchAnswered 1)).any fun s₂ =>
        (system.run s₂ [.batchSynced 1, .reconcile]).any after) = true := by decide +kernel
  obtain ⟨s₁, h₁, htest⟩ := (Option.any_eq_true _ _).mp hrun
  obtain ⟨hbefore, htest⟩ := (Bool.and_eq_true _ _).mp htest
  obtain ⟨s₂, h₂, htest⟩ := (Option.any_eq_true _ _).mp htest
  obtain ⟨s₃, h₃, hafter⟩ := (Option.any_eq_true _ _).mp htest
  obtain ⟨b, hb, hbatch⟩ := (Option.any_eq_true _ _).mp hbefore
  obtain ⟨hgone, hok⟩ := (Bool.and_eq_true _ _).mp hbatch
  obtain ⟨hok, h10, h11⟩ := of_decide_eq_true hok
  obtain ⟨hbanner, hsynced⟩ := of_decide_eq_true hafter
  have hP : Unhindered s₁ (.batchAnswered 1) := by
    intro x hx _ room workspaceId hroom hready
    obtain rfl : b = x := Option.some.inj (hb.symm.trans hx)
    refine ⟨Bool.not_eq_true' _ |>.mp hgone, ?_⟩
    rw [hok] at hroom
    obtain rfl | rfl : room = 10 ∨ room = 11 := by simpa using hroom
    · exact h10.trans hready.2
    · exact h11.trans hready.2
  -- no other step can break the promise
  have hfree : ∀ a : RealtimeAction, (∀ i, a ≠ .batchAnswered i) → ∀ s, Unhindered s a := by
    intro a ha s
    cases a with
    | batchAnswered i => exact absurd rfl (ha i)
    | _ => trivial
  have hreach₁ : system.ReachableBy Unhindered s₁ :=
    reachableBy_of_run fresh_idle
      (fun a ha => hfree a (by rintro i rfl; simp [resubscribed] at ha)) h₁
  have hreach₃ : system.ReachableBy Unhindered s₃ :=
    (hreach₁.tail hP h₂).steps (steps_of_run (fun a ha => hfree a (by rintro i rfl; simp at ha)) h₃)
  exact ⟨s₃, synced_of_reachableBy hreach₃, hbanner, hsynced⟩

/-- **A room is skipped**: room 11 turns out to be gone, and room 10, whose
subscription was answered, is not synced before the reconnection is declared
done. -/
theorem skipped_beside_gone : ∃ s, system.Reachable s ∧ ¬ Synced s.log ∧
    s.banner = ⟨some .restored, none⟩ := by
  let actions := resubscribed (.ack (some .notFound)) ++ [.batchAnswered 1,
    .storeChanged (sidebar [10]), .batchSynced 1, .reconcile]
  -- the end of the reconnection, the answer to room 10, and what lies between
  let test (s : Realtime) : Bool :=
    match s.log with
    | [] => false
    | done :: rest =>
      match rest.drop 3 with
      | [] => false
      | subscribed :: _ =>
        decide (done.what = .restored ∧ subscribed.what = .answered (.room 10) (.ack none) ∧
          (∀ m ∈ rest.take 3, m.what.isConnection = false) ∧
          (∀ m ∈ subscribed :: rest.take 3,
            m.view.timelines 10 = some .ready ∧ m.view.rooms 10 = some 1) ∧
          .started (.syncTimeline 10) ∉ (rest.take 3).map Moment.what ∧
          s.banner = ⟨some .restored, none⟩)
  have hrun : (system.run idle actions).any test = true := by decide +kernel
  obtain ⟨s, hreach, htest⟩ := exists_of_run hrun fresh_idle
  refine ⟨s, hreach, ?_⟩
  simp only [test] at htest
  split at htest
  · cases htest
  · rename_i done rest hlog
    split at htest
    · cases htest
    · rename_i subscribed earlier hdrop
      obtain ⟨hdone, hsub, hconn, hready, hskipped, hbanner⟩ := of_decide_eq_true htest
      refine ⟨fun hsynced => hskipped ?_, hbanner⟩
      refine (hsynced [] done (rest.take 3) subscribed earlier 10 1 ?_ hdone hsub hconn hready).timeline
      rw [nil_append, ← hdrop, take_append_drop, hlog]

end Realtime

end Hibari
