import Hibari.TransitionSystem

/-!
# The connection manager

One WebSocket connection that is opened again whenever it breaks
(`realtime/connection.ts`). Five things race: the retry timer, the network,
the ticket a connection is opened with, the socket itself, and the check of
the session after the server revoked it. Each of them is something in flight
here – armed timers, sockets whose handlers are attached, attempts that wait
for a ticket, checks that wait for an answer – and an action is one of them
coming in, so a run is any order of them.

Timers are the page's: arming one makes a fresh handle, and a variable may go
on holding a handle that was cleared or has fired. That a started manager
always has something to wait for (`Connection.Alive`) rests on no other
variable holding the handle of the retry timer.
-/

namespace Hibari

open List Option

/-- Where the connection stands: the first attempt runs, there is a
connection, it broke and is being opened again, or it was stopped. -/
inductive ConnectionStatus
  | connecting
  | open_
  | reconnecting
  | closed
  deriving DecidableEq

/-- What the manager tells about the connection. -/
structure ConnectionState where
  status : ConnectionStatus
  /-- When a connection was last opened, in milliseconds. -/
  lastOpenedAt : Option ℕ
  /-- The attempts since then that did not reach the server. -/
  unreachableAttempts : ℕ
  deriving DecidableEq

/-- Why the server refused a message. -/
inductive AckError
  | invalidMessage
  | notFound
  | notSubscribed
  | forbidden
  | tooManySubscriptions
  | internal
  deriving DecidableEq

/-- The server's answer to a message. -/
structure Ack where
  id : Option ℕ
  error : Option AckError
  deriving DecidableEq

/-- The longest wait before the second attempt, doubled by each further one. -/
def backoffBaseMs : ℕ := 1000

/-- The longest wait there is. -/
def backoffMaxMs : ℕ := 30000

/-- A connection that held this long starts the waits over. -/
def stableConnectionMs : ℕ := 30000

/-- How often a ping is sent. -/
def heartbeatIntervalMs : ℕ := 25000

/-- How long its answer may take. -/
def heartbeatTimeoutMs : ℕ := 10000

/-- The close code of a revoked session. -/
def closeSessionRevoked : ℕ := 4001

/-- The close code of a connection that broke. -/
def closeAbnormal : ℕ := 1006

/-! ## Timers -/

/-- What a timer does when it fires. -/
inductive TimerKind
  | retry
  | heartbeat
  | heartbeatTimeout
  deriving DecidableEq

/-- An armed timer, and the longest time it may take. -/
structure Timer where
  id : ℕ
  kind : TimerKind
  within : ℕ
  deriving DecidableEq

/-- The timers of the page. -/
structure Timers where
  armed : List Timer
  nextId : ℕ
  deriving DecidableEq

/-- Arm a timer; its handle is `nextId`. -/
def Timers.setTimeout (t : Timers) (kind : TimerKind) (within : ℕ) : Timers where
  armed := ⟨t.nextId, kind, within⟩ :: t.armed
  nextId := t.nextId + 1

/-- Disarm the timer of a handle, if it is armed. -/
def Timers.clearTimeout (t : Timers) (id : Option ℕ) : Timers :=
  { t with armed := t.armed.filter (fun x => decide (some x.id ≠ id)) }

/-! ## Requests -/

/-- How a request ended: with the server's answer, or with the connection. -/
inductive Settlement
  | resolved (ack : Ack)
  | rejected
  deriving DecidableEq

/-- The requests that were made: those that wait for an answer, and how each
of the others ended, the last one last. -/
structure Requests where
  nextId : ℕ
  pending : List ℕ
  settled : List (ℕ × Settlement)
  deriving DecidableEq

/-- A new request waits for its answer – or, where there is no connection to
send it on, ends with an error. -/
def Requests.request (r : Requests) (sent : Bool) : Requests :=
  let id := r.nextId + 1
  if sent then { r with nextId := id, pending := r.pending ++ [id] }
  else { r with nextId := id, settled := r.settled ++ [(id, .rejected)] }

/-- The answer to a request, if it is waited for. -/
def Requests.resolve (r : Requests) (id : ℕ) (ack : Ack) : Requests :=
  if id ∈ r.pending then
    { r with pending := r.pending.erase id, settled := r.settled ++ [(id, .resolved ack)] }
  else r

/-- The requests that are waited for end with an error. -/
def Requests.rejectPending (r : Requests) : Requests :=
  { r with pending := [], settled := r.settled ++ r.pending.map (fun id => (id, .rejected)) }

/-! ## The manager -/

/-- A socket whose handlers are attached, and whether it opened. -/
structure Socket where
  id : ℕ
  opened : Bool
  deriving DecidableEq

/-- The variables of the manager – the last seven fields are what it set going
and waits for. -/
structure Connection where
  state : ConnectionState
  started : Bool
  generation : ℕ
  socket : Option ℕ
  openedAt : Option ℕ
  backoffAttempt : ℕ
  retryTimer : Option ℕ
  heartbeatTimer : Option ℕ
  heartbeatTimeout : Option ℕ
  watchingNetwork : Bool
  requests : Requests
  timers : Timers
  sockets : List Socket
  nextSocket : ℕ
  /-- The attempts that wait for a ticket, by generation. -/
  tickets : List ℕ
  /-- The checks of the session that are running, by generation. -/
  revalidations : List ℕ
  /-- The requests that are pings. -/
  pings : List ℕ
  /-- The answered pings that the next heartbeat is still to be started for. -/
  pongs : ℕ
  deriving DecidableEq

/-- Why no ticket was issued: the server answered with an error, or it was not
reached. -/
inductive TicketFailure
  | api (status : ℕ)
  | network
  deriving DecidableEq

/-- How a check of the session ended. -/
inductive Revalidation
  | valid
  | invalid
  | failed
  deriving DecidableEq

/-- What arrives on a socket. -/
inductive Frame
  | notJson
  | ack (ack : Ack)
  | event
  deriving DecidableEq

namespace Connection

/-- A manager that was just created. -/
def created : Connection where
  state := ⟨.closed, none, 0⟩
  started := false
  generation := 0
  socket := none
  openedAt := none
  backoffAttempt := 0
  retryTimer := none
  heartbeatTimer := none
  heartbeatTimeout := none
  watchingNetwork := false
  requests := ⟨0, [], []⟩
  timers := ⟨[], 0⟩
  sockets := []
  nextSocket := 0
  tickets := []
  revalidations := []
  pings := []
  pongs := 0

/-- Tell a new status. -/
def setStatus (status : ConnectionStatus) (s : Connection) : Connection :=
  { s with state := { s.state with status := status } }

/-- Disarm all timers. -/
def clearTimers (s : Connection) : Connection :=
  { s with
    timers := ((s.timers.clearTimeout s.retryTimer).clearTimeout s.heartbeatTimer).clearTimeout
      s.heartbeatTimeout
    retryTimer := none
    heartbeatTimer := none
    heartbeatTimeout := none }

/-- Let go of the socket: its handlers are detached first, so that its close is
not heard, and what was asked on it fails. -/
def dropSocket (s : Connection) : Connection :=
  match s.socket with
  | none => s
  | some id =>
    { s with
      socket := none
      sockets := s.sockets.filter (fun x => decide (x.id ≠ id))
      requests := s.requests.rejectPending }

/-- Arm the retry timer: the wait is chosen at random below a cap that doubles. -/
def scheduleRetry (s : Connection) : Connection :=
  if !s.started then s
  else
    let cap := min backoffMaxMs (backoffBaseMs * 2 ^ s.backoffAttempt)
    let timers := s.timers.clearTimeout s.retryTimer
    { s with
      backoffAttempt := s.backoffAttempt + 1
      timers := timers.setTimeout .retry cap
      retryTimer := some timers.nextId }

/-- A connection that held long enough starts the waits over. -/
def settleBackoff (now : ℕ) (s : Connection) : Connection :=
  let stable := s.openedAt.any (fun openedAt => decide (openedAt + stableConnectionMs ≤ now))
  { s with
    backoffAttempt := if stable then 0 else s.backoffAttempt
    openedAt := none }

/-- Open the connection again, after the session was checked where it was
revoked. -/
def reopen (code : ℕ) (s : Connection) : Connection :=
  if code ≠ closeSessionRevoked then s.scheduleRetry
  else
    { s with
      generation := s.generation + 1
      revalidations := (s.generation + 1) :: s.revalidations }

/-- The connection is gone. -/
def handleClose (code now : ℕ) (s : Connection) : Connection :=
  let dropped := (s.settleBackoff now).clearTimers.dropSocket
  if !dropped.started then dropped
  else (dropped.setStatus .reconnecting).reopen code

/-- Arm the timer of the next ping. -/
def startHeartbeat (s : Connection) : Connection :=
  { s with
    timers := s.timers.setTimeout .heartbeat heartbeatIntervalMs
    heartbeatTimer := some s.timers.nextId }

/-- Whether a message can be sent. -/
def canSend (s : Connection) : Bool := s.socket.isSome && decide (s.state.status = .open_)

/-- Send a message and wait for its answer. -/
def request (s : Connection) : Connection :=
  { s with requests := s.requests.request s.canSend }

/-- Time for a ping. -/
def heartbeat (s : Connection) : Connection :=
  request { s with
      timers := s.timers.setTimeout .heartbeatTimeout heartbeatTimeoutMs
      heartbeatTimeout := some s.timers.nextId
      pings := (s.requests.nextId + 1) :: s.pings }

/-- A ping was answered. -/
def heartbeatAnswered (s : Connection) : Connection :=
  startHeartbeat { s with timers := s.timers.clearTimeout s.heartbeatTimeout }

/-- A frame arrived. An event is passed on. -/
def handleMessage (s : Connection) : Frame → Connection
  | .notJson => s
  | .event => s
  | .ack ack =>
    match ack.id with
    | none => s
    | some id =>
      { s with
        requests := s.requests.resolve id ack
        pongs := if id ∈ s.requests.pending ∧ id ∈ s.pings then s.pongs + 1 else s.pongs }

/-- Try to connect: ask for a ticket first. -/
def attempt (s : Connection) : Connection :=
  if !s.started then s
  else
    { s with
      timers := s.timers.clearTimeout s.retryTimer
      generation := s.generation + 1
      state := if s.state.status = .closed then { s.state with status := .connecting } else s.state
      tickets := (s.generation + 1) :: s.tickets }

/-- Stop. -/
def stop (s : Connection) : Connection :=
  if !s.started then s
  else
    let stopped := { s with started := false, generation := s.generation + 1 }
    let dropped := stopped.clearTimers.dropSocket
    setStatus .closed { dropped with watchingNetwork := false, openedAt := none }

/-- An attempt no longer waits for its ticket. -/
def takeTicket (gen : ℕ) (s : Connection) : Connection :=
  { s with tickets := s.tickets.erase gen }

/-- A new socket, with its handlers attached. -/
def createSocket (s : Connection) : Connection :=
  { s with
    socket := some s.nextSocket
    sockets := ⟨s.nextSocket, false⟩ :: s.sockets
    nextSocket := s.nextSocket + 1 }

/-- The ticket of an attempt: open a socket with it, unless a later attempt
was made. -/
def ticketIssued (gen : ℕ) (s : Connection) : Connection :=
  if gen ≠ s.generation then s.takeTicket gen else (s.takeTicket gen).dropSocket.createSocket

/-- Whether a failure says that the server was not reached. -/
def unreachable : TicketFailure → Bool
  | .network => true
  | .api status => decide (status = 502 ∨ status = 503 ∨ status = 504)

/-- Count an attempt that did not reach the server, unless the device itself
is offline. -/
def countFailure (failure : TicketFailure) (isOnline : Bool) (s : Connection) : Connection :=
  { s with state :=
    { s.state with
      status := .reconnecting
      unreachableAttempts :=
        s.state.unreachableAttempts + if unreachable failure && isOnline then 1 else 0 } }

/-- An attempt got no ticket. -/
def ticketFailed (gen : ℕ) (failure : TicketFailure) (isOnline : Bool) (s : Connection) :
    Connection :=
  if gen ≠ s.generation then s.takeTicket gen
  else if failure = .api 401 then (s.takeTicket gen).stop
  else ((s.takeTicket gen).countFailure failure isOnline).scheduleRetry

/-- A check of the session is over. -/
def takeRevalidation (gen : ℕ) (s : Connection) : Connection :=
  { s with revalidations := s.revalidations.erase gen }

/-- A check of the session ended. -/
def revalidated (gen : ℕ) (result : Revalidation) (s : Connection) : Connection :=
  if gen ≠ s.generation then s.takeRevalidation gen
  else match result with
    | .valid => (s.takeRevalidation gen).scheduleRetry
    | .invalid => (s.takeRevalidation gen).stop
    | .failed => (s.takeRevalidation gen).scheduleRetry

/-- A socket opened. -/
def socketOpened (id now : ℕ) (s : Connection) : Connection :=
  startHeartbeat { s with
      sockets := s.sockets.map (fun x : Socket => if x.id = id then { x with opened := true } else x)
      openedAt := some now
      state := ⟨.open_, some now, 0⟩ }

/-- Start. -/
def start (s : Connection) : Connection :=
  if s.started then s
  else attempt { s with started := true, backoffAttempt := 0, watchingNetwork := true }

/-- Try at once, unless there is a socket. The network coming back does the
same. -/
def retryNow (s : Connection) : Connection :=
  if !s.started ∨ s.socket.isSome then s else s.attempt

/-- The network is gone, and the connection with it. -/
def offline (now : ℕ) (s : Connection) : Connection :=
  if s.socket.isSome then s.handleClose closeAbnormal now else s

/-- A timer that fires is no longer armed. -/
def disarm (timer : Timer) (s : Connection) : Connection :=
  { s with timers := { s.timers with armed := s.timers.armed.erase timer } }

/-- What an armed timer does. -/
def fire (timer : Timer) (now : ℕ) (s : Connection) : Connection :=
  match timer.kind with
  | .retry => (s.disarm timer).attempt
  | .heartbeat => (s.disarm timer).heartbeat
  | .heartbeatTimeout => (s.disarm timer).handleClose closeAbnormal now

end Connection

/-- What can happen next. -/
inductive ConnectionAction
  | start
  | stop
  | retryNow
  | request
  | online
  | offline (now : ℕ)
  | fire (timer : Timer) (now : ℕ)
  | ticketIssued (gen : ℕ)
  | ticketFailed (gen : ℕ) (failure : TicketFailure) (isOnline : Bool)
  | revalidated (gen : ℕ) (result : Revalidation)
  | socketOpened (id now : ℕ)
  | socketClosed (id code now : ℕ)
  | frame (id : ℕ) (frame : Frame)
  | heartbeatAnswered
  deriving DecidableEq

namespace Connection

/-- One step: what was waited for comes in, if it was waited for. A socket is
heard as long as its handlers are attached. -/
def step (s : Connection) : ConnectionAction → Option Connection
  | .start => some s.start
  | .stop => some s.stop
  | .retryNow => some s.retryNow
  | .request => some s.request
  | .online => if s.watchingNetwork then some s.retryNow else none
  | .offline now => if s.watchingNetwork then some (s.offline now) else none
  | .fire timer now => if timer ∈ s.timers.armed then some (s.fire timer now) else none
  | .ticketIssued gen => if gen ∈ s.tickets then some (s.ticketIssued gen) else none
  | .ticketFailed gen failure isOnline =>
    if gen ∈ s.tickets then some (s.ticketFailed gen failure isOnline) else none
  | .revalidated gen result =>
    if gen ∈ s.revalidations then some (s.revalidated gen result) else none
  | .socketOpened id now =>
    if ⟨id, false⟩ ∈ s.sockets then some (s.socketOpened id now) else none
  | .socketClosed id code now =>
    if id ∈ s.sockets.map Socket.id then some (s.handleClose code now) else none
  | .frame id frame => if ⟨id, true⟩ ∈ s.sockets then some (s.handleMessage frame) else none
  | .heartbeatAnswered =>
    if 0 < s.pongs then some (heartbeatAnswered { s with pongs := s.pongs - 1 }) else none

/-- The manager as a transition system. -/
def system : TransitionSystem Connection ConnectionAction where
  init s := s = created
  step := step

end Connection

/-! ## Handles of timers

A variable may hold the handle of a timer that is long gone. What matters is
that the variable of the heartbeat never holds the handle of the retry timer,
since the answer to a ping clears whatever it holds. -/

/-- Handles are fresh, and the variable of the heartbeat holds none of a retry
timer. -/
structure Timers.Apart (t : Timers) (heartbeatTimeout : Option ℕ) : Prop where
  fresh : ∀ x ∈ t.armed, x.id < t.nextId
  used : ∀ id, heartbeatTimeout = some id → id < t.nextId
  apart : ∀ x ∈ t.armed, x.kind = .retry → some x.id ≠ heartbeatTimeout

section Timers

variable {t : Timers} {var : Option ℕ}

theorem Timers.mem_clearTimeout {id : Option ℕ} {x : Timer} :
    x ∈ (t.clearTimeout id).armed ↔ x ∈ t.armed ∧ some x.id ≠ id := by
  show x ∈ t.armed.filter _ ↔ _
  rw [mem_filter, decide_eq_true_iff]

section

variable (h : t.Apart var)
include h

/-- Arming a timer takes a handle that no variable holds. -/
theorem Timers.Apart.setTimeout (kind : TimerKind) (within : ℕ) :
    (t.setTimeout kind within).Apart var where
  fresh x hx := by
    cases mem_cons.mp hx with
    | inl hx => rw [hx]; exact Nat.lt_succ_self _
    | inr hx => exact (h.fresh x hx).trans (Nat.lt_succ_self _)
  used id hid := (h.used id hid).trans (Nat.lt_succ_self _)
  apart x hx hkind := by
    cases mem_cons.mp hx with
    | inl hx =>
      rw [hx]
      exact fun hvar => (h.used _ hvar.symm).false
    | inr hx => exact h.apart x hx hkind

/-- The variable of the heartbeat may take the handle of a timer that is not a
retry. -/
theorem Timers.Apart.setHeartbeatTimeout (within : ℕ) :
    (t.setTimeout .heartbeatTimeout within).Apart (some t.nextId) where
  fresh := (h.setTimeout .heartbeatTimeout within).fresh
  used id hid := some.inj hid ▸ Nat.lt_succ_self _
  apart x hx hkind := by
    cases mem_cons.mp hx with
    | inl hx =>
      rw [hx] at hkind
      cases hkind
    | inr hx => exact fun hvar => (h.fresh x hx).ne (some.inj hvar)

theorem Timers.Apart.clearTimeout (id : Option ℕ) : (t.clearTimeout id).Apart var where
  fresh x hx := h.fresh x (Timers.mem_clearTimeout.mp hx).1
  used := h.used
  apart x hx := h.apart x (Timers.mem_clearTimeout.mp hx).1

theorem Timers.Apart.forget : t.Apart none where
  fresh := h.fresh
  used id hid := absurd hid (some_ne_none id).symm
  apart x _ _ := some_ne_none x.id

theorem Timers.Apart.erase (timer : Timer) :
    Timers.Apart { t with armed := t.armed.erase timer } var where
  fresh x hx := h.fresh x (mem_of_mem_erase hx)
  used := h.used
  apart x hx := h.apart x (mem_of_mem_erase hx)

end

end Timers

/-! ## Requests end once -/

/-- Every request that was made is in one place, once: it waits for its
answer, or it ended. -/
def Requests.Exact (r : Requests) : Prop :=
  (r.pending ++ r.settled.map Prod.fst).Perm (List.range' 1 r.nextId)

section Requests

variable {r : Requests} (h : r.Exact)
include h

theorem Requests.Exact.request (sent : Bool) : (r.request sent).Exact := by
  unfold Requests.Exact at h ⊢
  have hnext : (List.range' 1 (r.nextId + 1)).Perm ((r.nextId + 1) :: List.range' 1 r.nextId) := by
    rw [range'_1_concat, Nat.add_comm 1]
    exact perm_append_singleton _ _
  cases sent with
  | true =>
    refine List.Perm.trans ?_ hnext.symm
    show ((r.pending ++ [r.nextId + 1]) ++ r.settled.map Prod.fst).Perm _
    rw [append_assoc, singleton_append]
    exact perm_middle.trans (h.cons _)
  | false =>
    refine List.Perm.trans ?_ hnext.symm
    show (r.pending ++ (r.settled ++ [(r.nextId + 1, Settlement.rejected)]).map Prod.fst).Perm _
    rw [map_append, ← append_assoc]
    exact (perm_append_singleton _ _).trans (h.cons _)

theorem Requests.Exact.resolve (id : ℕ) (ack : Ack) : (r.resolve id ack).Exact := by
  unfold Requests.resolve
  split
  · rename_i hmem
    refine List.Perm.trans ?_ h
    show (r.pending.erase id ++ (r.settled ++ [(id, Settlement.resolved ack)]).map Prod.fst).Perm _
    rw [map_append, ← append_assoc]
    have hback := (perm_cons_erase hmem).symm.append_right (r.settled.map Prod.fst)
    exact (perm_append_singleton _ _).trans hback
  · exact h

theorem Requests.Exact.rejectPending : r.rejectPending.Exact := by
  refine List.Perm.trans ?_ h
  show ([] ++ (r.settled ++ r.pending.map (fun id => (id, Settlement.rejected))).map Prod.fst).Perm _
  rw [nil_append, map_append, List.map_map]
  have hid : r.pending.map (Prod.fst ∘ fun id => (id, Settlement.rejected)) = r.pending :=
    List.map_id _
  rw [hid]
  exact perm_append_comm

theorem Requests.Exact.count {id : ℕ} (hpos : 1 ≤ id) (hle : id ≤ r.nextId) :
    r.pending.count id + (r.settled.map Prod.fst).count id = 1 := by
  rw [← count_append, h.count_eq]
  exact count_eq_one_of_mem nodup_range' (mem_range'_1.mpr ⟨hpos, by omega⟩)

end Requests

/-! ## Never stuck, never doubled -/

namespace Connection

variable {s s' : Connection} {a : ConnectionAction} {gen : ℕ}

/-- **Something to wait for**: a socket, the ticket of the latest attempt, the
retry timer, or the check of the session that belongs to the latest
generation. -/
def Alive (s : Connection) : Prop :=
  s.socket.isSome = true ∨ s.generation ∈ s.tickets ∨ (∃ t ∈ s.timers.armed, t.kind = .retry) ∨
    s.generation ∈ s.revalidations

/-- What every function of the manager keeps: handles are kept apart, only the
socket that is referenced is heard, and requests end once – those that wait do
so for a socket. -/
structure Kept (s : Connection) : Prop where
  handles : s.timers.Apart s.heartbeatTimeout
  sockets : s.sockets.map Socket.id = s.socket.toList
  fresh : ∀ id, s.socket = some id → id < s.nextSocket
  requests : s.requests.Exact
  waiting : s.socket = none → s.requests.pending = []

theorem Kept.clearTimers (h : s.Kept) : s.clearTimers.Kept :=
  { h with handles := (((h.handles.clearTimeout _).clearTimeout _).clearTimeout _).forget }

theorem dropSocket_socket (s : Connection) : s.dropSocket.socket = none := by
  unfold dropSocket
  split
  · assumption
  · rfl

theorem dropSocket_handles (s : Connection) : s.dropSocket.timers = s.timers ∧
    s.dropSocket.heartbeatTimeout = s.heartbeatTimeout ∧ s.dropSocket.started = s.started := by
  unfold dropSocket
  split <;> exact ⟨rfl, rfl, rfl⟩

section

variable (h : s.Kept)
include h

theorem Kept.dropSocket : s.dropSocket.Kept := by
  unfold Connection.dropSocket
  split
  · exact h
  · rename_i id hid
    refine ⟨h.handles, ?_, fun k hk => absurd hk (some_ne_none k).symm,
      h.requests.rejectPending, fun _ => rfl⟩
    -- the socket that is referenced is the only one that is heard
    have honly := h.sockets
    rw [hid] at honly
    have hnone : s.sockets.filter (fun x => decide (x.id ≠ id)) = [] := by
      refine filter_eq_nil_iff.mpr fun x hx => ?_
      have hx' : x.id ∈ s.sockets.map Socket.id := List.mem_map_of_mem hx
      rw [honly] at hx'
      rw [mem_singleton.mp hx']
      simp
    show (s.sockets.filter fun x => decide (x.id ≠ id)).map Socket.id = []
    rw [hnone, map_nil]

theorem Kept.scheduleRetry : s.scheduleRetry.Kept := by
  unfold Connection.scheduleRetry
  split
  · exact h
  · exact { h with handles := (h.handles.clearTimeout _).setTimeout _ _ }

theorem Kept.stop : s.stop.Kept := by
  unfold Connection.stop
  split
  · exact h
  · have hcleared : ({ s with started := false, generation := s.generation + 1 } : Connection).Kept :=
      { h with }
    exact { hcleared.clearTimers.dropSocket with }

theorem Kept.reopen (code : ℕ) : (s.reopen code).Kept := by
  unfold Connection.reopen
  split
  · exact h.scheduleRetry
  · exact { h with }

theorem Kept.handleClose (code now : ℕ) : (s.handleClose code now).Kept := by
  have hsettled : (s.settleBackoff now).Kept := { h with }
  have hdropped := hsettled.clearTimers.dropSocket
  unfold Connection.handleClose
  dsimp only
  split
  · exact hdropped
  · have htold : ((s.settleBackoff now).clearTimers.dropSocket.setStatus .reconnecting).Kept :=
      { hdropped with }
    exact htold.reopen code

theorem Kept.startHeartbeat : s.startHeartbeat.Kept :=
  { h with handles := h.handles.setTimeout _ _ }

theorem Kept.request : s.request.Kept where
  handles := h.handles
  sockets := h.sockets
  fresh := h.fresh
  requests := h.requests.request _
  waiting hnone := by
    have hcannot : s.canSend = false := by
      unfold canSend
      rw [show s.socket = none from hnone]
      rfl
    show (s.requests.request s.canSend).pending = []
    rw [hcannot]
    exact h.waiting hnone

theorem Kept.heartbeat : s.heartbeat.Kept :=
  Kept.request { h with handles := h.handles.setHeartbeatTimeout _ }

theorem Kept.heartbeatAnswered : s.heartbeatAnswered.Kept :=
  Kept.startHeartbeat { h with handles := h.handles.clearTimeout _ }

theorem Kept.handleMessage (frame : Frame) : (s.handleMessage frame).Kept := by
  unfold Connection.handleMessage
  split
  · exact h
  · exact h
  · split
    · exact h
    · refine ⟨h.handles, h.sockets, h.fresh, h.requests.resolve _ _, fun hnone => ?_⟩
      show (s.requests.resolve _ _).pending = []
      unfold Requests.resolve
      rw [h.waiting hnone, if_neg not_mem_nil, h.waiting hnone]

theorem Kept.attempt : s.attempt.Kept := by
  unfold Connection.attempt
  split
  · exact h
  · exact { h with handles := h.handles.clearTimeout _ }

theorem Kept.start : s.start.Kept := by
  unfold Connection.start
  split
  · exact h
  · exact Kept.attempt { h with }

theorem Kept.retryNow : s.retryNow.Kept := by
  unfold Connection.retryNow
  split
  · exact h
  · exact h.attempt

theorem Kept.offline (now : ℕ) : (s.offline now).Kept := by
  unfold Connection.offline
  split
  · exact h.handleClose _ _
  · exact h

theorem Kept.fire (timer : Timer) (now : ℕ) : (s.fire timer now).Kept := by
  have hdisarmed : (s.disarm timer).Kept := { h with handles := h.handles.erase timer }
  unfold Connection.fire
  split
  · exact hdisarmed.attempt
  · exact hdisarmed.heartbeat
  · exact hdisarmed.handleClose _ _

theorem Kept.createSocket (hnone : s.socket = none) : s.createSocket.Kept where
  handles := h.handles
  sockets := by
    have hsockets := h.sockets
    rw [hnone] at hsockets
    show s.nextSocket :: s.sockets.map Socket.id = _
    rw [hsockets]
    rfl
  fresh k hk := some.inj hk ▸ Nat.lt_succ_self _
  requests := h.requests
  waiting hsome := nomatch hsome

theorem Kept.ticketIssued (gen : ℕ) : (s.ticketIssued gen).Kept := by
  have htaken : (s.takeTicket gen).Kept := { h with }
  unfold Connection.ticketIssued
  split
  · exact htaken
  · exact htaken.dropSocket.createSocket (dropSocket_socket _)

theorem Kept.ticketFailed (gen : ℕ) (failure : TicketFailure) (isOnline : Bool) :
    (s.ticketFailed gen failure isOnline).Kept := by
  have htaken : (s.takeTicket gen).Kept := { h with }
  unfold Connection.ticketFailed
  split
  · exact htaken
  · split
    · exact htaken.stop
    · exact Kept.scheduleRetry { htaken with }

theorem Kept.revalidated (gen : ℕ) (result : Revalidation) : (s.revalidated gen result).Kept := by
  have htaken : (s.takeRevalidation gen).Kept := { h with }
  unfold Connection.revalidated
  split
  · exact htaken
  · split
    · exact htaken.scheduleRetry
    · exact htaken.stop
    · exact htaken.scheduleRetry

theorem Kept.socketOpened (id now : ℕ) : (s.socketOpened id now).Kept := by
  refine Kept.startHeartbeat { h with sockets := ?_ }
  rw [← h.sockets, List.map_map]
  refine map_congr_left fun x _ => ?_
  show (if x.id = id then { x with opened := true } else x : Socket).id = x.id
  split <;> rfl

end

theorem of_guard {c : Prop} [Decidable c] {σ : Type} {s s' : σ}
    (h : (if c then some s else none) = some s') : s = s' :=
  some.inj (ite_none_right_eq_some.mp h).2

/-- **Every step keeps it.** -/
theorem Kept.step (h : s.Kept) (hs : s.step a = some s') : s'.Kept := by
  cases a with
  | start => exact some.inj hs ▸ h.start
  | stop => exact some.inj hs ▸ h.stop
  | retryNow => exact some.inj hs ▸ h.retryNow
  | request => exact some.inj hs ▸ h.request
  | online => exact of_guard hs ▸ h.retryNow
  | offline now => exact of_guard hs ▸ h.offline now
  | fire timer now => exact of_guard hs ▸ h.fire timer now
  | ticketIssued gen => exact of_guard hs ▸ h.ticketIssued gen
  | ticketFailed gen failure isOnline => exact of_guard hs ▸ h.ticketFailed gen failure isOnline
  | revalidated gen result => exact of_guard hs ▸ h.revalidated gen result
  | socketOpened id now => exact of_guard hs ▸ h.socketOpened id now
  | socketClosed _ code now => exact of_guard hs ▸ h.handleClose code now
  | frame _ frame => exact of_guard hs ▸ h.handleMessage frame
  | heartbeatAnswered => exact of_guard hs ▸ Kept.heartbeatAnswered { h with }

/-! Each function that takes something away puts something else in its place. -/

section

variable (h : s.started = true)
include h

theorem alive_scheduleRetry : s.scheduleRetry.Alive := by
  unfold scheduleRetry
  rw [h, if_neg (by decide)]
  exact .inr (.inr (.inl ⟨_, .head _, rfl⟩))

theorem alive_attempt : s.attempt.Alive := by
  unfold attempt
  rw [h, if_neg (by decide)]
  exact .inr (.inl (.head _))

theorem alive_reopen (code : ℕ) : (s.reopen code).Alive := by
  unfold reopen
  split
  · exact alive_scheduleRetry h
  · exact .inr (.inr (.inr (.head _)))

theorem alive_handleClose (code now : ℕ) : (s.handleClose code now).Alive := by
  have hstarted : (s.settleBackoff now).clearTimers.dropSocket.started = true :=
    (dropSocket_handles _).2.2.trans h
  unfold handleClose
  dsimp only
  rw [if_neg (by rw [hstarted]; decide)]
  exact alive_reopen (s := (s.settleBackoff now).clearTimers.dropSocket.setStatus .reconnecting)
    hstarted code

end

theorem stopped_stop (s : Connection) : s.stop.started = false := by
  unfold stop
  cases h : s.started with
  | true => exact (dropSocket_handles _).2.2
  | false => exact h

theorem started_scheduleRetry (s : Connection) : s.scheduleRetry.started = s.started := by
  unfold scheduleRetry
  split <;> rfl

theorem started_attempt (s : Connection) : s.attempt.started = s.started := by
  unfold attempt
  split <;> rfl

theorem started_handleClose (s : Connection) (code now : ℕ) :
    (s.handleClose code now).started = s.started := by
  have hdropped : (s.settleBackoff now).clearTimers.dropSocket.started = s.started :=
    (dropSocket_handles _).2.2
  unfold handleClose
  dsimp only
  split
  · exact hdropped
  · unfold reopen
    split
    · exact (started_scheduleRetry _).trans hdropped
    · exact hdropped

/-- A started manager has something to wait for. -/
def Live (s : Connection) : Prop := s.started = true → s.Alive

theorem live_attempt (s : Connection) : s.attempt.Live :=
  fun h => alive_attempt ((started_attempt s).symm.trans h)

theorem live_scheduleRetry (s : Connection) : s.scheduleRetry.Live :=
  fun h => alive_scheduleRetry ((started_scheduleRetry s).symm.trans h)

theorem live_handleClose (s : Connection) (code now : ℕ) : (s.handleClose code now).Live :=
  fun h => alive_handleClose ((started_handleClose s code now).symm.trans h) code now

theorem live_stop (s : Connection) : s.stop.Live :=
  fun h => absurd ((stopped_stop s).symm.trans h) Bool.false_ne_true

section

variable (h : s.Live)
include h

/-- What is armed besides the retry timer does not matter. -/
theorem Live.of_armed {timers : Timers} {var : Option ℕ}
    (ht : ∀ t ∈ s.timers.armed, t.kind = .retry → t ∈ timers.armed) :
    ({ s with timers := timers, heartbeatTimer := var } : Connection).Live := by
  intro hstarted
  rcases h hstarted with hsocket | hticket | ⟨t, ht', hkind⟩ | hrev
  · exact .inl hsocket
  · exact .inr (.inl hticket)
  · exact .inr (.inr (.inl ⟨t, ht t ht' hkind, hkind⟩))
  · exact .inr (.inr (.inr hrev))

theorem Live.startHeartbeat : s.startHeartbeat.Live :=
  h.of_armed fun _ ht _ => .tail _ ht

theorem Live.heartbeatAnswered (hk : s.Kept) : s.heartbeatAnswered.Live := by
  refine h.of_armed fun t ht hkind => .tail _ ?_
  exact Timers.mem_clearTimeout.mpr ⟨ht, hk.handles.apart t ht hkind⟩

/-- A heartbeat that fires is not the retry timer. -/
theorem Live.heartbeat {timer : Timer} (hkind : timer.kind = .heartbeat) :
    (s.disarm timer).heartbeat.Live := by
  have hdisarmed : (s.disarm timer).startHeartbeat.Live := by
    refine h.of_armed fun t ht hretry => .tail _ ?_
    refine (mem_erase_of_ne ?_).mpr ht
    rintro rfl
    cases hkind.symm.trans hretry
  intro hstarted
  rcases hdisarmed hstarted with hsocket | hticket | ⟨t, ht, hretry⟩ | hrev
  · exact .inl hsocket
  · exact .inr (.inl hticket)
  · refine .inr (.inr (.inl ⟨t, ?_, hretry⟩))
    cases mem_cons.mp ht with
    | inl ht =>
      rw [ht] at hretry
      cases hretry
    | inr ht => exact .tail _ ht
  · exact .inr (.inr (.inr hrev))

theorem Live.fire (timer : Timer) (now : ℕ) : (s.fire timer now).Live := by
  unfold Connection.fire
  split
  · exact live_attempt _
  · rename_i hkind
    exact h.heartbeat hkind
  · exact live_handleClose _ _ _

theorem Live.start : s.start.Live := by
  unfold Connection.start
  split
  · exact h
  · exact live_attempt _

theorem Live.retryNow : s.retryNow.Live := by
  unfold Connection.retryNow
  split
  · exact h
  · exact live_attempt _

theorem Live.offline (now : ℕ) : (s.offline now).Live := by
  unfold Connection.offline
  split
  · exact live_handleClose _ _ _
  · exact h

/-- A ticket of an earlier generation is not what is waited for. -/
theorem Live.takeTicket (hgen : gen ≠ s.generation) : (s.takeTicket gen).Live := by
  intro hstarted
  rcases h hstarted with hsocket | hticket | hretry | hrev
  · exact .inl hsocket
  · exact .inr (.inl ((mem_erase_of_ne hgen.symm).mpr hticket))
  · exact .inr (.inr (.inl hretry))
  · exact .inr (.inr (.inr hrev))

theorem Live.takeRevalidation (hgen : gen ≠ s.generation) : (s.takeRevalidation gen).Live := by
  intro hstarted
  rcases h hstarted with hsocket | hticket | hretry | hrev
  · exact .inl hsocket
  · exact .inr (.inl hticket)
  · exact .inr (.inr (.inl hretry))
  · exact .inr (.inr (.inr ((mem_erase_of_ne hgen.symm).mpr hrev)))

theorem Live.ticketIssued (gen : ℕ) : (s.ticketIssued gen).Live := by
  unfold Connection.ticketIssued
  split
  · rename_i hgen
    exact h.takeTicket hgen
  · exact fun _ => .inl rfl

theorem Live.ticketFailed (gen : ℕ) (failure : TicketFailure) (isOnline : Bool) :
    (s.ticketFailed gen failure isOnline).Live := by
  unfold Connection.ticketFailed
  split
  · rename_i hgen
    exact h.takeTicket hgen
  · split
    · exact live_stop _
    · exact live_scheduleRetry _

theorem Live.revalidated (gen : ℕ) (result : Revalidation) : (s.revalidated gen result).Live := by
  unfold Connection.revalidated
  split
  · rename_i hgen
    exact h.takeRevalidation hgen
  · split
    · exact live_scheduleRetry _
    · exact live_stop _
    · exact live_scheduleRetry _

/-- A frame changes requests only. -/
theorem Live.handleMessage (frame : Frame) : (s.handleMessage frame).Live := by
  unfold Connection.handleMessage
  split
  · exact h
  · exact h
  · split
    · exact h
    · exact h

/-- **Every step keeps something to wait for.** -/
theorem Live.step (hk : s.Kept) (hs : s.step a = some s') :
    s'.Live := by
  cases a with
  | start => exact some.inj hs ▸ h.start
  | stop => exact some.inj hs ▸ live_stop s
  | retryNow => exact some.inj hs ▸ h.retryNow
  | request =>
    cases hs
    exact h
  | online => exact of_guard hs ▸ h.retryNow
  | offline now => exact of_guard hs ▸ h.offline now
  | fire timer now => exact of_guard hs ▸ h.fire timer now
  | ticketIssued gen => exact of_guard hs ▸ h.ticketIssued gen
  | ticketFailed gen failure isOnline => exact of_guard hs ▸ h.ticketFailed gen failure isOnline
  | revalidated gen result => exact of_guard hs ▸ h.revalidated gen result
  | socketOpened id now =>
    obtain rfl := of_guard hs
    exact Live.startHeartbeat (s := { s with
      sockets := s.sockets.map (fun x : Socket => if x.id = id then { x with opened := true } else x)
      openedAt := some now
      state := ⟨.open_, some now, 0⟩ }) h
  | socketClosed _ code now => exact of_guard hs ▸ live_handleClose s code now
  | frame _ frame => exact of_guard hs ▸ h.handleMessage frame
  | heartbeatAnswered =>
    obtain rfl := of_guard hs
    exact Live.heartbeatAnswered (s := { s with pongs := s.pongs - 1 }) h { hk with }

/-! ## What ends a request -/

end

/-- Why a request ended in a step: its answer came in on the socket, the socket
was let go of, or the request was made without a connection to send it on. -/
def EndedBy (s : Connection) (a : ConnectionAction) (s' : Connection) (id : ℕ) : Settlement → Prop
  | .resolved ack => ack.id = some id ∧ ∃ k, s.socket = some k ∧ a = .frame k (.ack ack)
  | .rejected => (∃ k, s.socket = some k ∧ s'.socket ≠ some k) ∨
      (s.canSend = false ∧ id = s.requests.nextId + 1)

/-- **Requests are accounted for**: what ended stays so, what ends does so for
a reason, and nothing waits any longer for a socket that was let go of. -/
structure Accounted (s : Connection) (a : ConnectionAction) (s' : Connection) : Prop where
  ended : ∃ new, s'.requests.settled = s.requests.settled ++ new ∧
    ∀ id how, (id, how) ∈ new → EndedBy s a s' id how
  dropped : ∀ k, s.socket = some k → s'.socket ≠ some k → s'.requests.pending = []

/-- A step that makes no request and hears no answer either leaves the socket
and the requests alone, or lets go of both. -/
def Drops (s s' : Connection) : Prop :=
  (s'.requests = s.requests ∧ ∀ k, s.socket = some k → s'.socket = some k) ∨
    ∃ k, s.socket = some k ∧ s'.socket ≠ some k ∧ s'.requests = s.requests.rejectPending

theorem Drops.accounted (h : Drops s s') (a : ConnectionAction) : Accounted s a s' := by
  rcases h with ⟨hrequests, hsocket⟩ | ⟨k, hk, hk', hrequests⟩
  · refine ⟨⟨[], ?_, nofun⟩, fun k hk hk' => absurd (hsocket k hk) hk'⟩
    rw [hrequests, append_nil]
  · refine ⟨⟨s.requests.pending.map fun id => (id, .rejected), ?_, ?_⟩, fun _ _ _ => ?_⟩
    · rw [hrequests]
      rfl
    · intro id how hmem
      obtain ⟨x, -, hx⟩ := List.mem_map.mp hmem
      cases hx
      exact .inl ⟨k, hk, hk'⟩
    · rw [hrequests]
      rfl

theorem kept_of_reachable (h : system.Reachable s) : s.Kept ∧ s.Live := by
  refine h.invariant (I := fun s => s.Kept ∧ s.Live) (fun s hs => ?_) (fun s a s' hI _ hs => ⟨hI.1.step hs, hI.2.step hI.1 hs⟩)
  obtain rfl : s = created := hs
  refine ⟨⟨⟨fun x hx => absurd hx not_mem_nil, fun id hid => absurd hid (some_ne_none id).symm,
    fun x hx => absurd hx not_mem_nil⟩, rfl, fun id hid => absurd hid (some_ne_none id).symm,
    List.Perm.refl _, fun _ => rfl⟩, fun hstarted => absurd hstarted Bool.false_ne_true⟩

end Connection

end Hibari
