import Hibari.Message
import Hibari.Threads
import Hibari.TransitionSystem

/-!
# The hub of the WebSocket connections

An instance of the server keeps its connections in a hub: which user and
session each is of, and which rooms and workspaces it is subscribed to, both in
the record of the connection and in an index by room and by workspace, so that
an event finds its connections. One mutex guards all of it.

Nothing that waits is done under the mutex. A subscription is authorised by the
database and confirmed by the broker in between, and what a call releases it
releases afterwards. So every call is a thread here (`HubTask`) that steps from one
critical section, database read or call of the broker to the next, and a run of
the hub is any interleaving of such steps (`hubSystem`), with permissions that
change at any moment.

A loop that removes subscriptions – `closeRooms`, the second half of
`revalidateUser` – does what `unsubscribeLocked` does to each of a set of
subscriptions; `Hub.drop` is that, for any set of them.
-/

namespace Hibari

/-- Whose connection it is. -/
structure Identity where
  userId : Ulid
  sessionId : Ulid
  deriving DecidableEq

/-- What is subscribed to. -/
inductive Topic
  | room (id : Ulid)
  | workspace (id : Ulid)
  deriving DecidableEq

/-- A channel of the broker. -/
inductive Channel
  | user (id : Ulid)
  | room (id : Ulid)
  | workspace (id : Ulid)
  deriving DecidableEq

/-- The channel of a topic. -/
def Topic.channel : Topic → Channel
  | .room id => .room id
  | .workspace id => .workspace id

/-- A connection, as the hub knows it. -/
abbrev ClientId := ℕ

/-- The record of a connection. The rooms are kept with the workspaces they
are in. -/
structure Client where
  identity : Identity
  rooms : Finset (Ulid × Ulid)
  workspaces : Finset Ulid
  registered : Bool

namespace Client

/-- Whether a connection is subscribed to a topic. -/
def subscribed (c : Client) : Topic → Bool
  | .room id => decide (id ∈ c.rooms.image Prod.fst)
  | .workspace id => decide (id ∈ c.workspaces)

/-- How many subscriptions a connection has. -/
def subscriptions (c : Client) : ℕ := c.rooms.card + c.workspaces.card

/-- The connection with one more subscription. -/
def add (c : Client) (t : Topic) (workspaceId : Ulid) : Client :=
  match t with
  | .room id => { c with rooms := insert (id, workspaceId) c.rooms }
  | .workspace id => { c with workspaces := insert id c.workspaces }

/-- The connection without some of its subscriptions. -/
def without (c : Client) (p : Topic → Bool) : Client :=
  { c with
    rooms := c.rooms.filter (fun r => !p (.room r.1))
    workspaces := c.workspaces.filter (fun w => !p (.workspace w)) }

/-- The channels of some of the subscriptions. -/
def channels (c : Client) (p : Topic → Bool) : Multiset Channel :=
  (c.rooms.filter (fun r => p (.room r.1))).val.map (fun r => .room r.1)
    + (c.workspaces.filter (fun w => p (.workspace w))).val.map .workspace

end Client

/-! ## Indices -/

/-- An index of the connections: those that have a key, by key. A key without
connections is not in it. -/
abbrev Index := Ulid → Option (Finset ClientId)

namespace Index

/-- The connections that have a key. -/
def at_ (m : Index) (key : Ulid) : Finset ClientId := (m key).getD ∅

/-- Add a connection. -/
def addTo (m : Index) (key : Ulid) (c : ClientId) : Index :=
  Function.update m key (some (insert c (m.at_ key)))

/-- Remove a connection, and the key with the last one. -/
def removeFrom (m : Index) (key : Ulid) (c : ClientId) : Index :=
  match m key with
  | none => m
  | some set => Function.update m key (if set.erase c = ∅ then none else some (set.erase c))

/-- Remove every connection that is to go, each from its keys. -/
def removeAll (m : Index) (gone : Ulid → ClientId → Bool) : Index := fun key =>
  match m key with
  | none => none
  | some set =>
    if set.filter (fun c => !gone key c) = ∅ then none
    else some (set.filter (fun c => !gone key c))

end Index

/-- A permission that changed: of a user, in a workspace. -/
structure AccessChange where
  userId : Ulid
  workspaceId : Ulid
  deriving DecidableEq

/-- An event, as far as the hub reads it: whose permissions changed, whom it is
for, and which rooms are gone. -/
structure HubEvent where
  accessChanges : List AccessChange
  rooms : List Ulid
  workspaces : List Ulid
  users : List Ulid
  exceptUser : Option Ulid
  closedRooms : List Ulid
  deriving DecidableEq

/-! ## What the mutex guards -/

/-- The hub. Connections are numbered in the order in which they were
registered. A user without an epoch has epoch zero. -/
structure Hub where
  records : ClientId → Client
  next : ClientId
  clients : Finset ClientId
  byUser : Index
  bySession : Index
  roomSubs : Index
  workspaceSubs : Index
  epochs : Ulid → ℕ
  shuttingDown : Bool
  unregistering : ℕ
  drainClosed : Bool

/-- How many subscriptions a connection may have. -/
def maxSubscriptions : ℕ := 500

namespace Hub

/-- The user of a connection. -/
def userOf (h : Hub) (c : ClientId) : Ulid := (h.records c).identity.userId

/-- The connections that an event for a topic goes to. -/
def subscribers (h : Hub) : Topic → Finset ClientId
  | .room id => h.roomSubs.at_ id
  | .workspace id => h.workspaceSubs.at_ id

/-- Enter a new connection. -/
def register (h : Hub) (id : Identity) : Hub :=
  { h with
    records := Function.update h.records h.next ⟨id, ∅, ∅, true⟩
    next := h.next + 1
    clients := insert h.next h.clients
    byUser := h.byUser.addTo id.userId h.next
    bySession := h.bySession.addTo id.sessionId h.next }

/-- When the hub shuts down, the last connection is gone and every cleanup is
done, it is drained. -/
def closeDrained (h : Hub) : Hub :=
  if h.shuttingDown ∧ !h.drainClosed ∧ h.clients = ∅ ∧ h.unregistering = 0 then
    { h with drainClosed := true }
  else h

/-- Take a connection out of every index. Its record keeps what it was
subscribed to. The epoch of the user goes with the user's last connection. -/
def unregister (h : Hub) (c : ClientId) : Hub :=
  { h with
    records := Function.update h.records c { h.records c with registered := false }
    clients := h.clients.erase c
    byUser := h.byUser.removeFrom (h.userOf c) c
    bySession := h.bySession.removeFrom (h.records c).identity.sessionId c
    roomSubs := h.roomSubs.removeAll (fun r d => d = c && (h.records c).subscribed (.room r))
    workspaceSubs :=
      h.workspaceSubs.removeAll (fun w d => d = c && (h.records c).subscribed (.workspace w))
    epochs :=
      if h.byUser.removeFrom (h.userOf c) c (h.userOf c) = none then
        Function.update h.epochs (h.userOf c) 0
      else h.epochs
    unregistering := h.unregistering + 1 }

/-- The channels that a connection leaves behind when it is unregistered. -/
def unregisterChannels (h : Hub) (c : ClientId) : Multiset Channel :=
  .user (h.userOf c) ::ₘ (h.records c).channels (fun _ => true)

/-- The cleanup of a connection is done. -/
def finishUnregister (h : Hub) : Hub :=
  closeDrained { h with unregistering := h.unregistering - 1 }

/-- Stop taking connections. -/
def shutdown (h : Hub) : Hub := closeDrained { h with shuttingDown := true }

/-- Enter a subscription. -/
def enter (h : Hub) (c : ClientId) (t : Topic) (workspaceId : Ulid) : Hub :=
  { h with
    records := Function.update h.records c ((h.records c).add t workspaceId)
    roomSubs := match t with
      | .room id => h.roomSubs.addTo id c
      | .workspace _ => h.roomSubs
    workspaceSubs := match t with
      | .room _ => h.workspaceSubs
      | .workspace id => h.workspaceSubs.addTo id c }

/-- Remove subscriptions of some connections: from the record, and the
connection from the index. -/
def drop (h : Hub) (who : Finset ClientId) (p : ClientId → Topic → Bool) : Hub :=
  { h with
    records := fun c => if c ∈ who then (h.records c).without (p c) else h.records c
    roomSubs := h.roomSubs.removeAll fun r c =>
      decide (c ∈ who) && (p c (.room r) && (h.records c).subscribed (.room r))
    workspaceSubs := h.workspaceSubs.removeAll fun w c =>
      decide (c ∈ who) && (p c (.workspace w) && (h.records c).subscribed (.workspace w)) }

/-- The channels of the subscriptions that are removed. -/
def dropped (h : Hub) (who : Finset ClientId) (p : ClientId → Topic → Bool) : Multiset Channel :=
  ∑ c ∈ who, (h.records c).channels (p c)

/-- Remove one subscription. -/
def unsubscribeLocked (h : Hub) (c : ClientId) (t : Topic) : Hub :=
  h.drop {c} (fun _ t' => decide (t' = t))

/-- Whether a workspace is one that a revalidation is about: all of them, or
one. -/
def inScope (scope : Option Ulid) (workspaceId : Ulid) : Bool :=
  match scope with
  | none => true
  | some id => decide (id = workspaceId)

/-- The rooms in scope that some connection of a user is subscribed to. -/
def scopeRooms (h : Hub) (userId : Ulid) (scope : Option Ulid) : Finset Ulid :=
  (h.byUser.at_ userId).biUnion fun c =>
    ((h.records c).rooms.filter (fun r => inScope scope r.2)).image Prod.fst

/-- The workspaces in scope that some connection of a user is subscribed
to. -/
def scopeWorkspaces (h : Hub) (userId : Ulid) (scope : Option Ulid) : Finset Ulid :=
  (h.byUser.at_ userId).biUnion fun c =>
    (h.records c).workspaces.filter (fun w => inScope scope w)

/-- Start a revalidation: authorisations that are on their way are void. -/
def bumpEpoch (h : Hub) (userId : Ulid) : Hub :=
  { h with epochs := Function.update h.epochs userId (h.epochs userId + 1) }

end Hub

/-- A subscription that was looked up and is not allowed. -/
def disallowed (rooms workspaces allowedRooms allowedWorkspaces : Finset Ulid) : Topic → Bool
  | .room id => decide (id ∈ rooms) && decide (id ∉ allowedRooms)
  | .workspace id => decide (id ∈ workspaces) && decide (id ∉ allowedWorkspaces)

namespace Hub

/-- Remove a room's subscriptions, where the room is one of those that are
gone. -/
def inClosed (h : Hub) (roomIds : List Ulid) (c : ClientId) : Topic → Bool
  | .room id => decide (id ∈ roomIds) && decide (c ∈ h.roomSubs.at_ id)
  | .workspace _ => false

/-- The connections that are subscribed to rooms that are gone. -/
def closedSubscribers (h : Hub) (roomIds : List Ulid) : Finset ClientId :=
  roomIds.toFinset.biUnion h.roomSubs.at_

/-- The connections that an event goes to. -/
def targets (h : Hub) (ev : HubEvent) : Finset ClientId :=
  (ev.rooms.toFinset.biUnion (fun id => h.subscribers (.room id))
      ∪ ev.workspaces.toFinset.biUnion (fun id => h.subscribers (.workspace id))
      ∪ ev.users.toFinset.biUnion h.byUser.at_)
    \ (match ev.exceptUser with
      | none => ∅
      | some userId => h.byUser.at_ userId)

end Hub

/-! ## Calls -/

/-- Where a call is. A call that is `release`-ing has left its critical section
with channels to give back; what comes after is `next`. -/
inductive HubTask
  | registerStart (id : Identity)
  | registerAcquire (id : Identity)
  | registerEnter (id : Identity)
  | subscribe (c : ClientId) (t : Topic)
  | authorize (c : ClientId) (t : Topic) (epoch : ℕ)
  | acquire (c : ClientId) (t : Topic) (epoch : ℕ) (workspaceId : Ulid)
  | enter (c : ClientId) (t : Topic) (epoch : ℕ) (workspaceId : Ulid)
  | unsubscribe (c : ClientId) (t : Topic)
  | unregister (c : ClientId)
  | unregistered
  | revalidate (userId : Ulid) (scope : Option Ulid) (next : HubTask)
  | allowedRooms (userId : Ulid) (rooms workspaces : Finset Ulid) (next : HubTask)
  | allowedWorkspaces (userId : Ulid) (rooms workspaces allowed : Finset Ulid) (next : HubTask)
  | removeDisallowed (userId : Ulid)
      (rooms workspaces allowedRooms allowedWorkspaces : Finset Ulid) (next : HubTask)
  | deliver (ev : HubEvent)
  | closeRooms (roomIds : List Ulid)
  | release (channels : Multiset Channel) (next : HubTask)
  | done
  deriving DecidableEq

/-- Give channels back, if there are any, and go on. -/
def releasing (channels : Multiset Channel) (next : HubTask) : HubTask :=
  if channels = 0 then next else .release channels next

/-- What calls share: the hub, what was acquired from the broker and given
back, the permissions in the database, and what was sent to which
connections. -/
structure World where
  hub : Hub
  acquired : Multiset Channel
  released : Multiset Channel
  may : Ulid → Topic → Bool
  sent : List (HubEvent × Finset ClientId)

namespace World

/-- The hub after a critical section. -/
def setHub (w : World) (h : Hub) : World := { w with hub := h }

/-- A channel was acquired. -/
def acquire (w : World) (ch : Channel) : World := { w with acquired := ch ::ₘ w.acquired }

end World

/-- The next step of a call. `home` is the workspace of a room; `ok` is whether
the database or the broker, where the step asks them, answers without an
error. -/
def taskStep (home : Ulid → Ulid) (ok : Bool) (w : World) : HubTask → Option (World × HubTask)
  | .registerStart id => some (w, if w.hub.shuttingDown then .done else .registerAcquire id)
  | .registerAcquire id =>
    if ok then some (w.acquire (.user id.userId), .registerEnter id) else some (w, .done)
  | .registerEnter id =>
    if w.hub.shuttingDown then some (w, releasing {.user id.userId} .done)
    else some (w.setHub (w.hub.register id), .done)
  | .subscribe c t =>
    if !(w.hub.records c).registered || (w.hub.records c).subscribed t then some (w, .done)
    else if maxSubscriptions ≤ (w.hub.records c).subscriptions then some (w, .done)
    else some (w, .authorize c t (w.hub.epochs (w.hub.userOf c)))
  | .authorize c t epoch =>
    if ok && w.may (w.hub.userOf c) t then
      some (w, .acquire c t epoch (match t with | .room id => home id | .workspace id => id))
    else some (w, .done)
  | .acquire c t epoch workspaceId =>
    if ok then some (w.acquire t.channel, .enter c t epoch workspaceId) else some (w, .done)
  | .enter c t epoch workspaceId =>
    if w.hub.epochs (w.hub.userOf c) ≠ epoch then
      some (w, releasing {t.channel} (.subscribe c t))
    else if (w.hub.records c).registered && !(w.hub.records c).subscribed t then
      some (w.setHub (w.hub.enter c t workspaceId), .done)
    else some (w, releasing {t.channel} .done)
  | .unsubscribe c t =>
    if (w.hub.records c).subscribed t then
      some (w.setHub (w.hub.unsubscribeLocked c t), releasing {t.channel} .done)
    else some (w, .done)
  | .unregister c =>
    if (w.hub.records c).registered then
      some (w.setHub (w.hub.unregister c), releasing (w.hub.unregisterChannels c) .unregistered)
    else some (w, .done)
  | .unregistered => some (w.setHub w.hub.finishUnregister, .done)
  | .revalidate userId scope next =>
    if w.hub.byUser userId = none then some (w, next)
    else if w.hub.scopeRooms userId scope = ∅ ∧ w.hub.scopeWorkspaces userId scope = ∅ then
      some (w.setHub (w.hub.bumpEpoch userId), next)
    else some (w.setHub (w.hub.bumpEpoch userId),
      .allowedRooms userId (w.hub.scopeRooms userId scope)
        (w.hub.scopeWorkspaces userId scope) next)
  | .allowedRooms userId rooms workspaces next =>
    if ok then some (w, .allowedWorkspaces userId rooms workspaces
      (rooms.filter (fun id => w.may userId (.room id))) next)
    else some (w, next)
  | .allowedWorkspaces userId rooms workspaces allowed next =>
    if ok then some (w, .removeDisallowed userId rooms workspaces allowed
      (workspaces.filter (fun id => w.may userId (.workspace id))) next)
    else some (w, next)
  | .removeDisallowed userId rooms workspaces allowedRooms allowedWorkspaces next =>
    some (w.setHub (w.hub.drop (w.hub.byUser.at_ userId)
        (fun _ => disallowed rooms workspaces allowedRooms allowedWorkspaces)),
      releasing (w.hub.dropped (w.hub.byUser.at_ userId)
        (fun _ => disallowed rooms workspaces allowedRooms allowedWorkspaces)) next)
  | .deliver ev =>
    some ({ w with sent := w.sent ++ [(ev, w.hub.targets ev)] },
      if ev.closedRooms = [] then .done else .closeRooms ev.closedRooms)
  | .closeRooms roomIds =>
    some (w.setHub (w.hub.drop (w.hub.closedSubscribers roomIds) (w.hub.inClosed roomIds)),
      releasing (w.hub.dropped (w.hub.closedSubscribers roomIds) (w.hub.inClosed roomIds)) .done)
  | .release _ _ => none
  | .done => none

/-- Give one channel back. -/
def releaseStep (ch : Channel) (w : World) : HubTask → Option (World × HubTask)
  | .release channels next =>
    if ch ∈ channels then
      some ({ w with released := ch ::ₘ w.released }, releasing (channels.erase ch) next)
    else none
  | _ => none

/-! ## What a step can do -/

/-- A call that may return here without having done anything. -/
def HubTask.MayReturn : HubTask → Prop
  | .registerStart _ => True
  | .registerAcquire _ => True
  | .subscribe _ _ => True
  | .authorize _ _ _ => True
  | .acquire _ _ _ _ => True
  | .unsubscribe _ _ => True
  | .unregister _ => True
  | _ => False

/-- **The steps of a call**, by what they do: the place a call is at, the world
and the place after, and what was the case for the call to go there. -/
inductive Moves (home : Ulid → Ulid) (ok : Bool) (w : World) : HubTask → World → HubTask → Prop
  | ends {t} (h : t.MayReturn) : Moves home ok w t w .done
  | registerStart (id) : Moves home ok w (.registerStart id) w (.registerAcquire id)
  | registerAcquire (id) :
    Moves home ok w (.registerAcquire id) (w.acquire (.user id.userId)) (.registerEnter id)
  | registerRefused (id) : Moves home ok w (.registerEnter id) w (releasing {.user id.userId} .done)
  | registerEnter (id) : Moves home ok w (.registerEnter id) (w.setHub (w.hub.register id)) .done
  | subscribe (c t) (hreg : (w.hub.records c).registered = true) :
    Moves home ok w (.subscribe c t) w (.authorize c t (w.hub.epochs (w.hub.userOf c)))
  | authorize (c t epoch workspaceId) (hmay : w.may (w.hub.userOf c) t = true)
      (hhome : ∀ r, t = .room r → workspaceId = home r) :
    Moves home ok w (.authorize c t epoch) w (.acquire c t epoch workspaceId)
  | acquire (c t epoch workspaceId) :
    Moves home ok w (.acquire c t epoch workspaceId) (w.acquire t.channel)
      (.enter c t epoch workspaceId)
  | retry (c t epoch workspaceId) :
    Moves home ok w (.enter c t epoch workspaceId) w (releasing {t.channel} (.subscribe c t))
  | notAdded (c t epoch workspaceId) :
    Moves home ok w (.enter c t epoch workspaceId) w (releasing {t.channel} .done)
  | enter (c t epoch workspaceId) (hepoch : w.hub.epochs (w.hub.userOf c) = epoch)
      (hreg : (w.hub.records c).registered = true)
      (hsub : (w.hub.records c).subscribed t = false) :
    Moves home ok w (.enter c t epoch workspaceId) (w.setHub (w.hub.enter c t workspaceId)) .done
  | unsubscribe (c t) (hsub : (w.hub.records c).subscribed t = true) :
    Moves home ok w (.unsubscribe c t) (w.setHub (w.hub.unsubscribeLocked c t))
      (releasing {t.channel} .done)
  | unregister (c) (hreg : (w.hub.records c).registered = true) :
    Moves home ok w (.unregister c) (w.setHub (w.hub.unregister c))
      (releasing (w.hub.unregisterChannels c) .unregistered)
  | unregistered : Moves home ok w .unregistered (w.setHub w.hub.finishUnregister) .done
  | nobody (userId scope next) (hnone : w.hub.byUser userId = none) :
    Moves home ok w (.revalidate userId scope next) w next
  | nothing (userId scope next) (hrooms : w.hub.scopeRooms userId scope = ∅)
      (hworkspaces : w.hub.scopeWorkspaces userId scope = ∅) :
    Moves home ok w (.revalidate userId scope next) (w.setHub (w.hub.bumpEpoch userId)) next
  | revalidate (userId scope next) :
    Moves home ok w (.revalidate userId scope next) (w.setHub (w.hub.bumpEpoch userId))
      (.allowedRooms userId (w.hub.scopeRooms userId scope)
        (w.hub.scopeWorkspaces userId scope) next)
  | allowedRooms (userId rooms workspaces next) :
    Moves home ok w (.allowedRooms userId rooms workspaces next) w
      (.allowedWorkspaces userId rooms workspaces
        (rooms.filter (fun id => w.may userId (.room id))) next)
  | allowedRoomsFailed (userId rooms workspaces next) (hok : ok = false) :
    Moves home ok w (.allowedRooms userId rooms workspaces next) w next
  | allowedWorkspaces (userId rooms workspaces allowed next) :
    Moves home ok w (.allowedWorkspaces userId rooms workspaces allowed next) w
      (.removeDisallowed userId rooms workspaces allowed
        (workspaces.filter (fun id => w.may userId (.workspace id))) next)
  | allowedWorkspacesFailed (userId rooms workspaces allowed next) (hok : ok = false) :
    Moves home ok w (.allowedWorkspaces userId rooms workspaces allowed next) w next
  | removeDisallowed (userId rooms workspaces allowedRooms allowedWorkspaces next) : Moves home ok w
      (.removeDisallowed userId rooms workspaces allowedRooms allowedWorkspaces next)
      (w.setHub (w.hub.drop (w.hub.byUser.at_ userId)
        (fun _ => disallowed rooms workspaces allowedRooms allowedWorkspaces)))
      (releasing (w.hub.dropped (w.hub.byUser.at_ userId)
        (fun _ => disallowed rooms workspaces allowedRooms allowedWorkspaces)) next)
  | deliver (ev) (hclosed : ev.closedRooms = []) :
    Moves home ok w (.deliver ev) { w with sent := w.sent ++ [(ev, w.hub.targets ev)] } .done
  | deliverClosed (ev) :
    Moves home ok w (.deliver ev) { w with sent := w.sent ++ [(ev, w.hub.targets ev)] }
      (.closeRooms ev.closedRooms)
  | closeRooms (roomIds) : Moves home ok w (.closeRooms roomIds)
      (w.setHub (w.hub.drop (w.hub.closedSubscribers roomIds) (w.hub.inClosed roomIds)))
      (releasing (w.hub.dropped (w.hub.closedSubscribers roomIds) (w.hub.inClosed roomIds)) .done)

/-- **The step lemma**: a step of a call is one of these. -/
theorem moves_of_taskStep {home : Ulid → Ulid} {ok : Bool} {w w' : World} {t t' : HubTask}
    (h : taskStep home ok w t = some (w', t')) : Moves home ok w t w' t' := by
  cases t with
  | registerStart id =>
    cases h
    split
    · exact .ends trivial
    · exact .registerStart id
  | registerAcquire id =>
    simp only [taskStep] at h
    split at h <;> cases h
    · exact .registerAcquire id
    · exact .ends trivial
  | registerEnter id =>
    simp only [taskStep] at h
    split at h <;> cases h
    · exact .registerRefused id
    · exact .registerEnter id
  | subscribe c topic =>
    simp only [taskStep] at h
    split at h
    · cases h
      exact .ends trivial
    · next hnew =>
      split at h <;> cases h
      · exact .ends trivial
      · refine .subscribe c topic ?_
        by_contra hreg
        exact hnew (by simp [hreg])
  | authorize c topic epoch =>
    simp only [taskStep] at h
    split at h <;> cases h
    · next hmay =>
      refine .authorize c topic epoch _ (Bool.and_eq_true_iff.mp hmay).2 ?_
      rintro r rfl
      rfl
    · exact .ends trivial
  | acquire c topic epoch workspaceId =>
    simp only [taskStep] at h
    split at h <;> cases h
    · exact .acquire c topic epoch workspaceId
    · exact .ends trivial
  | enter c topic epoch workspaceId =>
    simp only [taskStep] at h
    split at h
    · cases h
      exact .retry c topic epoch workspaceId
    · next hepoch =>
      split at h <;> cases h
      · next hadded =>
        obtain ⟨hreg, hsub⟩ := Bool.and_eq_true_iff.mp hadded
        exact .enter c topic epoch workspaceId (not_not.mp hepoch) hreg (by simpa using hsub)
      · exact .notAdded c topic epoch workspaceId
  | unsubscribe c topic =>
    simp only [taskStep] at h
    split at h <;> cases h
    · next hsub => exact .unsubscribe c topic hsub
    · exact .ends trivial
  | unregister c =>
    simp only [taskStep] at h
    split at h <;> cases h
    · next hreg => exact .unregister c hreg
    · exact .ends trivial
  | unregistered =>
    cases h
    exact .unregistered
  | revalidate userId scope next =>
    simp only [taskStep] at h
    split at h
    · next hnone =>
      cases h
      exact .nobody userId scope _ hnone
    · split at h <;> cases h
      · next hempty => exact .nothing userId scope _ hempty.1 hempty.2
      · exact .revalidate userId scope next
  | allowedRooms userId rooms workspaces next =>
    simp only [taskStep] at h
    split at h <;> cases h
    · exact .allowedRooms userId rooms workspaces next
    · next hok => exact .allowedRoomsFailed userId rooms workspaces _ (Bool.eq_false_iff.mpr hok)
  | allowedWorkspaces userId rooms workspaces allowed next =>
    simp only [taskStep] at h
    split at h <;> cases h
    · exact .allowedWorkspaces userId rooms workspaces allowed next
    · next hok =>
      exact .allowedWorkspacesFailed userId rooms workspaces allowed _ (Bool.eq_false_iff.mpr hok)
  | removeDisallowed userId rooms workspaces allowedRooms allowedWorkspaces next =>
    cases h
    exact .removeDisallowed userId rooms workspaces allowedRooms allowedWorkspaces next
  | deliver ev =>
    cases h
    split
    · next hclosed => exact .deliver ev hclosed
    · exact .deliverClosed ev
  | closeRooms roomIds =>
    cases h
    exact .closeRooms roomIds
  | _ => exact absurd h (by simp [taskStep])

/-- What giving back one channel is. -/
theorem releaseStep_eq_some {ch : Channel} {w w' : World} {t t' : HubTask}
    (h : releaseStep ch w t = some (w', t')) :
    ∃ channels next, t = .release channels next ∧ ch ∈ channels
      ∧ w' = { w with released := ch ::ₘ w.released }
      ∧ t' = releasing (channels.erase ch) next := by
  unfold releaseStep at h
  split at h
  · next channels next =>
    split at h
    · next hmem =>
      cases h
      exact ⟨channels, next, rfl, hmem, rfl, rfl⟩
    · cases h
  · cases h

/-! ## Runs -/

/-- What the server calls on the hub. -/
inductive Call
  | register (id : Identity)
  | unregister (c : ClientId)
  | subscribe (c : ClientId) (t : Topic)
  | unsubscribe (c : ClientId) (t : Topic)
  | deliverLocal (ev : HubEvent)
  | revalidate (userIds : List Ulid)
  deriving DecidableEq

namespace Call

/-- Revalidate the users whose permissions changed, one after the other, before
the event is delivered. -/
def deliverLocalTask (ev : HubEvent) : HubTask :=
  ev.accessChanges.foldr (fun ch next => .revalidate ch.userId (some ch.workspaceId) next)
    (.deliver ev)

/-- Revalidate users, one after the other. -/
def revalidateTask (userIds : List Ulid) : HubTask :=
  userIds.foldr (fun userId next => .revalidate userId none next) .done

/-- Where a call begins. -/
def start : Call → HubTask
  | .register id => .registerStart id
  | .unregister c => .unregister c
  | .subscribe c t => .subscribe c t
  | .unsubscribe c t => .unsubscribe c t
  | .deliverLocal ev => deliverLocalTask ev
  | .revalidate userIds => revalidateTask userIds

/-- A call names connections that there are. -/
def Known (h : Hub) : Call → Prop
  | .unregister c => c < h.next
  | .subscribe c _ => c < h.next
  | .unsubscribe c _ => c < h.next
  | _ => True

instance (h : Hub) (call : Call) : Decidable (Known h call) := by
  unfold Known
  split <;> infer_instance

end Call

/-- An instance: what the calls share, and where each of them is. -/
structure HubState where
  world : World
  tasks : List HubTask

/-- What happens to an instance: it is called, a call takes a step, it begins
to shut down, or a permission changes in the database. -/
inductive HubAction
  | call (c : Call)
  | advance (i : ℕ) (ok : Bool)
  | release (i : ℕ) (ch : Channel)
  | shutdown
  | grant (userId : Ulid) (t : Topic)
  | withdraw (userId : Ulid) (t : Topic)
  deriving DecidableEq

namespace HubState

/-- Change one permission. -/
def setMay (s : HubState) (userId : Ulid) (t : Topic) (allowed : Bool) : HubState :=
  { s with world := { s.world with
      may := Function.update s.world.may userId (Function.update (s.world.may userId) t allowed) } }

/-- One step of an instance. -/
def step (home : Ulid → Ulid) (s : HubState) : HubAction → Option HubState
  | .call c => if c.Known s.world.hub then some { s with tasks := s.tasks ++ [c.start] } else none
  | .advance i ok =>
    (Threads.stepAt (taskStep home ok) s.world s.tasks i).map fun next => ⟨next.1, next.2⟩
  | .release i ch =>
    (Threads.stepAt (releaseStep ch) s.world s.tasks i).map fun next => ⟨next.1, next.2⟩
  | .shutdown => some { s with world := s.world.setHub s.world.hub.shutdown }
  | .grant userId t => some (s.setMay userId t true)
  | .withdraw userId t => some (s.setMay userId t false)

end HubState

/-- **What a step of an instance is**: a call begins, a call takes a step or
gives a channel back, or the hub or a permission changes under the calls. -/
theorem HubState.step_cases {home : Ulid → Ulid} {s s' : HubState} {a : HubAction}
    (h : s.step home a = some s') :
    (∃ c, a = .call c ∧ c.Known s.world.hub ∧ s' = { s with tasks := s.tasks ++ [c.start] }) ∨
    (∃ i ok t t' w, a = .advance i ok ∧ s.tasks[i]? = some t ∧ Moves home ok s.world t w t'
      ∧ s' = ⟨w, s.tasks.set i t'⟩) ∨
    (∃ i ch channels next, a = .release i ch ∧ s.tasks[i]? = some (.release channels next)
      ∧ ch ∈ channels ∧ s' = ⟨{ s.world with released := ch ::ₘ s.world.released },
        s.tasks.set i (releasing (channels.erase ch) next)⟩) ∨
    (a = .shutdown ∧ s' = { s with world := s.world.setHub s.world.hub.shutdown }) ∨
    (∃ userId t, a = .grant userId t ∧ s' = s.setMay userId t true) ∨
    (∃ userId t, a = .withdraw userId t ∧ s' = s.setMay userId t false) := by
  cases a with
  | call c =>
    simp only [HubState.step] at h
    split at h
    · next hknown => exact .inl ⟨c, rfl, hknown, (Option.some.inj h).symm⟩
    · cases h
  | advance i ok =>
    obtain ⟨⟨w, tasks⟩, hstep, rfl⟩ := Option.map_eq_some_iff.mp h
    obtain ⟨t, t', ht, hmove, rfl⟩ := Threads.stepAt_eq_some hstep
    exact .inr (.inl ⟨i, ok, t, t', w, rfl, ht, moves_of_taskStep hmove, rfl⟩)
  | release i ch =>
    obtain ⟨⟨w, tasks⟩, hstep, rfl⟩ := Option.map_eq_some_iff.mp h
    obtain ⟨t, t', ht, hmove, rfl⟩ := Threads.stepAt_eq_some hstep
    obtain ⟨channels, next, rfl, hmem, rfl, rfl⟩ := releaseStep_eq_some hmove
    exact .inr (.inr (.inl ⟨i, ch, channels, next, rfl, ht, hmem, rfl⟩))
  | shutdown => exact .inr (.inr (.inr (.inl ⟨rfl, (Option.some.inj h).symm⟩)))
  | grant userId t =>
    exact .inr (.inr (.inr (.inr (.inl ⟨userId, t, rfl, (Option.some.inj h).symm⟩))))
  | withdraw userId t =>
    exact .inr (.inr (.inr (.inr (.inr ⟨userId, t, rfl, (Option.some.inj h).symm⟩))))

/-- A hub without connections. -/
def Hub.empty : Hub where
  records := fun _ => ⟨⟨0, 0⟩, ∅, ∅, false⟩
  next := 0
  clients := ∅
  byUser := fun _ => none
  bySession := fun _ => none
  roomSubs := fun _ => none
  workspaceSubs := fun _ => none
  epochs := fun _ => 0
  shuttingDown := false
  unregistering := 0
  drainClosed := false

/-- **The hub as a transition system**: any calls, any interleaving of their
steps, and permissions that change at any moment. -/
def hubSystem (home : Ulid → Ulid) : TransitionSystem HubState HubAction where
  init s := s.world.hub = Hub.empty ∧ s.world.acquired = 0 ∧ s.world.released = 0 ∧ s.tasks = []
  step := HubState.step home

end Hibari
