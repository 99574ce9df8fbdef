import Hibari.TransitionSystem
import Hibari.Message

/-!
# Sending messages of one room

What the user types is shown at once and sent in order, one message at a time
(`store/send.ts`). Three things have to agree: the messages that are shown as
pending or failed, the queue of their ids, and the loop that sends them and is
suspended while it waits for an answer. Meanwhile messages are added, sent
again, thrown away or confirmed by an event, and the queue may be deleted and
made anew under the loop's feet; so a queue has an identity here, and the loop
remembers the one it took its message from.

Every answer confirms its message, also one that arrives after the loop has
stopped waiting: a request stays in flight until it is answered.

The log remembers what was enqueued, posted, confirmed, failed and dropped.
Read from it, `outstanding` are the messages that were enqueued and that
nothing has become of yet; that they are just what the queue holds of the
shown messages is the invariant the order of sending rests on.
-/

namespace Hibari

open List Option

/-- A message is being sent, or could not be. -/
inductive OutgoingStatus
  | pending
  | failed
  deriving DecidableEq

/-- A message of the user that is not confirmed. -/
structure OutgoingMessage where
  clientMsgId : Ulid
  body : String
  threadRootId : Option Ulid
  alsoInChannel : Bool
  attachments : List Ulid
  suppressedLinkPreviewUrls : List String
  status : OutgoingStatus
  createdAt : DateTime
  deriving DecidableEq

/-- What the user typed. -/
structure SendInput where
  body : String
  attachments : List Ulid
  threadRootId : Option Ulid
  alsoInChannel : Bool
  suppressedLinkPreviewUrls : List String
  deriving DecidableEq

/-- The request that posts a message; what does not apply is left out. -/
structure SendRequest where
  clientMsgId : Ulid
  body : String
  thread : Option (Ulid × Bool)
  attachmentIds : Option (List Ulid)
  suppressedLinkPreviewUrls : Option (List String)
  deriving DecidableEq

/-- The request of a message. -/
def sendRequest (item : OutgoingMessage) : SendRequest where
  clientMsgId := item.clientMsgId
  body := item.body
  thread := item.threadRootId.map (fun rootId => (rootId, item.alsoInChannel))
  attachmentIds := if item.attachments = [] then none else some item.attachments
  suppressedLinkPreviewUrls :=
    if item.suppressedLinkPreviewUrls = [] then none else some item.suppressedLinkPreviewUrls

/-- The message that is shown for what the user typed. -/
def newOutgoing (clientMsgId : Ulid) (createdAt : DateTime) (input : SendInput) :
    OutgoingMessage where
  clientMsgId := clientMsgId
  body := input.body
  threadRootId := input.threadRootId
  alsoInChannel := input.threadRootId.isSome && input.alsoInChannel
  attachments := input.attachments
  suppressedLinkPreviewUrls := input.suppressedLinkPreviewUrls
  status := .pending
  createdAt := createdAt

/-- A queue of ids, and which queue it is. -/
structure SendQueue where
  ref : ℕ
  items : List Ulid
  deriving DecidableEq

/-- How the wait for an answer ended. -/
inductive RaceOutcome
  | resolved
  | rejected
  | timedOut
  deriving DecidableEq

/-- The loop, suspended: the queue it took a message from, the message, the
request it waits for, and how the wait ended, if it did. -/
structure SendLoop where
  queue : ℕ
  item : Ulid
  post : ℕ
  outcome : Option RaceOutcome
  deriving DecidableEq

/-- A request that was made, and whether it was answered. -/
structure Post where
  request : SendRequest
  answered : Bool
  deriving DecidableEq

/-- What is worth remembering about a message. -/
inductive OutboxEvent
  | enqueued (id : Ulid)
  | posted (id : Ulid)
  | confirmed (id : Ulid)
  | failed (id : Ulid)
  | dropped (id : Ulid)
  deriving DecidableEq

/-- The room's part of the store and of the sending module. The last three
fields remember the messages that were ever sent, those that were taken away,
and what happened, the last first. -/
structure Outbox where
  userId : Ulid
  outgoing : List OutgoingMessage
  sendQueue : Option SendQueue
  /-- Whether the room has an entry in `sendLoops`. -/
  sendLoops : Bool
  loop : Option SendLoop
  posts : List Post
  nextQueue : ℕ
  sent : List Ulid
  removed : List Ulid
  log : List OutboxEvent
  deriving DecidableEq

namespace Outbox

/-- Take away the messages of an id. -/
def remove (id : Ulid) (s : Outbox) : Outbox :=
  { s with
    outgoing := s.outgoing.filter (fun m => decide (m.clientMsgId ≠ id))
    removed := s.removed ++
      (s.outgoing.filter (fun m => decide (m.clientMsgId = id))).map OutgoingMessage.clientMsgId }

/-- An own message is confirmed: the shown one gives way to it. -/
def confirm (id : Ulid) (s : Outbox) : Outbox :=
  { s.remove id with log := .confirmed id :: s.log }

/-- A message arrives, as the answer to a request or as an event. -/
def receiveMessage (message : Message) (created : Bool) (s : Outbox) : Outbox :=
  if created && decide (message.sender.id = s.userId) then s.confirm message.clientMsgId else s

/-- The first message of a queue that is still to be sent, and the queue from
there on: what was confirmed or thrown away meanwhile is skipped. -/
def nextPending (outgoing : List OutgoingMessage) : List Ulid → Option (OutgoingMessage × List Ulid)
  | [] => none
  | id :: rest =>
    match outgoing.find? (fun m => decide (m.clientMsgId = id)) with
    | none => nextPending outgoing rest
    | some item =>
      if item.status ≠ .pending then nextPending outgoing rest else some (item, id :: rest)

/-- Post a message and wait for the answer. -/
def sendOne (queue : SendQueue) (item : OutgoingMessage) (s : Outbox) : Outbox :=
  { s with
    sendQueue := some queue
    posts := s.posts ++ [⟨sendRequest item, false⟩]
    loop := some ⟨queue.ref, item.clientMsgId, s.posts.length, none⟩
    log := .posted item.clientMsgId :: s.log }

/-- The loop runs on, to its next request or to its end. -/
def iterate (s : Outbox) : Outbox :=
  match s.sendQueue with
  | none => { s with loop := none, sendLoops := false }
  | some queue =>
    match nextPending s.outgoing queue.items with
    | none => { s with sendQueue := some ⟨queue.ref, []⟩, loop := none, sendLoops := false }
    | some (item, items) => s.sendOne ⟨queue.ref, items⟩ item

/-- Start the loop, unless there is one. The entry is made after the loop has
run to its first request. -/
def runSendQueue (s : Outbox) : Outbox :=
  if s.sendLoops then s else { s.iterate with sendLoops := true }

/-- Fail what is queued. -/
def failQueue (s : Outbox) : Outbox :=
  let queued := (s.sendQueue.map SendQueue.items).getD []
  let fails (m : OutgoingMessage) : Bool :=
    decide (m.clientMsgId ∈ queued) && decide (m.status = .pending)
  { s with
    sendQueue := none
    outgoing := s.outgoing.map (fun m => if fails m then { m with status := .failed } else m)
    log := (s.outgoing.filter fails).map (fun m => .failed m.clientMsgId) ++ s.log }

/-- Queue a message, in a new queue if there is none. -/
def enqueueSend (clientMsgId : Ulid) (s : Outbox) : Outbox :=
  let queue := s.sendQueue.getD ⟨s.nextQueue, []⟩
  runSendQueue { s with
      sendQueue := some ⟨queue.ref, queue.items ++ [clientMsgId]⟩
      nextQueue := s.nextQueue + 1
      log := .enqueued clientMsgId :: s.log }

/-- Throw everything away, since the user can no longer post here. -/
def dropOutgoing (s : Outbox) : Outbox :=
  { s with
    sendQueue := none
    outgoing := []
    removed := s.removed ++ s.outgoing.map OutgoingMessage.clientMsgId
    log := s.outgoing.map (fun m => .dropped m.clientMsgId) ++ s.log }

/-- Send a message. -/
def sendMessage (clientMsgId : Ulid) (createdAt : DateTime) (input : SendInput) (s : Outbox) :
    Outbox :=
  enqueueSend clientMsgId { s with
      outgoing := s.outgoing ++ [newOutgoing clientMsgId createdAt input]
      sent := s.sent ++ [clientMsgId] }

/-- Send a failed message again. -/
def retryMessage (clientMsgId : Ulid) (s : Outbox) : Outbox :=
  match s.outgoing.find? (fun m => decide (m.clientMsgId = clientMsgId)) with
  | none => s
  | some item =>
    if item.status ≠ .failed then s
    else
      enqueueSend clientMsgId { s with outgoing := s.outgoing.map (fun m =>
            if m.clientMsgId = clientMsgId then { m with status := .pending } else m) }

/-- Throw a failed message away. -/
def discardMessage (clientMsgId : Ulid) (s : Outbox) : Outbox :=
  if s.outgoing.any (fun m => decide (m.clientMsgId = clientMsgId ∧ m.status = .failed)) then
    s.remove clientMsgId
  else s

/-- Take the first id off a queue, if it is still the room's. -/
def shift (ref : ℕ) (s : Outbox) : Outbox :=
  { s with sendQueue := s.sendQueue.map (fun queue =>
      if queue.ref = ref then ⟨queue.ref, queue.items.tail⟩ else queue) }

/-- The wait for a request is over, unless it was before. -/
def settleRace (post : ℕ) (outcome : RaceOutcome) (s : Outbox) : Outbox :=
  { s with loop := s.loop.map (fun loop =>
      if loop.post = post ∧ loop.outcome = none then { loop with outcome := some outcome } else loop) }

/-- The loop goes on after its wait. -/
def resume (loop : SendLoop) (outcome : RaceOutcome) (s : Outbox) : Outbox :=
  match outcome with
  | .resolved => (s.shift loop.queue).iterate
  | .rejected => s.failQueue.iterate
  | .timedOut => s.failQueue.iterate

/-- A request is answered. -/
def answer (post : ℕ) (s : Outbox) : Outbox :=
  { s with posts := s.posts.modify post (fun p => { p with answered := true }) }

end Outbox

/-- What can happen next. -/
inductive OutboxAction
  | sendMessage (clientMsgId : Ulid) (createdAt : DateTime) (input : SendInput)
  | retryMessage (clientMsgId : Ulid)
  | discardMessage (clientMsgId : Ulid)
  | dropOutgoing
  | posted (post : ℕ) (message : Message)
  | postFailed (post : ℕ)
  | timedOut
  | resume
  | created (message : Message)
  deriving DecidableEq

namespace Outbox

/-- One step. An id is made for one message only, and the answer to a request
is the user's own message of that id. -/
def step (s : Outbox) : OutboxAction → Option Outbox
  | .sendMessage id createdAt input =>
    if id ∉ s.sent ∧ .confirmed id ∉ s.log then some (s.sendMessage id createdAt input) else none
  | .retryMessage id => some (s.retryMessage id)
  | .discardMessage id => some (s.discardMessage id)
  | .dropOutgoing => some s.dropOutgoing
  | .posted i message =>
    match s.posts[i]? with
    | none => none
    | some post =>
      if post.answered = false ∧ message.clientMsgId = post.request.clientMsgId ∧
          message.sender.id = s.userId then
        some (((s.answer i).receiveMessage message true).settleRace i .resolved)
      else none
  | .postFailed i =>
    match s.posts[i]? with
    | none => none
    | some post =>
      if post.answered = false then some ((s.answer i).settleRace i .rejected) else none
  | .timedOut =>
    match s.loop with
    | none => none
    | some loop => if loop.outcome = none then some (s.settleRace loop.post .timedOut) else none
  | .resume =>
    match s.loop with
    | none => none
    | some loop => loop.outcome.map (fun outcome => s.resume loop outcome)
  | .created message => some (s.receiveMessage message true)

/-- A room in which nothing was sent. -/
def Unsent (s : Outbox) : Prop :=
  s.outgoing = [] ∧ s.sendQueue = none ∧ s.sendLoops = false ∧ s.loop = none ∧ s.posts = [] ∧
    s.sent = [] ∧ s.removed = [] ∧ s.log = []

/-- The room as a transition system. -/
def system : TransitionSystem Outbox OutboxAction where
  init := Unsent
  step := step

end Outbox

/-! ## What nothing has become of yet -/

/-- Whether an event ends the wait of a message. -/
def OutboxEvent.ends (id : Ulid) (e : OutboxEvent) : Bool :=
  decide (e = .confirmed id ∨ e = .failed id ∨ e = .dropped id)

/-- **The outstanding messages**, in the order in which they were enqueued:
neither confirmed since, nor failed, nor dropped. -/
def outstanding : List OutboxEvent → List Ulid
  | [] => []
  | .enqueued id :: earlier => outstanding earlier ++ [id]
  | .posted _ :: earlier => outstanding earlier
  | .confirmed id :: earlier => (outstanding earlier).filter (fun x => decide (x ≠ id))
  | .failed id :: earlier => (outstanding earlier).filter (fun x => decide (x ≠ id))
  | .dropped id :: earlier => (outstanding earlier).filter (fun x => decide (x ≠ id))

/-- Only the first of the outstanding messages is posted, and only what is not
outstanding is enqueued. -/
structure Orderly (log : List OutboxEvent) : Prop where
  posted : ∀ later id earlier, log = later ++ .posted id :: earlier →
    (outstanding earlier).head? = some id
  enqueued : ∀ later id earlier, log = later ++ .enqueued id :: earlier → id ∉ outstanding earlier

/-- **Messages are posted in order**: once a message was enqueued, one that was
enqueued later is posted only after the first was confirmed, failed or
dropped. -/
def PostedInOrder (log : List OutboxEvent) : Prop :=
  ∀ later second between first earlier,
    log = later ++ .posted second :: (between ++ .enqueued first :: earlier) →
    .enqueued second ∈ between → ∃ e ∈ between, e.ends first = true

/-- **A message that failed is posted only when it was sent again.** -/
def PostedAgain (log : List OutboxEvent) : Prop :=
  ∀ later id between earlier, log = later ++ .posted id :: (between ++ .failed id :: earlier) →
    .enqueued id ∈ between

section Log

variable {log between earlier : List OutboxEvent} {id : Ulid} {e : OutboxEvent}
  {new : List OutboxEvent} {first : Ulid}

theorem Orderly.of_append (h : Orderly (new ++ log)) : Orderly log where
  posted later x earlier hlog :=
    h.posted (new ++ later) x earlier (by rw [hlog, append_assoc])
  enqueued later x earlier hlog :=
    h.enqueued (new ++ later) x earlier (by rw [hlog, append_assoc])

theorem Orderly.of_cons (h : Orderly (e :: log)) : Orderly log :=
  show Orderly log from Orderly.of_append (singleton_append ▸ h)

/-- One more event. -/
theorem Orderly.cons (h : Orderly log)
    (hposted : ∀ id, e = .posted id → (outstanding log).head? = some id)
    (henqueued : ∀ id, e = .enqueued id → id ∉ outstanding log) : Orderly (e :: log) where
  posted later x earlier hlog := by
    cases later with
    | nil =>
      rw [nil_append, List.cons.injEq] at hlog
      exact hlog.2 ▸ hposted x hlog.1 | cons _ later =>
      rw [cons_append, List.cons.injEq] at hlog
      exact h.posted later x earlier hlog.2
  enqueued later x earlier hlog := by
    cases later with
    | nil =>
      rw [nil_append, List.cons.injEq] at hlog
      exact hlog.2 ▸ henqueued x hlog.1
    | cons _ later =>
      rw [cons_append, List.cons.injEq] at hlog
      exact h.enqueued later x earlier hlog.2

/-- More events that post and enqueue nothing. -/
theorem Orderly.append (h : Orderly log)
    (hnew : ∀ x ∈ new, ∀ id, x ≠ .posted id ∧ x ≠ .enqueued id) : Orderly (new ++ log) := by
  induction new with
  | nil => exact h
  | cons x _ ih =>
    have hx := hnew x (.head _)
    exact (ih fun y hy => hnew y (.tail _ hy)).cons
      (fun id hid => absurd hid (hx id).1) fun id hid => absurd hid (hx id).2

/-- Many messages that are ended at once. -/
theorem outstanding_map_append {f : Ulid → OutboxEvent}
    (hf : ∀ id log, outstanding (f id :: log) = (outstanding log).filter (fun x => decide (x ≠ id)))
    (ids : List Ulid) (log : List OutboxEvent) :
    outstanding (ids.map f ++ log) = (outstanding log).filter (fun x => decide (x ∉ ids)) := by
  induction ids with
  | nil => simp
  | cons _ _ ih =>
    rw [map_cons, cons_append, hf, ih, List.filter_filter]
    refine filter_congr fun x _ => ?_
    rw [← Bool.decide_and, decide_eq_decide, mem_cons, not_or]

/-- What is outstanding was so before, or was enqueued just now. -/
theorem mem_outstanding_cons (h : id ∈ outstanding (e :: log)) :
    id ∈ outstanding log ∨ e = .enqueued id := by cases e with
  | enqueued =>
    cases mem_append.mp h with
    | inl h => exact .inl h
    | inr h => exact .inr (congrArg _ (mem_singleton.mp h).symm)
  | posted => exact .inl h
  | _ => exact .inl (mem_filter.mp h).1

theorem notMem_outstanding_of_ends (h : e.ends id = true) : id ∉ outstanding (e :: log) := by
  rcases of_decide_eq_true h with rfl | rfl | rfl <;>
    exact fun hmem => absurd (mem_filter.mp hmem).2 (by simp)

/-- After an end, a message is outstanding only when it was enqueued again. -/
theorem enqueued_of_mem_outstanding (h : id ∈ outstanding (between ++ e :: earlier))
    (he : e.ends id = true) : .enqueued id ∈ between := by
  induction between with
  | nil => exact absurd h (notMem_outstanding_of_ends he)
  | cons _ _ ih =>
    cases mem_outstanding_cons h with
    | inl h => exact .tail _ (ih h)
    | inr hx => exact hx ▸ (.head _)

/-- An event that does not end the wait of a message keeps it in its place
among the others. -/
theorem outstanding_cons_split {before after : List Ulid}
    (hsplit : outstanding log = before ++ first :: after) (he : e.ends first = false) :
    ∃ before' after', outstanding (e :: log) = before' ++ first :: after' ∧
      ∀ x ∈ before', x ∈ before := by
  have hkeep : ∀ x, x ≠ first → ∃ before' after',
      (outstanding log).filter (fun y => decide (y ≠ x)) = before' ++ first :: after' ∧
        ∀ y ∈ before', y ∈ before := by
    intro x hx
    refine ⟨before.filter (fun y => decide (y ≠ x)), after.filter (fun y => decide (y ≠ x)), ?_,
      fun y hy => (mem_filter.mp hy).1⟩
    have hfirst : decide (first ≠ x) = true := decide_eq_true hx.symm
    rw [hsplit, filter_append, filter_cons, if_pos hfirst]
  have hne := of_decide_eq_false he
  cases e with
  | enqueued x =>
    refine ⟨before, after ++ [x], ?_, fun _ => id⟩
    show outstanding log ++ [x] = _
    rw [hsplit, append_assoc, cons_append]
  | posted => exact ⟨before, after, hsplit, fun _ => id⟩
  | confirmed x => exact hkeep x fun hx => hne (.inl (congrArg _ hx))
  | failed x => exact hkeep x fun hx => hne (.inr (.inl (congrArg _ hx)))
  | dropped x => exact hkeep x fun hx => hne (.inr (.inr (congrArg _ hx)))

/-- **A message keeps its place**: as long as nothing ends its wait, it is
outstanding, and what is enqueued after it is not in front of it. -/
theorem outstanding_split (h : Orderly (between ++ .enqueued first :: earlier))
    (hnone : ∀ x ∈ between, x.ends first = false) :
    ∃ before after, outstanding (between ++ .enqueued first :: earlier) = before ++ first :: after ∧
      ∀ x, .enqueued x ∈ between → x ∉ before := by
  induction between with
  | nil => exact ⟨_, [], rfl, nofun⟩
  | cons e between ih =>
    obtain ⟨before, after, hsplit, hafter⟩ := ih h.of_cons fun x hx =>
      hnone x (.tail _ hx)
    obtain ⟨before', after', hsplit', hsub⟩ :=
      outstanding_cons_split hsplit (hnone e (.head _))
    refine ⟨before', after', hsplit', fun x hx hmem => ?_⟩
    cases mem_cons.mp hx with
    | inl hx => -- what is enqueued now was not outstanding
      subst hx
      refine h.enqueued [] x (between ++ .enqueued first :: earlier) rfl ?_
      rw [hsplit]
      exact mem_append_left _ (hsub x hmem) | inr hx => exact hafter x hx (hsub x hmem)

theorem Orderly.postedInOrder (h : Orderly log) : PostedInOrder log := by
  intro later second between first earlier hlog hsecond
  by_contra! hnone
  have hhead := h.posted later second _ hlog
  rw [hlog] at h
  have hrest : Orderly (between ++ .enqueued first :: earlier) := h.of_append.of_cons
  obtain ⟨before, after, hsplit, hafter⟩ := outstanding_split hrest fun x hx =>
    Bool.eq_false_iff.mpr (hnone x hx)
  rw [hsplit] at hhead
  cases before with
  | nil =>
    -- the first one would have been enqueued again while it waits
    obtain rfl : first = second := some.inj hhead
    obtain ⟨newer, older, rfl⟩ := append_of_mem hsecond
    rw [append_assoc, cons_append] at hrest
    have hrest' : Orderly (older ++ .enqueued first :: earlier) := hrest.of_append.of_cons
    obtain ⟨before, after, hsplit', -⟩ := outstanding_split hrest' fun x hx =>
      Bool.eq_false_iff.mpr (hnone x (mem_append_right _ (.tail _ hx)))
    refine hrest.enqueued newer first (older ++ .enqueued first :: earlier) rfl ?_
    rw [hsplit']
    exact mem_append_right _ (.head _)
  | cons x =>
    obtain rfl : x = second := some.inj hhead
    exact hafter x hsecond (.head _)

theorem Orderly.postedAgain (h : Orderly log) : PostedAgain log := by
  intro later id between earlier hlog
  have hhead := h.posted later id _ hlog
  exact enqueued_of_mem_outstanding (mem_of_mem_head? hhead) (decide_eq_true (.inr (.inl rfl)))

end Log

namespace Outbox

variable {s s' : Outbox} {id : Ulid} {m : OutgoingMessage}

/-! ## What the store, the queue and the log agree on -/

/-- The ids of the shown messages. -/
def shown (s : Outbox) : List Ulid := s.outgoing.map OutgoingMessage.clientMsgId

/-- The ids in the room's queue. -/
def queued (s : Outbox) : List Ulid := (s.sendQueue.map SendQueue.items).getD []

/-- **The store, the queue and the log agree**: each message that was sent is
shown or was taken away, once; a message that is queued and shown is pending;
and what is queued and shown is what is outstanding. -/
structure Agrees (s : Outbox) : Prop where
  accounted : (s.shown ++ s.removed).Perm s.sent
  sent : s.sent.Nodup
  nodup : s.queued.Nodup
  known : ∀ id ∈ s.queued, id ∈ s.sent
  pending : ∀ m ∈ s.outgoing, m.clientMsgId ∈ s.queued → m.status = .pending
  confirmed : ∀ id, .confirmed id ∈ s.log → id ∉ s.shown
  outstanding : outstanding s.log = s.queued.filter (fun id => decide (id ∈ s.shown))
  orderly : Orderly s.log

/-- The pending messages are queued. -/
def AllQueued (s : Outbox) : Prop :=
  ∀ m ∈ s.outgoing, m.status = .pending → m.clientMsgId ∈ s.queued

theorem mem_shown (hm : m ∈ s.outgoing) : m.clientMsgId ∈ s.shown :=
  List.mem_map_of_mem hm

theorem exists_of_mem_shown (h : id ∈ s.shown) : ∃ m ∈ s.outgoing, m.clientMsgId = id :=
  List.mem_map.mp h

theorem shown_remove (id : Ulid) (s : Outbox) :
    (s.remove id).shown = s.shown.filter (fun x => decide (x ≠ id)) := by
  show (s.outgoing.filter _).map _ = (s.outgoing.map _).filter _
  rw [List.filter_map]
  rfl

theorem removed_remove (id : Ulid) (s : Outbox) :
    (s.remove id).removed = s.removed ++ s.shown.filter (fun x => decide (x = id)) := by
  show s.removed ++ (s.outgoing.filter _).map _ = s.removed ++ (s.outgoing.map _).filter _
  rw [List.filter_map]
  rfl

/-- What is taken away is accounted for. -/
theorem accounted_remove (h : (s.shown ++ s.removed).Perm s.sent) (id : Ulid) :
    ((s.remove id).shown ++ (s.remove id).removed).Perm s.sent := by
  rw [shown_remove, removed_remove]
  refine List.Perm.trans ?_ h
  have hsplit : (s.shown.filter (fun x => decide (x ≠ id)) ++
      s.shown.filter (fun x => decide (x = id))).Perm s.shown := by
    have hfilter := filter_append_perm (fun x => decide (x ≠ id)) s.shown
    simpa using hfilter
  refine (perm_append_comm.append_left _).trans ?_
  rw [← append_assoc]
  exact hsplit.append_right _

/-- A confirmed message is outstanding no more. -/
theorem Agrees.confirm (h : s.Agrees) (id : Ulid) : (s.confirm id).Agrees where
  accounted := accounted_remove h.accounted id
  sent := h.sent
  nodup := h.nodup
  known := h.known
  pending m hm := h.pending m (mem_filter.mp hm).1
  confirmed x hx hmem := by
    change x ∈ (s.remove id).shown at hmem
    rw [shown_remove, mem_filter] at hmem
    cases mem_cons.mp hx with
    | inl hx => exact absurd (OutboxEvent.confirmed.inj hx) (of_decide_eq_true hmem.2)
    | inr hx => exact h.confirmed x hx hmem.1
  outstanding := by
    show (Hibari.outstanding s.log).filter _ = s.queued.filter _
    rw [h.outstanding, List.filter_filter]
    refine filter_congr fun x _ => ?_
    show _ = decide (x ∈ (s.remove id).shown)
    rw [shown_remove, ← Bool.decide_and, decide_eq_decide, mem_filter, decide_eq_true_iff]
    exact And.comm
  orderly := h.orderly.cons (fun _ he => by cases he) fun _ he => by cases he

/-- A failed message may be thrown away: it is not queued. -/
theorem Agrees.discardMessage (h : s.Agrees) (id : Ulid) : (s.discardMessage id).Agrees := by
  unfold Outbox.discardMessage
  split
  · rename_i hfailed
    obtain ⟨m, hm, hprops⟩ := List.any_eq_true.mp hfailed
    obtain ⟨hid, hstatus⟩ := of_decide_eq_true hprops
    have hnot : id ∉ s.queued := fun hmem => by
      have hpending := h.pending m hm (hid ▸ hmem)
      rw [hstatus] at hpending
      cases hpending
    refine ⟨accounted_remove h.accounted id, h.sent, h.nodup, h.known,
      fun x hx => h.pending x (mem_filter.mp hx).1, fun x hx hmem => ?_, ?_, h.orderly⟩
    · rw [shown_remove, mem_filter] at hmem
      exact h.confirmed x hx hmem.1
    · refine h.outstanding.trans (filter_congr fun x hx => ?_)
      rw [shown_remove, decide_eq_decide, mem_filter, decide_eq_true_iff]
      exact ⟨fun hmem => ⟨hmem, fun hxid => hnot (hxid ▸ hx)⟩, And.left⟩
  · exact h

theorem Agrees.dropOutgoing (h : s.Agrees) : s.dropOutgoing.Agrees where
  accounted := by
    show (s.removed ++ s.shown).Perm s.sent
    exact perm_append_comm.trans h.accounted
  sent := h.sent
  nodup := nodup_nil
  known x hx := nomatch hx
  pending m hm := nomatch hm
  confirmed x _ hmem := nomatch hmem
  outstanding := by
    have hlog : s.outgoing.map (fun m => OutboxEvent.dropped m.clientMsgId) = s.shown.map .dropped :=
      List.map_map.symm
    show Hibari.outstanding (s.outgoing.map (fun m => .dropped m.clientMsgId) ++ s.log) = []
    rw [hlog, outstanding_map_append fun _ _ => rfl, h.outstanding, List.filter_filter]
    refine filter_eq_nil_iff.mpr fun x _ hx => ?_
    obtain ⟨hnot, hmem⟩ := (Bool.and_eq_true _ _).mp hx
    exact of_decide_eq_true hnot (of_decide_eq_true hmem)
  orderly := h.orderly.append fun x hx id => by
    obtain ⟨m, -, rfl⟩ := List.mem_map.mp hx
    exact ⟨by simp, by simp⟩

theorem shown_failQueue (s : Outbox) : s.failQueue.shown = s.shown := by
  show (s.outgoing.map _).map _ = s.outgoing.map _
  rw [List.map_map]
  refine map_congr_left fun m _ => ?_
  show (if _ then { m with status := OutgoingStatus.failed } else m : OutgoingMessage).clientMsgId = _
  split <;> rfl

/-- What is queued is outstanding no more after it was failed. -/
theorem Agrees.failQueue (h : s.Agrees) : s.failQueue.Agrees where
  accounted := by
    rw [shown_failQueue]
    exact h.accounted
  sent := h.sent
  nodup := nodup_nil
  known x hx := nomatch hx
  pending m _ hmem := nomatch hmem
  confirmed x hx := by
    rw [shown_failQueue]
    refine h.confirmed x ((mem_append.mp hx).resolve_left fun hfailed => ?_)
    obtain ⟨m, -, hm⟩ := List.mem_map.mp hfailed
    cases hm
  outstanding := by
    let fails (m : OutgoingMessage) : Bool :=
      decide (m.clientMsgId ∈ s.queued) && decide (m.status = .pending)
    have hlog : (s.outgoing.filter fails).map (fun m => OutboxEvent.failed m.clientMsgId) =
        ((s.outgoing.filter fails).map OutgoingMessage.clientMsgId).map .failed :=
      List.map_map.symm
    show Hibari.outstanding ((s.outgoing.filter fails).map (fun m => .failed m.clientMsgId) ++ s.log)
      = []
    rw [hlog, outstanding_map_append fun _ _ => rfl, h.outstanding, List.filter_filter]
    refine filter_eq_nil_iff.mpr fun x hx hkept => ?_
    obtain ⟨hnot, hmem⟩ := (Bool.and_eq_true _ _).mp hkept
    obtain ⟨m, hm, rfl⟩ := exists_of_mem_shown (of_decide_eq_true hmem)
    refine of_decide_eq_true hnot (List.mem_map_of_mem (mem_filter.mpr ⟨hm, ?_⟩))
    exact (Bool.and_eq_true _ _).mpr ⟨decide_eq_true hx, decide_eq_true (h.pending m hm hx)⟩
  orderly := h.orderly.append fun x hx id => by
    obtain ⟨m, -, rfl⟩ := List.mem_map.mp hx
    exact ⟨by simp, by simp⟩

/-- **All that is pending is failed together.** -/
theorem failed_of_mem_failQueue (hq : s.AllQueued)
    (hm : m ∈ s.failQueue.outgoing) : m.status = .failed := by
  obtain ⟨x, hx, rfl⟩ := List.mem_map.mp hm
  by_cases hpending : x.status = .pending
  · have hfails : (decide (x.clientMsgId ∈ s.queued) && decide (x.status = .pending)) = true :=
      (Bool.and_eq_true _ _).mpr ⟨decide_eq_true (hq x hx hpending), decide_eq_true hpending⟩
    exact (congrArg OutgoingMessage.status (if_pos hfails)).trans rfl
  · have hfailed : x.status = .failed := by
      cases hstatus : x.status with
      | pending => exact absurd hstatus hpending
      | failed => rfl
    split
    · rfl
    · exact hfailed

theorem queued_shift (s : Outbox) (ref : ℕ) : (s.shift ref).queued = s.queued ∨
    ∃ queue, s.sendQueue = some queue ∧ queue.ref = ref ∧ s.queued = queue.items ∧
      (s.shift ref).queued = queue.items.tail := by
  unfold queued Outbox.shift
  cases hqueue : s.sendQueue with
  | none => exact .inl rfl
  | some queue =>
    by_cases href : queue.ref = ref
    · refine .inr ⟨queue, rfl, href, rfl, ?_⟩
      show ((some (if queue.ref = ref then _ else queue)).map SendQueue.items).getD [] = _
      rw [if_pos href]
      rfl
    · refine .inl ?_
      show ((some (if queue.ref = ref then _ else queue)).map SendQueue.items).getD [] = _
      rw [if_neg href]

/-- A message that is shown no more may be taken off the queue. -/
theorem Agrees.shift (h : s.Agrees) {ref : ℕ}
    (hhead : ∀ queue, s.sendQueue = some queue → queue.ref = ref →
      ∃ id, queue.items.head? = some id ∧ id ∉ s.shown) :
    (s.shift ref).Agrees ∧ (s.AllQueued → (s.shift ref).AllQueued) := by
  rcases queued_shift s ref with hsame | ⟨queue, hqueue, href, hitems, htail⟩
  · refine ⟨⟨h.accounted, h.sent, ?_, ?_, ?_, h.confirmed, ?_, h.orderly⟩, fun hq m hm hstatus => ?_⟩
    · rw [hsame]
      exact h.nodup
    · rw [hsame]
      exact h.known
    · rw [hsame]
      exact h.pending
    · rw [hsame]
      exact h.outstanding
    · rw [hsame]
      exact hq m hm hstatus
  · obtain ⟨id, hid, hnot⟩ := hhead queue hqueue href
    have hcons : s.queued = id :: (s.shift ref).queued := by
      rw [hitems, htail]
      exact eq_cons_of_mem_head? hid
    have hnodup := h.nodup
    have hout := h.outstanding
    rw [hcons] at hnodup hout
    refine ⟨⟨h.accounted, h.sent, (nodup_cons.mp hnodup).2, fun x hx => ?_, fun m hm hx => ?_,
      h.confirmed, ?_, h.orderly⟩, fun hq m hm hstatus => ?_⟩
    · exact h.known x (hcons ▸ .tail _ hx)
    · exact h.pending m hm (hcons ▸ .tail _ hx)
    · refine hout.trans ?_
      rw [filter_cons, if_neg (by simpa using hnot)]
      rfl
    · have hmem := hq m hm hstatus
      rw [hcons] at hmem
      refine (mem_cons.mp hmem).resolve_left fun hmid => hnot ?_
      exact hmid ▸ mem_shown hm

/-! ## The loop -/

section Loop

variable {outgoing : List OutgoingMessage} {items : List Ulid}

/-- What the loop skips is not shown, and what it stops at is pending. -/
theorem nextPending_cases (hpending : ∀ m ∈ outgoing, m.clientMsgId ∈ items → m.status = .pending) :
    (nextPending outgoing items = none ∧ ∀ m ∈ outgoing, m.clientMsgId ∉ items) ∨
    ∃ item skipped rest, nextPending outgoing items = some (item, item.clientMsgId :: rest) ∧
      item ∈ outgoing ∧ items = skipped ++ item.clientMsgId :: rest ∧
      ∀ m ∈ outgoing, m.clientMsgId ∉ skipped := by
  induction items with
  | nil => exact .inl ⟨rfl, fun _ _ => not_mem_nil⟩
  | cons id rest ih =>
    have hrest := ih fun m hm hmem => hpending m hm (.tail _ hmem)
    cases hfind : outgoing.find? (fun m => decide (m.clientMsgId = id)) with
    | none =>
      have hnot : ∀ m ∈ outgoing, m.clientMsgId ≠ id := fun m hm hid =>
        find?_eq_none.mp hfind m hm (decide_eq_true hid)
      have hstep : nextPending outgoing (id :: rest) = nextPending outgoing rest := by
        show (match outgoing.find? _ with | none => _ | some item => _) = _
        rw [hfind]
      rw [hstep]
      rcases hrest with ⟨hnone, hall⟩ | ⟨item, skipped, rest', hsome, hitem, hsplit, hall⟩
      · refine .inl ⟨hnone, fun m hm hmem => ?_⟩
        exact (mem_cons.mp hmem).elim (hnot m hm) (hall m hm)
      · refine .inr ⟨item, id :: skipped, rest', hsome, hitem, by rw [hsplit]; rfl,
          fun m hm hmem => ?_⟩
        exact (mem_cons.mp hmem).elim (hnot m hm) (hall m hm)
    | some item =>
      have hitem := mem_of_find?_eq_some hfind
      obtain rfl : item.clientMsgId = id := by simpa using find?_some hfind
      have hstatus := hpending item hitem (.head _)
      refine .inr ⟨item, [], rest, ?_, hitem, rfl, fun _ _ => not_mem_nil⟩
      show (match outgoing.find? _ with | none => _ | some item => _) = _
      rw [hfind]
      exact if_neg (not_not.mpr hstatus)

end Loop

variable {loop : SendLoop} {outcome : RaceOutcome}

/-- What the loop waits with: a queue that was made before, whose first id is
the one that was posted, if it is still the room's – and once the answer is
there, the message is shown no more. -/
structure Waits (s : Outbox) (loop : SendLoop) : Prop where
  fresh : loop.queue < s.nextQueue
  sent : loop.item ∈ s.sent
  head : ∀ queue, s.sendQueue = some queue → queue.ref = loop.queue →
    queue.items.head? = some loop.item
  post : ∃ p, s.posts[loop.post]? = some p ∧ p.request.clientMsgId = loop.item
  resolved : loop.outcome = some .resolved → loop.item ∉ s.shown

/-- **The outbox is sound**: the store, the queue and the log agree, all that
is pending is queued, and there is a loop as long as something is pending. -/
structure Sound (s : Outbox) : Prop where
  agrees : s.Agrees
  queued : s.AllQueued
  running : s.sendLoops = s.loop.isSome
  idle : s.loop = none → ∀ m ∈ s.outgoing, m.status ≠ .pending
  waits : ∀ loop, s.loop = some loop → s.Waits loop
  fresh : ∀ queue, s.sendQueue = some queue → queue.ref < s.nextQueue

/-- A queue whose skipped front is gone. -/
theorem Agrees.of_skipped (h : s.Agrees) {queue : SendQueue} (hqueue : s.sendQueue = some queue)
    {skipped items : List Ulid} (hitems : queue.items = skipped ++ items)
    (hskipped : ∀ m ∈ s.outgoing, m.clientMsgId ∉ skipped) :
    ({ s with sendQueue := some ⟨queue.ref, items⟩ } : Outbox).Agrees := by
  have hqueued : s.queued = skipped ++ items := by
    unfold Outbox.queued
    rw [hqueue]
    exact hitems
  have hnodup := h.nodup
  have hout := h.outstanding
  rw [hqueued] at hnodup hout
  refine ⟨h.accounted, h.sent, (nodup_append.mp hnodup).2.1, fun x hx => ?_, fun m hm hx => ?_,
    h.confirmed, ?_, h.orderly⟩
  · exact h.known x (hqueued ▸ mem_append_right _ hx)
  · exact h.pending m hm (hqueued ▸ mem_append_right _ hx)
  · refine hout.trans ?_
    rw [filter_append]
    have hnone : skipped.filter (fun id => decide (id ∈ s.shown)) = [] := by
      refine filter_eq_nil_iff.mpr fun x hx hmem => ?_
      obtain ⟨m, hm, rfl⟩ := exists_of_mem_shown (of_decide_eq_true hmem)
      exact hskipped m hm hx
    rw [hnone]
    rfl

/-- **The loop runs on** to its end, when nothing is pending, or to the first
message that is pending – which is the first that is outstanding. -/
theorem sound_iterate (h : s.Agrees) (hq : s.AllQueued)
    (hfresh : ∀ queue, s.sendQueue = some queue → queue.ref < s.nextQueue) (entry : s.sendLoops = true) :
    s.iterate.Sound := by
  unfold iterate
  split
  · rename_i hnone
    have hempty : s.queued = [] := by
      unfold Outbox.queued
      rw [hnone]
      rfl
    refine ⟨{ h with }, hq, rfl, fun _ m hm hstatus => ?_, fun _ hl => (nomatch hl), hfresh⟩
    exact absurd (hempty ▸ hq m hm hstatus) not_mem_nil
  · rename_i queue hqueue
    have hitems : s.queued = queue.items := by
      unfold Outbox.queued
      rw [hqueue]
      rfl
    have hpending : ∀ m ∈ s.outgoing, m.clientMsgId ∈ queue.items → m.status = .pending :=
      fun m hm hmem => h.pending m hm (hitems ▸ hmem)
    rcases nextPending_cases hpending with ⟨hnone, hall⟩ |
      ⟨item, skipped, rest, hsome, hitem, hsplit, hall⟩
    · rw [hnone]
      dsimp only
      have hidle : ∀ m ∈ s.outgoing, m.status ≠ .pending := fun m hm hstatus =>
        hall m hm (hitems ▸ hq m hm hstatus)
      have hagrees := h.of_skipped hqueue (append_nil _).symm hall
      refine ⟨{ hagrees with }, fun m hm hstatus => absurd hstatus (hidle m hm), rfl, fun _ => hidle,
        fun _ hl => (nomatch hl), fun q hq' => ?_⟩
      rw [← some.inj hq']
      exact hfresh queue hqueue
    · rw [hsome]
      dsimp only
      have hagrees := h.of_skipped hqueue hsplit hall
      have hfirst : (Hibari.outstanding s.log).head? = some item.clientMsgId := by
        rw [hagrees.outstanding]
        show ((item.clientMsgId :: rest).filter (fun id => decide (id ∈ s.shown))).head? = _
        rw [filter_cons, if_pos (decide_eq_true (mem_shown hitem))]
        rfl
      refine ⟨⟨h.accounted, h.sent, hagrees.nodup, hagrees.known, hagrees.pending, fun x hx => ?_,
        hagrees.outstanding, ?_⟩, fun m hm hstatus => ?_, entry, fun hl => absurd hl (by simp [sendOne]),
        fun l hl => ?_, fun q hq' => ?_⟩
      · exact h.confirmed x ((mem_cons.mp hx).resolve_left (by simp))
      · exact h.orderly.cons (fun id hid => OutboxEvent.posted.inj hid ▸ hfirst)
          fun id hid => by cases hid
      · have hmem := hq m hm hstatus
        rw [hitems, hsplit] at hmem
        exact (mem_append.mp hmem).resolve_left (hall m hm)
      · obtain rfl := some.inj hl
        refine ⟨hfresh queue hqueue, h.accounted.subset (mem_append_left _ (mem_shown hitem)),
          fun q hq' _ => ?_, ⟨_, getElem?_concat_length, rfl⟩, fun hres => by cases hres⟩
        rw [← some.inj hq']
        rfl
      · rw [← some.inj hq']
        exact hfresh queue hqueue

theorem iterate_outgoing (s : Outbox) : s.iterate.outgoing = s.outgoing := by
  unfold iterate
  split
  · rfl
  · split <;> rfl

/-- **The entry of the loop is right**: it is made after the first stretch of
the loop, which with a pending message does not run to the end. -/
theorem runSendQueue_eq (hentry : s.sendLoops = false)
    (hloop : (iterate { s with sendLoops := true }).loop ≠ none) :
    s.runSendQueue = iterate { s with sendLoops := true } := by
  unfold runSendQueue
  rw [if_neg (by rw [hentry]; decide)]
  unfold iterate at hloop ⊢
  split
  · rename_i hnone
    refine absurd ?_ hloop
    split
    · rfl
    · rename_i hsome
      cases hnone.symm.trans hsome
  · rename_i queue hqueue
    rw [hqueue] at hloop ⊢
    dsimp only at hloop ⊢
    split
    · rename_i hnone
      rw [hnone] at hloop
      exact absurd rfl hloop
    · rfl

/-- A message that is shown, pending and not queued is queued. -/
theorem Agrees.enqueue (h : s.Agrees) {id : Ulid} (hshown : id ∈ s.shown) (hnew : id ∉ s.queued)
    (hpending : ∀ m ∈ s.outgoing, m.clientMsgId = id → m.status = .pending) {ref next : ℕ}
    {entry : Bool} :
    ({ s with
      sendQueue := some ⟨ref, s.queued ++ [id]⟩
      nextQueue := next
      sendLoops := entry
      log := .enqueued id :: s.log } : Outbox).Agrees where
  accounted := h.accounted
  sent := h.sent
  nodup := by
    show (s.queued ++ [id]).Nodup
    exact nodup_append.mpr ⟨h.nodup, nodup_singleton _,
      fun x hx y hy hxy => hnew (mem_singleton.mp hy ▸ hxy ▸ hx)⟩
  known x hx := by
    cases mem_append.mp hx with
    | inl hx => exact h.known x hx
    | inr hx =>
      rw [mem_singleton.mp hx]
      exact h.accounted.subset (mem_append_left _ hshown)
  pending m hm hx := by
    cases mem_append.mp hx with
    | inl hx => exact h.pending m hm hx
    | inr hx => exact hpending m hm (mem_singleton.mp hx)
  confirmed x hx := h.confirmed x ((mem_cons.mp hx).resolve_left (by simp))
  outstanding := by
    show Hibari.outstanding s.log ++ [id] = (s.queued ++ [id]).filter (fun x => decide (x ∈ s.shown))
    rw [h.outstanding, filter_append]
    congr 1
    exact (filter_eq_self.mpr fun x hx =>
      decide_eq_true (mem_singleton.mp hx ▸ hshown)).symm
  orderly := by
    refine h.orderly.cons (fun _ he => by cases he) fun x hx hmem => ?_
    obtain rfl := OutboxEvent.enqueued.inj hx
    rw [h.outstanding] at hmem
    exact hnew (mem_filter.mp hmem).1

/-- What happened to the room before a message is queued: messages may have been
added or made pending again. -/
structure Prepared (s t : Outbox) (id : Ulid) : Prop where
  agrees : t.Agrees
  sendQueue : t.sendQueue = s.sendQueue
  sendLoops : t.sendLoops = s.sendLoops
  loop : t.loop = s.loop
  posts : t.posts = s.posts
  nextQueue : t.nextQueue = s.nextQueue
  shown : id ∈ t.shown
  notQueued : id ∉ s.queued
  pending : ∀ m ∈ t.outgoing, m.clientMsgId = id → m.status = .pending
  others : ∀ m ∈ t.outgoing, m.status = .pending → m.clientMsgId = id ∨ m.clientMsgId ∈ s.queued
  old : ∀ x ∈ t.shown, x ∈ s.shown ∨ x ∉ s.sent
  sent : ∀ x ∈ s.sent, x ∈ t.sent

/-- **Queueing a message keeps the outbox sound**, whether the loop is there or
is started now. -/
theorem Sound.enqueueSend (h : s.Sound) {t : Outbox} {id : Ulid} (ht : Prepared s t id) :
    (t.enqueueSend id).Sound := by
  have hqueued : t.queued = s.queued := congrArg (fun q => (q.map SendQueue.items).getD []) ht.sendQueue
  have hitems : (t.sendQueue.getD ⟨t.nextQueue, []⟩).items = t.queued := by
    unfold Outbox.queued
    cases t.sendQueue <;> rfl
  have hnew : id ∉ t.queued := hqueued ▸ ht.notQueued
  have hall : ∀ m ∈ t.outgoing, m.status = .pending → m.clientMsgId ∈ t.queued ++ [id] := by
    intro m hm hstatus
    cases ht.others m hm hstatus with
    | inl hid => exact mem_append_right _ (mem_singleton.mpr hid)
    | inr hmem => exact mem_append_left _ (hqueued ▸ hmem)
  have hfresh : (t.sendQueue.getD ⟨t.nextQueue, []⟩).ref < t.nextQueue + 1 := by
    rw [ht.sendQueue]
    cases hqueue : s.sendQueue with
    | none => exact Nat.lt_succ_self _
    | some queue => exact (ht.nextQueue ▸ h.fresh queue hqueue).trans (Nat.lt_succ_self _)
  unfold Outbox.enqueueSend
  dsimp only
  rw [hitems]
  cases hloop : s.loop with
  | none =>
    have hentry : t.sendLoops = false := by
      rw [ht.sendLoops, h.running, hloop]
      rfl
    have hiterate := sound_iterate (ht.agrees.enqueue ht.shown hnew ht.pending) hall
      (fun q hq => by rw [← some.inj hq]; exact hfresh) rfl
    have hstart := runSendQueue_eq (s := { t with
      sendQueue := some ⟨(t.sendQueue.getD ⟨t.nextQueue, []⟩).ref, t.queued ++ [id]⟩
      nextQueue := t.nextQueue + 1
      log := .enqueued id :: t.log }) hentry
    rw [hstart]
    · exact hiterate
    · -- the message itself is pending, so the loop does not end
      intro hnone
      obtain ⟨m, hm, hid⟩ := exists_of_mem_shown ht.shown
      refine hiterate.idle hnone m ?_ (ht.pending m hm hid)
      rw [iterate_outgoing]
      exact hm
  | some loop =>
    have hentry : t.sendLoops = true := by
      rw [ht.sendLoops, h.running, hloop]
      rfl
    have hw := h.waits loop hloop
    unfold runSendQueue
    rw [if_pos hentry]
    refine ⟨ht.agrees.enqueue ht.shown hnew ht.pending, hall, hentry.trans ?_, fun hnone => ?_,
      fun l hl => ?_, fun q hq => by rw [← some.inj hq]; exact hfresh⟩
    · show true = t.loop.isSome
      rw [ht.loop, hloop]
      rfl
    · cases (ht.loop.trans hloop).symm.trans hnone
    · obtain rfl : loop = l := some.inj ((ht.loop.trans hloop).symm.trans hl)
      refine ⟨hw.fresh.trans_le (ht.nextQueue ▸ Nat.le_succ _), ht.sent _ hw.sent, fun q hq href => ?_,
        ?_, fun hres hmem => (ht.old _ hmem).elim (hw.resolved hres) fun hnot => hnot hw.sent⟩
      · rw [← some.inj hq] at href ⊢
        rw [hqueued]
        cases hqueue : s.sendQueue with
        | none =>
          -- the new queue is not the one the loop remembers
          rw [ht.sendQueue, hqueue] at href
          exact absurd (ht.nextQueue ▸ href.symm) hw.fresh.ne
        | some queue =>
          rw [ht.sendQueue, hqueue] at href
          have hhead := hw.head queue hqueue href
          have hsame : s.queued = queue.items := by
            unfold Outbox.queued
            rw [hqueue]
            rfl
          rw [hsame, head?_append, hhead]
          rfl
      · show ∃ p, t.posts[loop.post]? = some p ∧ _
        rw [ht.posts]
        exact hw.post

/-! ## Every step -/

/-- A message that was not shown before is prepared to be queued. -/
theorem Sound.sendMessage (h : s.Sound) {id : Ulid} (hnew : id ∉ s.sent)
    (hunconfirmed : .confirmed id ∉ s.log) (createdAt : DateTime) (input : SendInput) :
    (s.sendMessage id createdAt input).Sound := by
  let item := newOutgoing id createdAt input
  have hshown : ({ s with
      outgoing := s.outgoing ++ [item], sent := s.sent ++ [id] } : Outbox).shown = s.shown ++ [id] := by
    show (s.outgoing ++ [item]).map _ = s.outgoing.map _ ++ [id]
    rw [map_append]
    rfl
  have hold : ∀ x ∈ s.shown, x ∈ s.sent := fun x hx =>
    h.agrees.accounted.subset (mem_append_left _ hx)
  have hqueue : id ∉ s.queued := fun hmem => hnew (h.agrees.known id hmem)
  refine h.enqueueSend ⟨⟨?_, ?_, h.agrees.nodup, fun x hx => ?_, fun m hm hx => ?_, fun x hx => ?_,
    ?_, h.agrees.orderly⟩, rfl, rfl, rfl, rfl, rfl, ?_, hqueue, fun m hm hid => ?_, fun m hm hs => ?_,
    fun x hx => ?_, fun x hx => mem_append_left _ hx⟩
  · rw [hshown]
    refine List.Perm.trans ?_ (h.agrees.accounted.append_right [id])
    rw [append_assoc, append_assoc]
    exact perm_append_comm.append_left _
  · exact nodup_append.mpr ⟨h.agrees.sent, nodup_singleton _,
      fun x hx y hy hxy => hnew (mem_singleton.mp hy ▸ hxy ▸ hx)⟩
  · exact mem_append_left _ (h.agrees.known x hx)
  · cases mem_append.mp hm with
    | inl hm => exact h.agrees.pending m hm hx
    | inr hm => rw [mem_singleton.mp hm]; rfl
  · rw [hshown, mem_append, not_or]
    exact ⟨h.agrees.confirmed x hx, fun hmem => hunconfirmed (mem_singleton.mp hmem ▸ hx)⟩
  · refine h.agrees.outstanding.trans (filter_congr fun x hx => ?_)
    rw [hshown, decide_eq_decide, mem_append]
    exact ⟨.inl, fun hmem => hmem.resolve_right fun hid =>
      hqueue (mem_singleton.mp hid ▸ hx)⟩
  · rw [hshown]
    exact mem_append_right _ (.head _)
  · cases mem_append.mp hm with
    | inl hm => exact absurd (hold _ (hid ▸ mem_shown hm)) hnew
    | inr hm => rw [mem_singleton.mp hm]; rfl
  · cases mem_append.mp hm with
    | inl hm => exact .inr (h.queued m hm hs)
    | inr hm => rw [mem_singleton.mp hm]; exact .inl rfl
  · rw [hshown] at hx
    refine (mem_append.mp hx).imp_right fun hid => ?_
    rw [mem_singleton.mp hid]
    exact hnew

/-- A failed message is not queued, and may be queued again. -/
theorem Sound.retryMessage (h : s.Sound) (id : Ulid) : (s.retryMessage id).Sound := by
  unfold Outbox.retryMessage
  split
  · exact h
  · rename_i item hfind
    split
    · exact h
    · rename_i hfailed
      have hitem := mem_of_find?_eq_some hfind
      obtain rfl : item.clientMsgId = id := by simpa using find?_some hfind
      have hstatus : item.status = .failed := not_not.mp hfailed
      have hqueue : item.clientMsgId ∉ s.queued := fun hmem => by
        have hpending := h.agrees.pending item hitem hmem
        rw [hstatus] at hpending
        cases hpending
      have hmember : ∀ m ∈ s.outgoing.map (fun m => if m.clientMsgId = item.clientMsgId then
          { m with status := .pending } else m), ∃ x ∈ s.outgoing, m.clientMsgId = x.clientMsgId ∧
            (m.status = x.status ∨ m.clientMsgId = item.clientMsgId) ∧
            (m.clientMsgId = item.clientMsgId → m.status = .pending) := by
        intro m hm
        obtain ⟨x, hx, rfl⟩ := List.mem_map.mp hm
        refine ⟨x, hx, ?_⟩
        by_cases hid : x.clientMsgId = item.clientMsgId
        · rw [if_pos hid]
          exact ⟨rfl, .inr hid, fun _ => rfl⟩
        · rw [if_neg hid]
          exact ⟨rfl, .inl rfl, fun hx => absurd hx hid⟩
      have hshown : ({ s with outgoing := s.outgoing.map (fun m =>
          if m.clientMsgId = item.clientMsgId then { m with status := .pending } else m) } :
            Outbox).shown = s.shown := by
        show (s.outgoing.map _).map _ = s.outgoing.map _
        rw [List.map_map]
        refine map_congr_left fun m _ => ?_
        show (if _ then { m with status := OutgoingStatus.pending } else m : OutgoingMessage).clientMsgId = _
        split <;> rfl
      refine h.enqueueSend ⟨⟨?_, h.agrees.sent, h.agrees.nodup, h.agrees.known, fun m hm hx => ?_,
        fun x hx => ?_, ?_, h.agrees.orderly⟩, rfl, rfl, rfl, rfl, rfl, ?_, hqueue, fun m hm hid => ?_,
        fun m hm hs => ?_, fun x hx => .inl (hshown ▸ hx), fun _ hx => hx⟩
      · rw [hshown]
        exact h.agrees.accounted
      · obtain ⟨x, hxmem, hid, hsame, hpending⟩ := hmember m hm
        cases hsame with
        | inl hsame => exact hsame.trans (h.agrees.pending x hxmem (hid ▸ hx))
        | inr hsame => exact hpending hsame
      · rw [hshown]
        exact h.agrees.confirmed x hx
      · rw [hshown]
        exact h.agrees.outstanding
      · rw [hshown]
        exact mem_shown hitem
      · obtain ⟨_, _, _, _, hpending⟩ := hmember m hm
        exact hpending hid
      · obtain ⟨x, hxmem, hid, hsame, -⟩ := hmember m hm
        cases hsame with
        | inl hsame =>
          refine .inr ?_
          rw [hid]
          exact h.queued x hxmem (hsame ▸ hs)
        | inr hsame => exact .inl hsame

/-- Taking messages away keeps what the loop waits with. -/
theorem Waits.of_shown (h : s.Waits loop) (hqueue : s'.sendQueue = s.sendQueue)
    (hnext : s'.nextQueue = s.nextQueue) (hposts : s'.posts = s.posts) (hsent : s'.sent = s.sent)
    (hshown : ∀ x ∈ s'.shown, x ∈ s.shown) : s'.Waits loop where
  fresh := hnext ▸ h.fresh
  sent := hsent ▸ h.sent
  head := hqueue ▸ h.head
  post := hposts ▸ h.post
  resolved hres hmem := h.resolved hres (hshown _ hmem)

theorem mem_shown_remove {x : Ulid} (h : x ∈ (s.remove id).shown) : x ∈ s.shown := by
  rw [shown_remove] at h
  exact (mem_filter.mp h).1

variable (h : s.Sound)
include h

theorem Sound.confirm (id : Ulid) : (s.confirm id).Sound where
  agrees := h.agrees.confirm id
  queued m hm := h.queued m (mem_filter.mp hm).1
  running := h.running
  idle hnone m hm := h.idle hnone m (mem_filter.mp hm).1
  waits l hl := (h.waits l hl).of_shown rfl rfl rfl rfl fun _ => mem_shown_remove
  fresh := h.fresh

theorem Sound.receiveMessage (message : Message) (created : Bool) :
    (s.receiveMessage message created).Sound := by
  unfold Outbox.receiveMessage
  split
  · exact h.confirm _
  · exact h

theorem Sound.discardMessage (id : Ulid) : (s.discardMessage id).Sound := by
  have hagrees := h.agrees.discardMessage id
  unfold Outbox.discardMessage at hagrees ⊢
  split at hagrees
  · rename_i hfailed
    rw [if_pos hfailed]
    exact ⟨hagrees, fun m hm => h.queued m (mem_filter.mp hm).1, h.running,
      fun hnone m hm => h.idle hnone m (mem_filter.mp hm).1,
      fun l hl => (h.waits l hl).of_shown rfl rfl rfl rfl fun _ => mem_shown_remove, h.fresh⟩
  · rename_i hfailed
    rw [if_neg hfailed]
    exact h

theorem Sound.dropOutgoing : s.dropOutgoing.Sound where
  agrees := h.agrees.dropOutgoing
  queued m hm := nomatch hm
  running := h.running
  idle _ m hm := nomatch hm
  waits l hl :=
    { h.waits l hl with
      head := fun q hq => absurd hq (by simp [Outbox.dropOutgoing])
      resolved := nofun }
  fresh q hq := absurd hq (by simp [Outbox.dropOutgoing])

/-- An answer leaves the requests what they were. -/
theorem Sound.answer (i : ℕ) : (s.answer i).Sound := by
  refine ⟨{ h.agrees with }, h.queued, h.running, h.idle, fun l hl => ?_, h.fresh⟩
  have hw := h.waits l hl
  obtain ⟨p, hp, hid⟩ := hw.post
  refine ⟨hw.fresh, hw.sent, hw.head, ?_, hw.resolved⟩
  refine ⟨if i = l.post then { p with answered := true } else p, ?_, ?_⟩
  · show (s.posts.modify i _)[l.post]? = _
    rw [getElem?_modify, hp]
    by_cases hi : i = l.post <;> simp [hi]
  · split <;> exact hid

theorem Sound.settleRace (i : ℕ) (outcome : RaceOutcome)
    (hres : outcome = .resolved → ∀ loop, s.loop = some loop → loop.post = i →
      loop.item ∉ s.shown) : (s.settleRace i outcome).Sound := by
  refine ⟨{ h.agrees with }, h.queued, h.running.trans ?_, fun hnone => ?_, fun l hl => ?_, h.fresh⟩
  · show s.loop.isSome = (s.loop.map _).isSome
    rw [isSome_map]
  · exact h.idle (map_eq_none_iff.mp hnone)
  · obtain ⟨loop, hloop, hl⟩ := map_eq_some_iff.mp hl
    have hw := h.waits loop hloop
    by_cases hthis : loop.post = i ∧ loop.outcome = none
    · rw [if_pos hthis] at hl
      rw [← hl]
      refine ⟨hw.fresh, hw.sent, hw.head, hw.post, fun hresolved => ?_⟩
      exact hres (some.inj hresolved) loop hloop hthis.1
    · rw [if_neg hthis] at hl
      rw [← hl]
      exact ⟨hw.fresh, hw.sent, hw.head, hw.post, hw.resolved⟩

theorem Sound.resume (hloop : s.loop = some loop) (houtcome : loop.outcome = some outcome) :
    (s.resume loop outcome).Sound := by
  have hw := h.waits loop hloop
  have hentry : s.sendLoops = true := by
    rw [h.running, hloop]
    rfl
  have hfail : s.failQueue.iterate.Sound := by
    refine sound_iterate h.agrees.failQueue (fun m hm hstatus => ?_) (fun q hq => ?_) hentry
    · rw [failed_of_mem_failQueue h.queued hm] at hstatus
      cases hstatus
    · exact absurd hq (by simp [Outbox.failQueue])
  cases outcome with
  | resolved =>
    obtain ⟨hagrees, hall⟩ := h.agrees.shift fun queue hqueue href =>
      ⟨loop.item, hw.head queue hqueue href, hw.resolved houtcome⟩
    refine sound_iterate hagrees (hall h.queued) (fun q hq => ?_) hentry
    obtain ⟨queue, hqueue, hq⟩ := map_eq_some_iff.mp hq
    have href : q.ref = queue.ref := by
      rw [← hq]
      split <;> rfl
    rw [href]
    exact h.fresh queue hqueue
  | _ => exact hfail

/-- **Every step keeps the outbox sound.** -/
theorem Sound.step {a : OutboxAction} (hs : s.step a = some s') : s'.Sound := by
  cases a with
  | sendMessage _ createdAt input =>
    obtain ⟨⟨hnew, hunconfirmed⟩, hs⟩ := ite_none_right_eq_some.mp hs
    exact some.inj hs ▸ h.sendMessage hnew hunconfirmed createdAt input
  | retryMessage id => exact some.inj hs ▸ h.retryMessage id
  | discardMessage id => exact some.inj hs ▸ h.discardMessage id
  | dropOutgoing => exact some.inj hs ▸ h.dropOutgoing
  | posted i message =>
    unfold Outbox.step at hs
    dsimp only at hs
    split at hs
    · cases hs
    · rename_i post hpost
      obtain ⟨⟨-, hid, hsender⟩, hs⟩ := ite_none_right_eq_some.mp hs
      cases hs
      have hconfirm : (s.answer i).receiveMessage message true =
          (s.answer i).confirm message.clientMsgId := if_pos (decide_eq_true hsender)
      rw [hconfirm]
      refine ((h.answer i).confirm _).settleRace i .resolved fun _ loop hloop hthis hmem => ?_
      -- the answer belongs to the message that the loop waits for
      obtain ⟨p, hp, hpid⟩ := (h.waits loop hloop).post
      rw [hthis, hpost] at hp
      rw [← hpid, ← some.inj hp, ← hid] at hmem
      exact (h.answer i).confirm message.clientMsgId |>.agrees.confirmed message.clientMsgId
        (.head _) hmem
  | postFailed i =>
    unfold Outbox.step at hs
    dsimp only at hs
    split at hs
    · cases hs
    · obtain ⟨-, hs⟩ := ite_none_right_eq_some.mp hs
      exact some.inj hs ▸ (h.answer i).settleRace i .rejected (by simp)
  | timedOut =>
    unfold Outbox.step at hs
    dsimp only at hs
    split at hs
    · cases hs
    · obtain ⟨-, hs⟩ := ite_none_right_eq_some.mp hs
      exact some.inj hs ▸ h.settleRace _ .timedOut (by simp)
  | resume =>
    unfold Outbox.step at hs
    dsimp only at hs
    split at hs
    · cases hs
    · rename_i loop hloop
      obtain ⟨outcome, houtcome, hs⟩ := map_eq_some_iff.mp hs
      exact hs ▸ h.resume hloop houtcome
  | created message => exact some.inj hs ▸ h.receiveMessage message true

omit h

theorem sound_unsent (h : Unsent s) : s.Sound := by
  obtain ⟨hout, hqueue, hentry, hloop, hposts, hsent, hremoved, hlog⟩ := h
  have hshown : s.shown = [] := by
    unfold shown
    rw [hout]
    rfl
  have hqueued : s.queued = [] := by
    unfold Outbox.queued
    rw [hqueue]
    rfl
  refine ⟨⟨?_, ?_, ?_, ?_, ?_, ?_, ?_, ?_⟩, ?_, ?_, ?_, ?_, ?_⟩
  · rw [hshown, hremoved, hsent]
    exact List.Perm.refl _
  · rw [hsent]
    exact nodup_nil
  · rw [hqueued]
    exact nodup_nil
  · rw [hqueued]
    exact nofun
  · rw [hout]
    exact fun m hm => absurd hm not_mem_nil
  · rw [hlog]
    exact fun x hx => absurd hx not_mem_nil
  · rw [hlog, hqueued]
    rfl
  · rw [hlog]
    exact ⟨fun later x earlier he => absurd he (by simp), fun later x earlier he => absurd he (by simp)⟩
  · intro m hm
    rw [hout] at hm
    cases hm
  · rw [hentry, hloop]
    rfl
  · rw [hout]
    exact nofun
  · rw [hloop]
    exact nofun
  · rw [hqueue]
    exact nofun

theorem sound_of_reachable (h : system.Reachable s) : s.Sound :=
  h.invariant (I := Sound) (fun _ => sound_unsent) fun _ _ _ hI _ hs => hI.step hs

/-- **A failure fails what is queued**: when the loop goes on after a failure,
the same messages are shown as before, none of them is pending any more, and
nothing is queued. -/
theorem failed_of_resume (h : s.Sound) (houtcome : outcome ≠ .resolved) :
    (s.resume loop outcome).shown = s.shown ∧
      (∀ m ∈ (s.resume loop outcome).outgoing, m.status = .failed) ∧
      (s.resume loop outcome).sendQueue = none ∧ (s.resume loop outcome).loop = none := by
  have hresume : s.resume loop outcome = { s.failQueue with loop := none, sendLoops := false } := by
    cases outcome with
    | resolved => exact absurd rfl houtcome
    | _ => rfl
  rw [hresume]
  exact ⟨shown_failQueue s, fun m hm => failed_of_mem_failQueue h.queued hm, rfl, rfl⟩

/-- **The outbox, whatever happens.** In every state that a run reaches: each
pending message is in the room's queue, and a loop is running; messages were
posted in the order in which they were enqueued, each after those before it
were confirmed, failed or dropped; a message that failed was not posted unless
it was sent again, and the next failure fails all that is queued; and a message
that was confirmed was taken away once, and is not shown. -/
theorem outbox_in_order (h : system.Reachable s) : (∀ m ∈ s.outgoing, m.status = .pending →
      ∃ queue loop, s.sendQueue = some queue ∧ m.clientMsgId ∈ queue.items ∧ s.loop = some loop) ∧
    PostedInOrder s.log ∧
    (PostedAgain s.log ∧ ∀ loop outcome, s.loop = some loop → loop.outcome = some outcome →
      outcome ≠ .resolved → ∃ s', s.step .resume = some s' ∧ s'.shown = s.shown ∧
        (∀ m ∈ s'.outgoing, m.status = .failed) ∧ s'.sendQueue = none) ∧
    ∀ id ∈ s.sent, .confirmed id ∈ s.log → s.removed.count id = 1 ∧ id ∉ s.shown := by
  have hsound := sound_of_reachable h
  refine ⟨fun m hm hstatus => ?_, hsound.agrees.orderly.postedInOrder,
    ⟨hsound.agrees.orderly.postedAgain, fun loop outcome hloop houtcome hne => ?_⟩,
    fun id hid hconfirmed => ?_⟩
  · have hmem := hsound.queued m hm hstatus
    unfold Outbox.queued at hmem
    cases hqueue : s.sendQueue with
    | none =>
      rw [hqueue] at hmem
      exact nomatch hmem
    | some queue =>
      rw [hqueue] at hmem
      cases hloop : s.loop with
      | none => exact absurd hstatus (hsound.idle hloop m hm)
      | some loop => exact ⟨queue, loop, rfl, hmem, rfl⟩
  · obtain ⟨hshown, hfailed, hqueue, -⟩ := failed_of_resume hsound hne
    refine ⟨s.resume loop outcome, ?_, hshown, hfailed, hqueue⟩
    show (match s.loop with | none => none | some loop => _) = _
    rw [hloop]
    show loop.outcome.map _ = _
    rw [houtcome]
    rfl
  · have hnot := hsound.agrees.confirmed id hconfirmed
    have hcount := hsound.agrees.accounted.count_eq id
    rw [count_append, count_eq_zero.mpr hnot, Nat.zero_add,
      count_eq_one_of_mem hsound.agrees.sent hid] at hcount
    exact ⟨hcount, hnot⟩

/-- User 7 sends two messages, and the first is not answered in time: both
fail. The first is sent again, and then the first answer arrives after all. -/
theorem outbox_late_answer : ∃ s, system.Reachable s ∧
    s.log = [.confirmed 1, .posted 1, .enqueued 1, .failed 1, .failed 2, .enqueued 2, .posted 1,
      .enqueued 1] ∧
    PostedInOrder s.log ∧ s.removed.count 1 = 1 ∧ 1 ∉ s.shown := by
  let start : Outbox := ⟨7, [], none, false, none, [], 0, [], [], []⟩
  let input : SendInput := ⟨"hello", [], none, false, []⟩
  let actions : List OutboxAction := [.sendMessage 1 "2026-01-01T00:00:00Z" input,
    .sendMessage 2 "2026-01-01T00:00:01Z" input, .timedOut, .resume, .retryMessage 1,
    .posted 0 (.said 7 1 1)]
  let test (s : Outbox) : Bool := decide (s.log = [.confirmed 1, .posted 1, .enqueued 1, .failed 1,
    .failed 2, .enqueued 2, .posted 1, .enqueued 1] ∧ 1 ∈ s.sent)
  have hrun : (system.run start actions).any test = true := by decide +kernel
  obtain ⟨s, hreach, htest⟩ :=
    TransitionSystem.exists_of_run hrun ⟨rfl, rfl, rfl, rfl, rfl, rfl, rfl, rfl⟩
  obtain ⟨hlog, hsent⟩ := of_decide_eq_true htest
  obtain ⟨-, hordered, -, honce⟩ := outbox_in_order hreach
  have hconfirmed : .confirmed 1 ∈ s.log := by
    rw [hlog]
    exact .head _
  exact ⟨s, hreach, hlog, hordered, honce 1 hsent hconfirmed⟩

end Outbox

end Hibari
