import Hibari.Hub
import Hibari.Wire

/-!
# The broker's subscriptions

An instance holds one connection to Redis for the channels its WebSocket
connections need. The broker counts who needs a channel: the first `Acquire`
sends a SUBSCRIBE and the last `Release` an UNSUBSCRIBE. An `Acquire` returns
only when Redis has processed the SUBSCRIBE, which it learns from a numbered PING:
Redis processes commands in the order they were sent, so the PONG of a PING says
that every command before it was processed (`Wire`).

Two mutexes are involved. `writeMu` is held from the count to the last command, so
that commands are sent in the order of their numbers; it is the `writer` of the
model. `mu` guards the fields for one critical section at a time, which is one
step here. In between, Redis processes commands, the run loop receives
PONGs, and the connection is lost and opened again – when the client library
subscribes again to every channel on its list.

What the network does is part of the action: whether a command is sent or fails,
and whether a wait ends by its context.
-/

namespace Hibari

/-- A command that is sent to Redis. On a new connection the client library
subscribes to its control channel and to every channel on its list with one
command. -/
inductive BrokerCommand
  | subscribe (ch : Channel)
  | unsubscribe (ch : Channel)
  | resubscribe (listed : Finset Channel)
  | ping (token : ℕ)

/-- A command subscribes to a channel. -/
def BrokerCommand.Subscribes (ch : Channel) : BrokerCommand → Prop
  | .subscribe ch' => ch' = ch
  | .resubscribe listed => ch ∈ listed
  | _ => False

/-- A command unsubscribes from a channel. -/
def BrokerCommand.Unsubscribes (ch : Channel) : BrokerCommand → Prop
  | .unsubscribe ch' => ch' = ch
  | _ => False

/-- What the run loop receives and does not ignore: the answer to a PING, and
that the control channel was subscribed to again. -/
inductive BrokerReply
  | pong (token : ℕ)
  | control
  deriving DecidableEq

/-- What a waiting call is woken with. -/
inductive Wake
  | acked
  | resubscribed
  | closed
  deriving DecidableEq

/-- **The broker**, with its connection to Redis, the answers that are not
received yet, and what each waiting call was woken with. A channel that is not in
`refs` has count zero. -/
structure Broker where
  link : Wire BrokerCommand
  replies : List BrokerReply
  listed : Finset Channel
  writer : Option ℕ
  seq : ℕ
  refs : Channel → ℕ
  subscribedAt : Channel → Option ℕ
  acked : ℕ
  waiters : Finset ℕ
  inbox : ℕ → List Wake
  closed : Bool

namespace Broker

/-- Take `writeMu`. -/
def lock (b : Broker) (i : ℕ) : Broker := { b with writer := some i }

/-- Give `writeMu` back. -/
def unlock (b : Broker) : Broker := { b with writer := none }

/-- Count one more who needs a channel. -/
def addRef (b : Broker) (ch : Channel) : Broker :=
  { b with refs := Function.update b.refs ch (b.refs ch + 1) }

/-- Send a SUBSCRIBE and number it. -/
def subscribe (b : Broker) (ch : Channel) : Broker :=
  { b with
    link := b.link.send (.subscribe ch)
    listed := insert ch b.listed
    seq := b.seq + 1 }

/-- A SUBSCRIBE that could not be sent may be on the library's list. -/
def notSubscribed (b : Broker) (ch : Channel) (listed : Bool) : Broker :=
  { b with listed := if listed then insert ch b.listed else b.listed }

/-- Note the number of the SUBSCRIBE. -/
def record (b : Broker) (ch : Channel) : Broker :=
  { b with subscribedAt := Function.update b.subscribedAt ch (some b.seq) }

/-- Whether Redis is known to have processed the last SUBSCRIBE of a channel. A
channel without one reads as number zero. -/
def confirmed (b : Broker) (ch : Channel) : Bool :=
  decide ((b.subscribedAt ch).getD 0 ≤ b.acked)

/-- Number a PING and enter who waits for its PONG. -/
def addWaiter (b : Broker) : Broker :=
  { b with seq := b.seq + 1, waiters := insert (b.seq + 1) b.waiters }

/-- Send a numbered PING. -/
def ping (b : Broker) (token : ℕ) : Broker := { b with link := b.link.send (.ping token) }

/-- Wait for a PONG no longer. -/
def forget (b : Broker) (token : ℕ) : Broker := { b with waiters := b.waiters.erase token }

/-- Count one less who needs a channel; the last takes the channel's entries
along. -/
def dropRef (b : Broker) (ch : Channel) : Broker :=
  { b with
    refs := Function.update b.refs ch (b.refs ch - 1)
    subscribedAt :=
      if b.refs ch - 1 = 0 then Function.update b.subscribedAt ch none else b.subscribedAt }

/-- Take a channel off the library's list and send an UNSUBSCRIBE, which may
fail. -/
def unsubscribe (b : Broker) (ch : Channel) (ok : Bool) : Broker :=
  { b with
    link := if ok then b.link.send (.unsubscribe ch) else b.link
    listed := b.listed.erase ch }

/-- Wake those who wait and strike them off. -/
def wake (b : Broker) (p : ℕ → Bool) (r : Wake) : Broker :=
  { b with
    waiters := b.waiters.filter (fun t => !p t)
    inbox := fun t => if t ∈ b.waiters ∧ p t = true then b.inbox t ++ [r] else b.inbox t }

/-- A PONG has come: every command up to its PING was processed. -/
def pong (b : Broker) (token : ℕ) : Broker :=
  wake { b with acked := max token b.acked } (fun t => decide (t ≤ max token b.acked)) .acked

/-- The connection was opened again: who waits has to try again. -/
def resubscribed (b : Broker) : Broker := b.wake (fun _ => true) .resubscribed

/-- The broker is closed. -/
def close (b : Broker) : Broker :=
  if b.closed then b else wake { b with closed := true } (fun _ => true) .closed

/-- Handle what was received. -/
def receive (b : Broker) : BrokerReply → Broker
  | .pong token => b.pong token
  | .control => b.resubscribed

/-- What Redis answers to a command, as far as the run loop reads it. -/
def answer : BrokerCommand → List BrokerReply
  | .ping token => [.pong token]
  | .resubscribe _ => [.control]
  | _ => []

/-- Redis processes the next command. -/
def process (b : Broker) : Option Broker :=
  b.link.sent[b.link.next]?.map fun c =>
    { b with link := b.link.process, replies := b.replies ++ answer c }

/-- The connection is lost, with what is in flight on it and all but `kept` of
the answers, and a new one is opened. -/
def reconnect (b : Broker) (kept : ℕ) : Broker :=
  { b with
    link := b.link.lose.send (.resubscribe b.listed)
    replies := b.replies.take kept }

end Broker

/-- Where a call of the broker is. A call of `Sync` waits for no channel. -/
inductive BrokerTask
  | acquire (ch : Channel)
  | subscribing (ch : Channel)
  | record (ch : Channel)
  | confirm (ch : Channel)
  | sync
  | pingAndWait (goal : Option Channel)
  | pinging (goal : Option Channel) (token : ℕ)
  | waiting (goal : Option Channel) (token : ℕ)
  | forget (goal : Option Channel) (token : ℕ)
  | held (ch : Channel)
  | release (ch : Channel)
  | unsubscribe (ch : Channel)
  | done
  deriving DecidableEq

/-- A call that got what it waited for: the channel is acquired. -/
def reached : Option Channel → BrokerTask
  | some ch => .held ch
  | none => .done

/-- A call that did not get what it waited for: the channel is given back. -/
def givenUp : Option Channel → BrokerTask
  | some ch => .release ch
  | none => .done

/-- The next step of call `i`. `ok` is whether a command could be sent, and for
a call that waits, whether it is woken rather than its context ended; `extra` is
whether a SUBSCRIBE that failed is on the library's list, and whether a PING that
failed was sent. -/
def brokerStep (i : ℕ) (ok extra : Bool) (b : Broker) : BrokerTask → Option (Broker × BrokerTask)
  | .acquire ch =>
    if b.writer ≠ none then none
    else if b.closed then some (b, .done)
    else if b.refs ch + 1 = 1 then some ((b.addRef ch).lock i, .subscribing ch)
    else some ((b.addRef ch).lock i, .confirm ch)
  | .subscribing ch =>
    if ok then some (b.subscribe ch, .record ch)
    else some ((b.notSubscribed ch extra).unlock, .release ch)
  | .record ch => some (b.record ch, .confirm ch)
  | .confirm ch =>
    if b.confirmed ch then some (b.unlock, .held ch) else some (b, .pingAndWait (some ch))
  | .sync => if b.writer ≠ none then none else some (b.lock i, .pingAndWait none)
  | .pingAndWait goal =>
    if b.closed then some (b.unlock, givenUp goal)
    else some (b.addWaiter, .pinging goal (b.seq + 1))
  | .pinging goal token =>
    if ok then some ((b.ping token).unlock, .waiting goal token)
    else some ((if extra then b.ping token else b).unlock, .forget goal token)
  | .waiting goal token =>
    if ok then
      match b.inbox token with
      | [] => none
      | r :: _ => some (b, if r = .acked then reached goal else .forget goal token)
    else some (b, .forget goal token)
  | .forget goal token => some (b.forget token, givenUp goal)
  | .held _ => none
  | .release ch =>
    if b.writer ≠ none then none
    else if b.refs ch - 1 = 0 ∧ b.closed = false then
      some ((b.dropRef ch).lock i, .unsubscribe ch)
    else some (b.dropRef ch, .done)
  | .unsubscribe ch => some ((b.unsubscribe ch ok).unlock, .done)
  | .done => none

/-! ## What a step can do -/

/-- **The steps of a call of the broker**, by what they do: the place the call
is at, the broker and the place after, and what was the case for the call to go
there. -/
inductive BrokerMoves (i : ℕ) (b : Broker) : BrokerTask → Broker → BrokerTask → Prop
  | refused (ch) (hfree : b.writer = none) : BrokerMoves i b (.acquire ch) b .done
  | first (ch) (hfree : b.writer = none) (hnew : b.refs ch = 0) :
    BrokerMoves i b (.acquire ch) ((b.addRef ch).lock i) (.subscribing ch)
  | join (ch) (hfree : b.writer = none) (hopen : b.closed = false) (hjoin : b.refs ch ≠ 0) :
    BrokerMoves i b (.acquire ch) ((b.addRef ch).lock i) (.confirm ch)
  | subscribed (ch) : BrokerMoves i b (.subscribing ch) (b.subscribe ch) (.record ch)
  | notSubscribed (ch listed) :
    BrokerMoves i b (.subscribing ch) (b.notSubscribed ch listed).unlock (.release ch)
  | record (ch) : BrokerMoves i b (.record ch) (b.record ch) (.confirm ch)
  | confirmed (ch) (hconfirmed : b.confirmed ch = true) :
    BrokerMoves i b (.confirm ch) b.unlock (.held ch)
  | unconfirmed (ch) : BrokerMoves i b (.confirm ch) b (.pingAndWait (some ch))
  | sync (hfree : b.writer = none) : BrokerMoves i b .sync (b.lock i) (.pingAndWait none)
  | closed (goal) : BrokerMoves i b (.pingAndWait goal) b.unlock (givenUp goal)
  | numbered (goal) : BrokerMoves i b (.pingAndWait goal) b.addWaiter (.pinging goal (b.seq + 1))
  | pinged (goal token) :
    BrokerMoves i b (.pinging goal token) (b.ping token).unlock (.waiting goal token)
  | notPinged (goal token) : BrokerMoves i b (.pinging goal token) b.unlock (.forget goal token)
  | pingedInVain (goal token) :
    BrokerMoves i b (.pinging goal token) (b.ping token).unlock (.forget goal token)
  | woken (goal token rest) (hinbox : b.inbox token = .acked :: rest) :
    BrokerMoves i b (.waiting goal token) b (reached goal)
  | failed (goal token) : BrokerMoves i b (.waiting goal token) b (.forget goal token)
  | forget (goal token) : BrokerMoves i b (.forget goal token) (b.forget token) (givenUp goal)
  | releaseLast (ch) (hfree : b.writer = none) (hlast : b.refs ch - 1 = 0) :
    BrokerMoves i b (.release ch) ((b.dropRef ch).lock i) (.unsubscribe ch)
  | release (ch) (hfree : b.writer = none) : BrokerMoves i b (.release ch) (b.dropRef ch) .done
  | unsubscribe (ch ok) : BrokerMoves i b (.unsubscribe ch) (b.unsubscribe ch ok).unlock .done

/-- **The step lemma**: a step of a call is one of these. -/
theorem brokerMoves_of_step {i : ℕ} {ok extra : Bool} {b b' : Broker} {t t' : BrokerTask}
    (h : brokerStep i ok extra b t = some (b', t')) : BrokerMoves i b t b' t' := by
  cases t with
  | acquire ch =>
    simp only [brokerStep, ne_eq, ite_not] at h
    split at h
    · next hfree =>
      split at h
      · cases h
        exact .refused ch hfree
      · next hopen =>
        split at h <;> cases h
        · next hone => exact .first ch hfree (Nat.succ_inj.mp hone)
        · next hmore =>
          exact .join ch hfree (Bool.eq_false_iff.mpr hopen) fun hzero => hmore (by rw [hzero])
    · cases h
  | subscribing ch =>
    simp only [brokerStep] at h
    split at h <;> cases h
    · exact .subscribed ch
    · exact .notSubscribed ch extra
  | record ch =>
    cases h
    exact .record ch
  | confirm ch =>
    simp only [brokerStep] at h
    split at h <;> cases h
    · next hconfirmed => exact .confirmed ch hconfirmed
    · exact .unconfirmed ch
  | sync =>
    simp only [brokerStep, ne_eq, ite_not] at h
    split at h
    · next hfree =>
      cases h
      exact .sync hfree
    · cases h
  | pingAndWait goal =>
    simp only [brokerStep] at h
    split at h <;> cases h
    · exact .closed goal
    · exact .numbered goal
  | pinging goal token =>
    simp only [brokerStep] at h
    split at h <;> cases h
    · exact .pinged goal token
    · cases extra with
      | true => exact .pingedInVain goal token
      | false => exact .notPinged goal token
  | waiting goal token =>
    simp only [brokerStep] at h
    split at h
    · split at h
      · cases h
      · next r rest hinbox =>
        cases h
        by_cases hr : r = .acked
        · subst hr
          rw [if_pos rfl]
          exact .woken goal token rest hinbox
        · rw [if_neg hr]
          exact .failed goal token
    · cases h
      exact .failed goal token
  | forget goal token =>
    cases h
    exact .forget goal token
  | release ch =>
    simp only [brokerStep, ne_eq, ite_not] at h
    split at h
    · next hfree =>
      split at h <;> cases h
      · next hlast => exact .releaseLast ch hfree hlast.1
      · exact .release ch hfree
    · cases h
  | unsubscribe ch =>
    cases h
    exact .unsubscribe ch ok
  | _ => exact absurd h (by simp [brokerStep])

/-! ## Runs -/

/-- The broker and its calls. -/
structure BrokerState where
  broker : Broker
  tasks : List BrokerTask

/-- What happens to a broker: a channel is acquired, or given back by whom
`Acquire` returned to; `Sync` is called; a call takes a step; Redis processes a
command; the run loop receives an answer; the connection is lost and opened
again; the broker is closed. -/
inductive BrokerAction
  | acquire (ch : Channel)
  | sync
  | release (i : ℕ)
  | advance (i : ℕ) (ok extra : Bool)
  | process
  | receive
  | reconnect (kept : ℕ)
  | close
  deriving DecidableEq

namespace BrokerState

/-- One step of a broker. -/
def step (s : BrokerState) : BrokerAction → Option BrokerState
  | .acquire ch => some { s with tasks := s.tasks ++ [.acquire ch] }
  | .sync => some { s with tasks := s.tasks ++ [.sync] }
  | .release i =>
    match s.tasks[i]? with
    | some (.held ch) => some { s with tasks := s.tasks.set i (.release ch) }
    | _ => none
  | .advance i ok extra =>
    (Threads.stepAt (brokerStep i ok extra) s.broker s.tasks i).map fun next => ⟨next.1, next.2⟩
  | .process => s.broker.process.map fun b => { s with broker := b }
  | .receive =>
    match s.broker.replies with
    | [] => none
    | r :: rest => some { s with broker := Broker.receive { s.broker with replies := rest } r }
  | .reconnect kept => some { s with broker := s.broker.reconnect kept }
  | .close => some { s with broker := s.broker.close }

end BrokerState

/-- **What a step of a broker is**, by who takes it. -/
inductive BrokerHappens (s : BrokerState) : BrokerAction → BrokerState → Prop
  | calls {a t} (hnew : (∃ ch, t = .acquire ch) ∨ t = .sync) :
    BrokerHappens s a { s with tasks := s.tasks ++ [t] }
  | returns {i ch} (ht : s.tasks[i]? = some (.held ch)) :
    BrokerHappens s (.release i) { s with tasks := s.tasks.set i (.release ch) }
  | advances {i ok extra t t' b} (ht : s.tasks[i]? = some t)
      (hmove : BrokerMoves i s.broker t b t') :
    BrokerHappens s (.advance i ok extra) ⟨b, s.tasks.set i t'⟩
  | processes {c} (hc : s.broker.link.sent[s.broker.link.next]? = some c) :
    BrokerHappens s .process { s with broker := { s.broker with
      link := s.broker.link.process, replies := s.broker.replies ++ Broker.answer c } }
  | receives {r rest} (hreply : s.broker.replies = r :: rest) : BrokerHappens s .receive
      { s with broker := Broker.receive { s.broker with replies := rest } r }
  | reconnects {kept} :
    BrokerHappens s (.reconnect kept) { s with broker := s.broker.reconnect kept }
  | closes : BrokerHappens s .close { s with broker := s.broker.close }

/-- A step is one of these. -/
theorem brokerHappens_of_step {s s' : BrokerState} {a : BrokerAction} (h : s.step a = some s') :
    BrokerHappens s a s' := by
  cases a with
  | acquire ch =>
    cases h
    exact .calls (.inl ⟨ch, rfl⟩)
  | sync =>
    cases h
    exact .calls (.inr rfl)
  | release =>
    simp only [BrokerState.step] at h
    split at h
    · next ch ht =>
      cases h
      exact .returns ht
    · cases h
  | advance =>
    obtain ⟨⟨b, tasks⟩, hstep, rfl⟩ := Option.map_eq_some_iff.mp h
    obtain ⟨t, t', ht, hmove, rfl⟩ := Threads.stepAt_eq_some hstep
    exact .advances ht (brokerMoves_of_step hmove)
  | process =>
    obtain ⟨b, hb, rfl⟩ := Option.map_eq_some_iff.mp h
    obtain ⟨c, hc, rfl⟩ := Option.map_eq_some_iff.mp hb
    exact .processes hc
  | receive =>
    simp only [BrokerState.step] at h
    split at h
    · cases h
    · next r rest hreply =>
      cases h
      exact .receives hreply
  | reconnect =>
    cases h
    exact .reconnects
  | close =>
    cases h
    exact .closes

/-- A broker that nothing was asked of. -/
def Broker.new : Broker where
  link := Wire.empty
  replies := []
  listed := ∅
  writer := none
  seq := 0
  refs := fun _ => 0
  subscribedAt := fun _ => none
  acked := 0
  waiters := ∅
  inbox := fun _ => []
  closed := false

/-- **The broker as a transition system**: any calls and any interleaving of
their steps with those of Redis, the run loop and the network. -/
def brokerSystem : TransitionSystem BrokerState BrokerAction where
  init s := s = ⟨Broker.new, []⟩
  step := BrokerState.step

end Hibari
