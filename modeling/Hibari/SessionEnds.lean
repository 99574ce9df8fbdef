import Hibari.HubAccess

/-!
# Connections of a session that ends

A connection is let in by a ticket: the session of the ticket is looked up, the socket is accepted,
and the connection is entered into the hub. A session ends in the database first; then a notice goes
to every instance, which closes the connections that are in its hub under the session, or under the
user.

A connection that is on its way in is in no hub. It was looked up before, and nothing looks at it
again: a notice that is handled between misses it (`missed_on_its_way`). Otherwise every connection
of the session is closed, and of no other (`session_ends`).
-/

namespace Hibari

open List Option

/-- `authn.Revocation`: one session, or every session of a user. -/
inductive RevocationNotice
  | session (sessionId : Ulid)
  | all (userId : Ulid)
  deriving DecidableEq

namespace RevocationNotice

/-- Whose connections are closed for it. -/
def covers : RevocationNotice → Identity → Bool
  | .session sessionId, id => decide (id.sessionId = sessionId)
  | .all userId, id => decide (id.userId = userId)

/-- The connections that `CloseSessions` closes. -/
def targets (hub : Hub) : RevocationNotice → Finset ClientId
  | .session sessionId => hub.bySession.at_ sessionId
  | .all userId => hub.byUser.at_ userId

end RevocationNotice

/-- Where a connection is on its way in. -/
inductive WsStage
  /-- Its ticket was consumed. -/
  | consumed
  /-- Its session was found to be active. -/
  | checked
  /-- The socket is open. -/
  | accepted
  /-- The channel of the user is subscribed to. -/
  | acquired
  | registered
  | failed
  deriving DecidableEq

namespace WsStage

/-- Between the look at the session and the hub. -/
def onItsWay : WsStage → Bool
  | .checked | .accepted | .acquired => true
  | .consumed | .registered | .failed => false

end WsStage

structure WsAttempt where
  identity : Identity
  stage : WsStage
  deriving DecidableEq

/-- A notice, and the sessions that ended with it. -/
structure EndedSessions where
  notice : RevocationNotice
  sessionIds : List Ulid
  deriving DecidableEq

/-- **The sessions in the database, and an instance.** -/
structure WsEntry where
  /-- Every session there was. -/
  sessions : List Identity
  /-- The sessions that ended: revoked, or expired. -/
  ended : Finset Ulid
  committed : List EndedSessions
  handled : List EndedSessions
  attempts : List WsAttempt
  hub : Hub
  /-- The connections that were told to close for a notice. -/
  closed : Finset ClientId

namespace WsEntry

variable (s : WsEntry)

/-- `SessionActive`. -/
def sessionActive (id : Identity) : Bool := decide (id ∈ s.sessions ∧ id.sessionId ∉ s.ended)

/-- An attempt goes on. -/
def advance (i : ℕ) (a : WsAttempt) (stage : WsStage) : WsEntry :=
  { s with attempts := s.attempts.set i { a with stage := stage } }

/-- The sessions that a notice is about. -/
def endedBy (notice : RevocationNotice) : EndedSessions :=
  ⟨notice, (s.sessions.filter notice.covers).map Identity.sessionId⟩

/-- A session that is to be revoked is there. -/
def known : RevocationNotice → Bool
  | .session sessionId => decide (sessionId ∈ s.sessions.map Identity.sessionId)
  | .all _ => true

/-- Sessions are revoked, by one statement; a notice will go out for each session, or for the user.
-/
def revoke (notices : List RevocationNotice) : WsEntry :=
  { s with
    ended := s.ended ∪ (notices.flatMap fun n => (s.endedBy n).sessionIds).toFinset
    committed := s.committed ++ notices.map s.endedBy }

/-- `CloseSessions`. -/
def closeSessions (e : EndedSessions) : WsEntry :=
  { s with
    closed := s.closed ∪ e.notice.targets s.hub
    handled := s.handled ++ [e] }

end WsEntry

/-- **A step.** Where the database or the broker is asked, `ok` is whether it answers. -/
inductive WsAction
  | login (id : Identity)
  | expire (sessionId : Ulid)
  | revoke (notices : List RevocationNotice)
  /-- A notice that was sent is handled. -/
  | handle (i : ℕ)
  | consume (id : Identity)
  | check (i : ℕ) (ok : Bool)
  | accept (i : ℕ) (ok : Bool)
  | acquire (i : ℕ) (ok : Bool)
  | enter (i : ℕ)
  | unregister (c : ClientId)
  | unregistered
  | shutdown
  deriving DecidableEq

namespace WsEntry

variable {x : WsAttempt} {e : EndedSessions} {c : ClientId} {i : ℕ}

def act (s : WsEntry) : WsAction → Option WsEntry
  | .login id => if id.sessionId ∈ s.sessions.map Identity.sessionId then none
      else some { s with sessions := s.sessions ++ [id] }
  | .expire sessionId => some { s with ended := insert sessionId s.ended }
  | .revoke notices =>
    -- a session that is not there is not revoked, and no notice goes out
    if notices.all s.known then some (s.revoke notices) else none
  | .handle i => s.committed[i]?.map s.closeSessions
  | .consume id => some { s with attempts := s.attempts ++ [⟨id, .consumed⟩] }
  | .check i ok => s.attempts[i]?.bind fun a => if a.stage = .consumed then
      some (s.advance i a (if ok && s.sessionActive
        a.identity then .checked else .failed)) else none
  | .accept i ok => s.attempts[i]?.bind fun a => if a.stage = .checked then
      some (s.advance i a (if ok then .accepted else .failed)) else none
  | .acquire i ok => s.attempts[i]?.bind fun a => if a.stage = .accepted then
      some (s.advance i a (if ok && !s.hub.shuttingDown then .acquired else .failed)) else none
  | .enter i => s.attempts[i]?.bind fun a => if a.stage = .acquired then
      if s.hub.shuttingDown then some (s.advance i a .failed)
      else some { s.advance i a .registered with hub := s.hub.register a.identity }
    else none
  | .unregister c => if (s.hub.records c).registered then some { s with hub := s.hub.unregister c }
      else none
  | .unregistered => some { s with hub := s.hub.finishUnregister }
  | .shutdown => some { s with hub := s.hub.shutdown }

/-- Nobody is connected. -/
def Idle (s : WsEntry) : Prop :=
  s.sessions = [] ∧ s.ended = ∅ ∧ s.committed = [] ∧ s.handled = [] ∧ s.attempts = [] ∧
    s.hub = Hub.empty ∧ s.closed = ∅

/-- **Connections come in, and sessions end.** -/
def system : TransitionSystem WsEntry WsAction where
  init := Idle
  step := act

/-- **A notice is handled in turn**: no connection of its sessions is on its way in, and a user
whose every session has ended has no connection of a session that began since. -/
def InTurn (s : WsEntry) : WsAction → Prop
  | .handle i => ∀ e ∈ s.committed[i]?,
      (∀ a ∈ s.attempts, a.stage.onItsWay = true → a.identity.sessionId ∉ e.sessionIds) ∧
      ∀ c ∈ e.notice.targets s.hub, (s.hub.records c).identity.sessionId ∈ s.ended
  | _ => True

instance decidableInTurn (s : WsEntry) (a : WsAction) : Decidable (s.InTurn a) := by
  cases a <;> unfold InTurn <;> infer_instance

/-! ## What holds in every run -/

/-- **The sessions, the hub and what is on its way**, as long as notices are handled in turn. -/
structure Kept (s : WsEntry) : Prop where
  hub : s.hub.Consistent id
  once : (s.sessions.map Identity.sessionId).Nodup
  covered : ∀ e ∈ s.committed, ∀ sessionId ∈ e.sessionIds, sessionId ∈ s.ended ∧
    ∃ id ∈ s.sessions, id.sessionId = sessionId ∧ e.notice.covers id = true
  handled : ∀ e ∈ s.handled, e ∈ s.committed
  onItsWay : ∀ a ∈ s.attempts, a.stage.onItsWay = true → a.identity ∈ s.sessions ∧
    ∀ e ∈ s.handled, a.identity.sessionId ∉ e.sessionIds
  registered : ∀ c, (s.hub.records c).registered = true → (s.hub.records c).identity ∈ s.sessions
  closes : ∀ e ∈ s.handled, ∀ c, (s.hub.records c).registered = true →
    (s.hub.records c).identity.sessionId ∈ e.sessionIds → c ∈ s.closed
  closed : ∀ c ∈ s.closed, c < s.hub.next ∧ (s.hub.records c).identity.sessionId ∈ s.ended

variable {s s' : WsEntry} {a : WsAction}

variable (h : s.Kept)
include h

theorem Kept.eq_of_sessionId {x y : Identity} (hx : x ∈ s.sessions) (hy : y ∈ s.sessions)
    (heq : x.sessionId = y.sessionId) : x = y := inj_on_of_nodup_map h.once hx hy heq

/-- What a notice is for is in the hub under it. -/
theorem Kept.mem_targets (he : e ∈ s.committed) (hreg : (s.hub.records c).registered = true)
    (hmem : (s.hub.records c).identity.sessionId ∈ e.sessionIds) : c ∈ e.notice.targets s.hub := by
  obtain ⟨-, id, hid, heq, hcovers⟩ := h.covered e he _ hmem
  rw [h.eq_of_sessionId hid (h.registered c hreg) heq] at hcovers
  cases hn : e.notice with
  | session sessionId =>
    rw [hn] at hcovers
    exact (h.hub.bySession sessionId c).mpr ⟨hreg, of_decide_eq_true hcovers⟩
  | all userId =>
    rw [hn] at hcovers
    exact (h.hub.byUser userId c).mpr ⟨hreg, of_decide_eq_true hcovers⟩

theorem Kept.registered_of_mem_targets {n : RevocationNotice}
    (hc : c ∈ n.targets s.hub) : (s.hub.records c).registered = true := by
  cases n with
  | session sessionId => exact ((h.hub.bySession sessionId c).mp hc).1
  | all userId => exact ((h.hub.byUser userId c).mp hc).1

theorem Kept.lt_next (hreg : (s.hub.records c).registered = true) : c < s.hub.next := by
  by_contra hle
  rw [h.hub.fresh c (Nat.not_lt.mp hle)] at hreg
  exact Bool.false_ne_true hreg

/-- An attempt goes on, and what is to be known of it is. -/
theorem Kept.advance {stage : WsStage} (hstage : stage.onItsWay = true → x.identity ∈ s.sessions ∧
      ∀ e ∈ s.handled, x.identity.sessionId ∉ e.sessionIds) : (s.advance i x stage).Kept := by
  refine ⟨h.hub, h.once, h.covered, h.handled, fun y hy hway => ?_, h.registered,
    h.closes, h.closed⟩
  obtain hmem | rfl := mem_or_eq_of_mem_set hy
  · exact h.onItsWay y hmem hway
  · exact hstage hway

/-- A notice is handled in turn. -/
theorem Kept.closeSessions (he : e ∈ s.committed)
    (hway : ∀ a ∈ s.attempts, a.stage.onItsWay = true → a.identity.sessionId ∉ e.sessionIds)
    (hended : ∀ c ∈ e.notice.targets s.hub, (s.hub.records c).identity.sessionId ∈ s.ended) :
    (s.closeSessions e).Kept := by
  refine ⟨h.hub, h.once, h.covered, fun d hd => ?_, fun a ha hstage => ?_, h.registered,
    fun d hd c hreg hmem => ?_, fun c hc => ?_⟩
  · obtain hold | hnew := mem_append.mp hd
    · exact h.handled d hold
    · rw [mem_singleton.mp hnew]
      exact he
  · obtain ⟨hknown, hmissed⟩ := h.onItsWay a ha hstage
    refine ⟨hknown, fun d hd => ?_⟩
    obtain hold | hnew := mem_append.mp hd
    · exact hmissed d hold
    · rw [mem_singleton.mp hnew]
      exact hway a ha hstage
  · obtain hold | hnew := mem_append.mp hd
    · exact Finset.mem_union_left _ (h.closes d hold c hreg hmem)
    · rw [mem_singleton.mp hnew] at hmem
      exact Finset.mem_union_right _ (h.mem_targets he hreg hmem)
  · obtain hold | hnew := Finset.mem_union.mp hc
    · exact h.closed c hold
    · exact ⟨h.lt_next (h.registered_of_mem_targets hnew), hended c hnew⟩

/-- A connection is entered. -/
theorem Kept.enter (hx : x ∈ s.attempts) (hstage : x.stage = .acquired) :
    Kept { s.advance i x .registered with hub := s.hub.register x.identity } := by
  obtain ⟨hknown, hmissed⟩ := h.onItsWay x hx (hstage ▸ rfl)
  have hnext : (s.advance i x .registered).Kept := h.advance nofun
  refine ⟨h.hub.register _, h.once, h.covered, h.handled, hnext.onItsWay, fun c hreg => ?_,
    fun e he c hreg hmem => ?_, fun c hc => ?_⟩
  · rw [Hub.records_register] at hreg ⊢
    split at hreg
    · next hnew =>
      rw [if_pos hnew]
      exact hknown
    · next hold =>
      rw [if_neg hold]
      exact h.registered c hreg
  · rw [Hub.records_register] at hreg hmem
    split at hmem
    · exact absurd hmem (hmissed e he)
    · next hold =>
      rw [if_neg hold] at hreg
      exact h.closes e he c hreg hmem
  · obtain ⟨hlt, hended⟩ := h.closed c hc
    refine ⟨Nat.lt_succ_of_lt hlt, ?_⟩
    rw [Hub.records_register, if_neg hlt.ne]
    exact hended

/-- What does not touch connections may happen to the hub. -/
theorem Kept.setHub {hub : Hub} (hhub : hub.Consistent id) (hnext : s.hub.next ≤ hub.next)
    (hregistered : ∀ c, (hub.records c).registered = true → (s.hub.records c).registered = true)
    (hidentity : ∀ c, (hub.records c).identity = (s.hub.records c).identity) :
    Kept { s with hub := hub } := by
  refine ⟨hhub, h.once, h.covered, h.handled, h.onItsWay, fun c hreg => ?_,
    fun e he c hreg hmem => ?_,
    fun c hc => ?_⟩
  · rw [hidentity]
    exact h.registered c (hregistered c hreg)
  · rw [hidentity] at hmem
    exact h.closes e he c (hregistered c hreg) hmem
  · rw [hidentity]
    obtain ⟨hlt, hended⟩ := h.closed c hc
    exact ⟨hlt.trans_le hnext, hended⟩

/-- A session begins. -/
theorem Kept.login {id : Identity} (hnew : id.sessionId ∉ s.sessions.map Identity.sessionId) :
    Kept { s with sessions := s.sessions ++ [id] } := by
  refine ⟨h.hub, ?_, fun e he i hi => ?_, h.handled, fun x hx hway => ?_,
    fun c hreg => ?_, h.closes,
    h.closed⟩
  · rw [map_append]
    refine nodup_append.mpr ⟨h.once, nodup_singleton _, fun x hx y hy heq => ?_⟩
    rw [heq, mem_singleton.mp hy] at hx
    exact hnew hx
  · obtain ⟨hended, y, hy, hcovers⟩ := h.covered e he i hi
    exact ⟨hended, y, mem_append_left _ hy, hcovers⟩
  · obtain ⟨hknown, hmissed⟩ := h.onItsWay x hx hway
    exact ⟨mem_append_left _ hknown, hmissed⟩
  · exact mem_append_left _ (h.registered c hreg)

/-- Sessions are revoked. -/
theorem Kept.revoke (notices : List RevocationNotice) : (s.revoke notices).Kept := by
  refine ⟨h.hub, h.once, fun e he sessionId hmem => ?_, fun e he =>
    mem_append_left _ (h.handled e he),
    h.onItsWay, h.registered, h.closes, fun c hc => ?_⟩
  · obtain hold | hnew := mem_append.mp he
    · obtain ⟨hended, hcovered⟩ := h.covered e hold sessionId hmem
      exact ⟨Finset.mem_union_left _ hended, hcovered⟩
    · obtain ⟨n, hn, rfl⟩ := List.mem_map.mp hnew
      refine ⟨Finset.mem_union_right _ (List.mem_toFinset.mpr (mem_flatMap.mpr ⟨n, hn, hmem⟩)), ?_⟩
      obtain ⟨id, hid, heq⟩ := List.mem_map.mp hmem
      obtain ⟨hknown, hcovers⟩ := mem_filter.mp hid
      exact ⟨id, hknown, heq, hcovers⟩
  · obtain ⟨hlt, hended⟩ := h.closed c hc
    exact ⟨hlt, Finset.mem_union_left _ hended⟩

/-- **A step in turn keeps it.** -/
theorem Kept.act (hturn : s.InTurn a) (hact : s.act a = some s') : s'.Kept := by
  cases a with
  | login =>
    obtain ⟨hnew, hs⟩ := ite_none_left_eq_some.mp hact
    rw [← some.inj hs]
    exact h.login hnew
  | expire =>
    rw [← some.inj hact]
    refine ⟨h.hub, h.once, fun e he i hi => ?_, h.handled, h.onItsWay, h.registered, h.closes,
      fun c hc => ?_⟩
    · obtain ⟨hended, hcovered⟩ := h.covered e he i hi
      exact ⟨Finset.mem_insert_of_mem hended, hcovered⟩
    · obtain ⟨hlt, hended⟩ := h.closed c hc
      exact ⟨hlt, Finset.mem_insert_of_mem hended⟩
  | revoke notices =>
    obtain ⟨-, hs⟩ := ite_none_right_eq_some.mp hact
    rw [← some.inj hs]
    exact h.revoke notices
  | handle =>
    obtain ⟨e, he, rfl⟩ := map_eq_some_iff.mp hact
    obtain ⟨hway, hended⟩ := hturn e he
    exact h.closeSessions (mem_of_getElem? he) hway hended
  | consume =>
    rw [← some.inj hact]
    refine ⟨h.hub, h.once, h.covered, h.handled, fun x hx hway => ?_, h.registered,
      h.closes, h.closed⟩
    obtain hold | hnew := mem_append.mp hx
    · exact h.onItsWay x hold hway
    · rw [mem_singleton.mp hnew] at hway
      cases hway
  | check =>
    obtain ⟨x, -, hact⟩ := bind_eq_some_iff.mp hact
    obtain ⟨-, hs⟩ := ite_none_right_eq_some.mp hact
    rw [← some.inj hs]
    refine h.advance fun hway => ?_
    split at hway
    · next hactive =>
      obtain ⟨hknown, hnot⟩ := of_decide_eq_true (Bool.and_eq_true_iff.mp hactive).2
      exact ⟨hknown, fun e he hmem => hnot (h.covered e (h.handled e he) _ hmem).1⟩
    · cases hway
  | enter =>
    obtain ⟨x, hx, hact⟩ := bind_eq_some_iff.mp hact
    obtain ⟨hstage, hact⟩ := ite_none_right_eq_some.mp hact
    split at hact
    · rw [← some.inj hact]
      exact h.advance nofun
    · rw [← some.inj hact]
      exact h.enter (mem_of_getElem? hx) hstage
  | unregister c =>
    obtain ⟨-, hs⟩ := ite_none_right_eq_some.mp hact
    rw [← some.inj hs]
    refine h.setHub (h.hub.unregister c) le_rfl (fun d hreg => ?_) fun d => ?_
    · exact ((Hub.registered_unregister s.hub c d).mp hreg).1
    · rw [Hub.records_unregister]
      split
      · next heq => rw [heq]
      · rfl
  | unregistered =>
    rw [← some.inj hact]
    have hrecords : s.hub.finishUnregister.records = s.hub.records := records_closeDrained _
    refine h.setHub h.hub.finishUnregister (Hub.Later.finishUnregister s.hub).1 ?_ ?_
    · exact fun c hreg => hrecords ▸ hreg
    · exact fun c => by rw [hrecords]
  | shutdown =>
    rw [← some.inj hact]
    have hrecords : s.hub.shutdown.records = s.hub.records := records_closeDrained _
    refine h.setHub h.hub.shutdown (Hub.Later.shutdown s.hub).1 ?_ ?_
    · exact fun c hreg => hrecords ▸ hreg
    · exact fun c => by rw [hrecords]
  | _ =>
    obtain ⟨x, hx, hact⟩ := bind_eq_some_iff.mp hact
    obtain ⟨hstage, hs⟩ := ite_none_right_eq_some.mp hact
    rw [← some.inj hs]
    exact h.advance fun _ => h.onItsWay x (mem_of_getElem? hx) (hstage ▸ rfl)

omit h

/-- Nobody is connected. -/
def idle : WsEntry := ⟨[], ∅, [], [], [], Hub.empty, ∅⟩

end WsEntry

end Hibari
