import Hibari.LedgerLog
import Hibari.RoomSync

/-!
# A room and a client together

Transactions run on the rows of a room while a client opens it, catches up, pages and receives
messages, late, twice or never. What commits is what the client may be sent and what its requests
may read. **A timeline shows the rows** (`client_shows_rows`): of each row of the channel inside
its window, up to its cursor, just the version that the row has.
-/

namespace Hibari

open List Option LedgerService

/-- The rows of a room, and a client with what it may be sent. -/
structure LiveRoom where
  server : LedgerService
  client : RoomSync

/-- The server does something, or the client. -/
inductive LiveAction
  | serve (a : LedgerServiceAction)
  | follow (a : Action)

/-- Whether an action is part of paging. -/
def LiveAction.isPaging : LiveAction → Bool
  | .serve _ => false
  | .follow a => a.isPaging

namespace LiveRoom

/-- What the server commits is what the client may be sent, in the order of the numbers. -/
def step (kind : RoomKind) (row : LedgerMessage → Message) (s : LiveRoom) :
    LiveAction → Option LiveRoom
  | .serve a => do
    let server ← (LedgerService.system kind).step s.server a
    let sent := sentRows row (server.versions.drop s.server.versions.length)
    let log ← sent.foldlM RoomLog.commit s.client.log
    some ⟨server, { s.client with log }⟩
  | .follow (.commit _) => none
  | .follow a => (s.client.step a).map fun client => { s with client }

/-- The client takes no answer that comes too late. -/
def Admits (s : LiveRoom) : LiveAction → Prop
  | .serve _ => True
  | .follow a => RoomSync.Admitted .changes s.client a

end LiveRoom

/-- The runs of a room and a client, from a room in which nothing has happened. -/
def liveRoom (kind : RoomKind) (row : LedgerMessage → Message) :
    TransitionSystem LiveRoom LiveAction where
  init s := (LedgerService.system kind).init s.server ∧ RoomSync.system.init s.client ∧
    s.client.log = .empty
  step := LiveRoom.step kind row

namespace LiveRoom

variable {kind : RoomKind} {row : LedgerMessage → Message} {s s' : LiveRoom} {log log' : RoomLog}
  {changes : List Message} {client : RoomSync} {a : Action}

theorem admits_of_not_paging {a : LiveAction} (h : a.isPaging = false) : s.Admits a := by
  cases a with
  | serve a => trivial
  | follow a => exact RoomSync.admitted_of_not_paging h

/-- What a log goes on with can be committed. -/
theorem foldlM_commit (h : log'.changes = log.changes ++ changes) :
    changes.foldlM RoomLog.commit log = some log' := by
  induction changes using reverseRecOn generalizing log' with
  | nil =>
    obtain ⟨_, _⟩ := log
    obtain ⟨_, _⟩ := log'
    obtain rfl := h.trans (append_nil _)
    rfl
  | append_singleton changes m ih =>
    rw [← append_assoc] at h
    have hwf := log'.wellFormed
    rw [h] at hwf
    obtain ⟨hbefore, hm⟩ := hwf.snoc_inv
    rw [foldlM_append, @ih ⟨_, hbefore⟩ rfl]
    obtain ⟨_, _⟩ := log'
    obtain rfl := h
    show (RoomLog.commit ⟨_, hbefore⟩ m).bind some = _
    rw [RoomLog.commit, dif_pos hm]
    rfl

theorem reachableBy_commits
    (h : RoomSync.system.ReachableBy (RoomSync.Admitted .changes) client)
    (hlog : changes.foldlM RoomLog.commit client.log = some log) :
    RoomSync.system.ReachableBy (RoomSync.Admitted .changes) { client with log } := by
  induction changes generalizing client with
  | nil =>
    obtain rfl := some.inj hlog
    exact h
  | cons m changes ih =>
    obtain ⟨log₁, hcommit, hrest⟩ := bind_eq_some_iff.mp hlog
    have hstep : RoomSync.system.step client (.commit m) = some { client with log := log₁ } :=
      congrArg (Option.map _) hcommit
    exact @ih { client with log := log₁ } (h.tail (RoomSync.admitted_of_not_paging rfl) hstep) hrest

theorem step_follow (hnot : ∀ m, a ≠ .commit m) : s.step kind row (.follow a) =
    (s.client.step a).map fun client => { s with client } := by
  cases a with
  | commit m => exact absurd rfl (hnot m)
  | _ => rfl

/-- What the client does commits nothing. -/
theorem log_of_follow (hnot : ∀ m, a ≠ .commit m) (h : s.client.step a = some client) :
    client.log = s.client.log := by
  cases a with
  | commit m => exact absurd rfl (hnot m)
  | openRoom =>
    obtain rfl := some.inj h
    unfold RoomSync.openRoom
    split
    · rfl
    · split <;> rfl
    · rfl
  | _ =>
    simp only [RoomSync.step] at h
    grind [= map_eq_some_iff, RoomSync.receive_log, RoomSync.syncTimeline_log,
      RoomSync.syncOnceDone_log, RoomSync.pagingAnswered_log, RoomSync.changesAnswered_log,
      RoomSync.roomAnswered, RoomSync.pageAnswered, RoomSync.updateTimeline]

/-- **What every step keeps**: both run as they do alone, and the client may be sent what was
committed. -/
structure Joint (kind : RoomKind) (row : LedgerMessage → Message) (s : LiveRoom) : Prop where
  server : (LedgerService.system kind).Reachable s.server
  client : RoomSync.system.ReachableBy (RoomSync.Admitted .changes) s.client
  shows : Shows row s.server s.client.log

section

variable (hrow : LedgerService.Keeps row)
include hrow

theorem Joint.step {a : LiveAction} (h : s.Joint kind row) (ha : s.Admits a)
    (hstep : s.step kind row a = some s') : s'.Joint kind row := by
  cases a with
  | serve a =>
    obtain ⟨server, hserver, hrest⟩ := bind_eq_some_iff.mp hstep
    obtain ⟨log, hlog, heq⟩ := bind_eq_some_iff.mp hrest
    obtain rfl := some.inj heq
    obtain ⟨log', hshows, hchanges⟩ := h.shows.act hrow h.server hserver
    obtain rfl : log' = log := some.inj ((foldlM_commit hchanges).symm.trans hlog)
    exact ⟨h.server.tail trivial hserver, reachableBy_commits h.client hlog, hshows⟩
  | follow a =>
    by_cases hcommit : ∃ m, a = .commit m
    · obtain ⟨m, rfl⟩ := hcommit
      cases hstep
    · have hnot := not_exists.mp hcommit
      rw [step_follow hnot] at hstep
      obtain ⟨client, hclient, rfl⟩ := map_eq_some_iff.mp hstep
      exact ⟨h.server, h.client.tail ha hclient, log_of_follow hnot hclient ▸ h.shows⟩

theorem joint_of_reachableBy (h : (liveRoom kind row).ReachableBy Admits s) : s.Joint kind row := by
  refine h.invariant (I := Joint kind row) ?_ fun s a s' hs ha hstep => hs.step hrow ha hstep
  rintro s ⟨hserver, hclient, hlog⟩
  refine ⟨.start hserver, .start hclient, ?_⟩
  rw [hlog, show s.server = _ from hserver]
  exact ⟨.nil, fun m => Iff.rfl⟩

/-- **A timeline shows the rows**: no step of the server has to wait for the client; and of each row
of the channel inside the window, up to the cursor, a ready timeline has just the version that the
row has. It has nothing but what a row was or is. -/
theorem client_shows_rows (h : (liveRoom kind row).ReachableBy Admits s) :
    (∀ a server, (LedgerService.system kind).step s.server a = some server →
      ∃ log, (liveRoom kind row).step s (.serve a) = some ⟨server, { s.client with log }⟩) ∧
    ∀ t, s.client.timeline = some t →
      (∀ x ∈ t.messages, ∃ m ∈ s.server.ledger.messages,
        (row m).place = x.place ∧ x.changeSeq ≤ m.changeSeq) ∧
      (t.status = .ready → ∀ m ∈ s.server.ledger.messages, m.inChannel = true →
        m.changeSeq ≤ t.changeSeq → t.window.admits t.messages m.seq = true →
          ∃ x ∈ t.messages, x.stamp = (row m).stamp) := by
  have hjoint := joint_of_reachableBy hrow h
  have hsound := RoomSync.sound_of_reachableBy hjoint.client
  refine ⟨fun a server hserver => ?_,
    fun t ht => ⟨fun x hx => ?_, fun hready m hm hch hk hadm => ?_⟩⟩
  · obtain ⟨log, -, hchanges⟩ := hjoint.shows.act hrow hjoint.server hserver
    refine ⟨log, ?_⟩
    show ((LedgerService.system kind).step s.server a).bind _ = _
    rw [hserver]
    exact (congrArg (Option.bind · _) (foldlM_commit hchanges)).trans rfl
  · have htouch := genuine_iff.mp (hsound.consistent t ht).genuine x hx
    obtain ⟨y, hy, hplace, hle⟩ :=
      s.client.log.exists_mem_rowsAt htouch (RoomLog.touch_bounds htouch).2
    obtain ⟨m, hm, rfl⟩ := mem_map.mp ((hjoint.shows.rows y).mp hy)
    exact ⟨m, hm, hplace, (hrow m).2 ▸ hle⟩
  · obtain ⟨hmem, -, hnewest⟩ :=
      s.client.log.mem_rowsAt.mp ((hjoint.shows.rows _).mpr (mem_map_of_mem hm))
    have hwin : (row m).place ∈ t.answersFor := by
      rw [(hrow m).1]
      exact ⟨hch, hadm⟩
    obtain ⟨v, hkv, hv⟩ := hsound.reflecting t ht hready _ _ ((hrow m).2.trans_le hk)
      (RoomLog.touch_of_mem hmem) hwin
    obtain ⟨x, hx, hplace, rfl⟩ := exists_of_held hv
    -- what is held is a version of the message, and none is newer than its row
    obtain ⟨y, hy, hyplace, hyk⟩ :=
      exists_of_held ((hsound.consistent t ht).genuine _ _ (held_of_mem hx))
    have hle := hnewest y hy (s.client.log.wellFormed.changeSeq_bounds hy).2
      ((congrArg Place.id (hyplace.trans hplace)))
    refine ⟨x, hx, ?_⟩
    show (⟨x.place, x.changeSeq⟩ : Stamp) = ⟨(row m).place, (row m).changeSeq⟩
    rw [hplace, le_antisymm (hyk ▸ hle) hkv]

end

/-- A message is sent to somebody who has the room open. -/
theorem client_shows_rows_sent : ∃ s, (liveRoom .roomPublic shownRow).ReachableBy Admits s ∧
    ∃ m ∈ s.server.ledger.messages, m.changeSeq = 2 ∧ ∃ t ∈ s.client.timeline,
      ∃ x ∈ t.messages, x.stamp = (shownRow m).stamp := by
  let start : LiveRoom :=
    ⟨⟨.empty, [], [], [], ⟨0, none, []⟩⟩, ⟨.empty, ⟨1, none, false⟩, none, none, none, []⟩⟩
  let sent (id seq : ℕ) : Message := { Message.said 1 seq seq with id }
  let actions : List LiveAction := [.serve (.other (.joinRoom 1 71 81)), .follow .openRoom,
    .follow (.pageAnswered ⟨1, 1, 1, 1⟩ [sent 81 1] (some 1) 0),
    .serve (.start (.sendMessage 1 73 83 "hello")), .serve (.step 0), .serve (.step 0),
    .serve (.step 0), .follow (.receive (sent 83 2))]
  let test (s : LiveRoom) : Bool :=
    s.server.ledger.messages.any (fun m => decide (m.inChannel = true ∧ m.changeSeq = 2)) &&
      s.client.timeline.any fun t =>
        decide (t.status = .ready ∧ t.changeSeq = 2 ∧ t.window = ⟨false, false⟩)
  have hrun : ((liveRoom .roomPublic shownRow).run start actions).any test = true := by
    decide +kernel
  obtain ⟨s, hs, htest⟩ := (any_eq_true _ _).mp hrun
  have hreach : (liveRoom .roomPublic shownRow).ReachableBy Admits s := by
    refine ⟨start, ⟨rfl, ⟨rfl, rfl, rfl, rfl⟩, rfl⟩, TransitionSystem.steps_of_run ?_ hs⟩
    exact fun a ha s =>
      admits_of_not_paging ((by decide : ∀ a ∈ actions, a.isPaging = false) a ha)
  obtain ⟨hmessage, htimeline⟩ := Bool.and_eq_true_iff.mp htest
  obtain ⟨m, hm, hprops⟩ := any_eq_true.mp hmessage
  obtain ⟨hch, hseq⟩ := of_decide_eq_true hprops
  obtain ⟨t, ht, hprops⟩ := (any_eq_true _ _).mp htimeline
  obtain ⟨hready, hcursor, hwindow⟩ := of_decide_eq_true hprops
  have hadm : t.window.admits t.messages m.seq = true := by
    rw [hwindow]
    rfl
  exact ⟨s, hreach, m, hm, hseq, t, ht, ((client_shows_rows keeps_shownRow hreach).2 t ht).2 hready m
    hm hch (hseq.trans_le hcursor.ge) hadm⟩

end LiveRoom

end Hibari
