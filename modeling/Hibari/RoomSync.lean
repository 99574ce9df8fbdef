import Hibari.TransitionSystem
import Hibari.History

/-!
# A room and a client that follows it

The server's log of one room and one client that has it open, as one
transition system. The server commits changes; events bring versions of
messages to the client, late, twice or never; and the client opens the room,
catches up and pages through its history by requests whose answers come
later. Which of these happens next is the action, so a run is an
interleaving. A request remembers how far the log had come when it was sent,
and its answer may have been read at any moment since (`Reads.Between`).

`Settled` is the bookkeeping of what is in flight: a catch-up was asked for
at a cursor that the timeline has reached, and no room is being loaded while
its timeline is ready. Together with the promise of the cursor it is kept by
every step but one – a paging answer that is not joined or not fresh
(`Admitted`). So a run without such an answer keeps the promise throughout
(`sound_of_reachableBy`).
-/

namespace Hibari

open List Option

/-- What a catch-up waits for: the changes after a number, or the latest page.
It remembers how far the log had come when it asked, and the newest message
shown when it began. -/
inductive SyncPhase
  | changes (start asked : ℕ) (previousNewest : Option ℕ)
  | latest (asked : ℕ) (previousNewest : Option ℕ)
  deriving DecidableEq

/-- A catch-up that is running, and whether to run it once more. -/
structure Syncing where
  again : Bool
  phase : SyncPhase
  deriving DecidableEq

/-- What opening a room waits for: the room alone, where its messages were
still there, the room and the latest page, or the catch-up and the read
position at the end. -/
inductive Opening
  | room
  | page (asked : ℕ)
  | settling
  deriving DecidableEq

/-- A paging request in flight. -/
structure PagingRequest where
  paging : Paging
  asked : ℕ
  deriving DecidableEq

/-- The room's log and the client's side of the room. -/
structure RoomSync where
  log : RoomLog
  viewer : Viewer
  timeline : Option TimelineState
  syncing : Option Syncing
  opening : Option Opening
  paging : List PagingRequest

/-- The paging requests a viewer can make. -/
inductive Request
  | loadOlder
  | loadNewer
  | jumpToMessage (messageId : Ulid)
  | jumpToUnread
  deriving DecidableEq

/-- What can happen next. An answer carries the moments at which it was read
and the messages as they were loaded. -/
inductive Action
  | commit (message : Message)
  | receive (message : Message)
  | syncTimeline
  | changesAnswered (reads : Reads) (messages : List Message)
  | latestAnswered (reads : Reads) (messages : List Message)
  | syncFailed (notFound : Bool)
  | openRoom
  | roomAnswered (lastReadSeq : Option ℕ) (unreadCount : ℤ)
  | pageAnswered (reads : Reads) (messages : List Message) (lastReadSeq : Option ℕ)
      (unreadCount : ℤ)
  | openFailed (notFound : Bool)
  | openSettled
  | request (request : Request)
  | pagingAnswered (index : ℕ) (reads : Reads) (messages : List Message)
  | pagingFailed (index : ℕ)
  | dismissUnread
  | look (lastReadSeq : Option (Option ℕ)) (caughtUp : Bool)
  | drop
  deriving DecidableEq

/-- Whether an action is part of paging. -/
def Action.isPaging : Action → Bool
  | .request _ => true
  | .pagingAnswered _ _ _ => true
  | .pagingFailed _ => true
  | _ => false

/-- What may happen while a page of history is awaited: the server commits
changes, and messages arrive. -/
def Action.isDelivery : Action → Bool
  | .commit _ => true
  | .receive _ => true
  | _ => false

namespace RoomSync

/-- One round of a catch-up: ask for the changes after the cursor of a ready
timeline. -/
def syncOnce (s : RoomSync) : RoomSync :=
  match s.timeline with
  | some timeline =>
    if timeline.status = .ready then
      { s with syncing := some ⟨false,
          .changes timeline.changeSeq s.log.length (newestChannelSeq timeline.messages)⟩ }
    else { s with syncing := none }
  | none => { s with syncing := none }

/-- Start a catch-up, or have the running one run once more. -/
def syncTimeline (s : RoomSync) : RoomSync :=
  match s.syncing with
  | some syncing => { s with syncing := some { syncing with again := true } }
  | none => s.syncOnce

/-- A round is over. -/
def syncOnceDone (again : Bool) (s : RoomSync) : RoomSync :=
  if again then s.syncOnce else { s with syncing := none }

/-- The status that a failed request leaves. -/
def failedStatus (notFound : Bool) : LoadStatus := if notFound then .notFound else .error

/-- Change the timeline, where there is one. -/
def updateTimeline (s : RoomSync) (f : TimelineState → TimelineState) : RoomSync :=
  { s with timeline := s.timeline.map f }

/-- The request that a viewer makes of a timeline. -/
def ask : Request → TimelineState → Option (Paging × TimelineState)
  | .loadOlder => Hibari.loadOlder
  | .loadNewer => Hibari.loadNewer
  | .jumpToMessage messageId => Hibari.jumpToMessage messageId
  | .jumpToUnread => Hibari.jumpToUnread

/-- An answer that was read since the request was sent. -/
def answer (s : RoomSync) (asked : ℕ) (reads : Reads) (cursor : MessageCursor) (limit : ℤ)
    (messages : List Message) : Option MessagePage :=
  if reads.Between asked s.log.length then s.log.answer reads cursor limit messages else none

/-- A message arrives. -/
def receive (s : RoomSync) (message : Message) : RoomSync :=
  match s.timeline with
  | none => s
  | some timeline =>
    let (timeline, due) := receiveMessage s.viewer message timeline
    let s := { s with timeline := some timeline }
    if due then s.syncTimeline else s

/-- The changes that a catch-up asked for arrive: the last page is merged, and
after any other one the latest page is asked for instead. -/
def changesAnswered (s : RoomSync) (again : Bool) (previousNewest : Option ℕ) (page : MessagePage) :
    RoomSync :=
  if page.hasMore then
    { s with syncing := some ⟨again, .latest s.log.length previousNewest⟩ }
  else (s.updateTimeline (absorbChanges s.viewer previousNewest page)).syncOnceDone again

/-- Open a room: ask for what changed where its messages are still there, and
for the latest page otherwise. -/
def openRoom (s : RoomSync) : RoomSync :=
  match s.opening, s.timeline with
  | some _, _ => s
  | none, some timeline =>
    if timeline.status = .ready then { s with opening := some .room }
    else { s with timeline := some (startLoading (some timeline)), opening := some (.page s.log.length) }
  | none, none =>
    { s with timeline := some (startLoading none), opening := some (.page s.log.length) }

/-- The room that was asked for arrives. -/
def roomAnswered (s : RoomSync) (lastReadSeq : Option ℕ) (unreadCount : ℤ) : RoomSync :=
  let s := { s with
    viewer := { s.viewer with lastReadSeq := some lastReadSeq }
    opening := some .settling }
  (s.updateTimeline (fun timeline =>
    { timeline with unreadAfterSeq := lastReadSeq, unreadAtOpen := unreadCount })).syncTimeline

/-- The room and the latest page arrive. -/
def pageAnswered (s : RoomSync) (page : MessagePage) (lastReadSeq : Option ℕ) (unreadCount : ℤ) :
    RoomSync :=
  { s with
    viewer := { s.viewer with lastReadSeq := some lastReadSeq }
    timeline := some (finishLoading lastReadSeq unreadCount page s.timeline)
    opening := some .settling }

/-- A page that was asked for arrives. Where newer messages reach the newest
there is, a catch-up follows. -/
def pagingAnswered (s : RoomSync) (index : ℕ) (paging : Paging) (page : MessagePage) : RoomSync :=
  let s := { s.updateTimeline (paging.apply page) with paging := s.paging.eraseIdx index }
  match paging with
  | .newer _ => if page.hasMore then s else s.syncTimeline
  | _ => s

/-- **What an action does.** -/
def step (s : RoomSync) : Action → Option RoomSync
  | .commit message => (s.log.commit message).map (fun log => { s with log := log })
  | .receive message =>
    if message.stamp ∈ s.log.changes.map Message.stamp then some (s.receive message) else none
  | .syncTimeline => some s.syncTimeline
  | .changesAnswered reads messages =>
    match s.syncing with
    | some ⟨again, .changes start asked previousNewest⟩ =>
      (s.answer asked reads (.afterChange start) changePageSize messages).map
        (s.changesAnswered again previousNewest)
    | _ => none
  | .latestAnswered reads messages =>
    match s.syncing with
    | some ⟨again, .latest asked previousNewest⟩ =>
      (s.answer asked reads .latest messagePageSize messages).map (fun page =>
        (s.updateTimeline (replaceWithLatest s.viewer previousNewest page)).syncOnceDone again)
    | _ => none
  | .syncFailed notFound =>
    if s.syncing.isNone then none
    else if notFound then
      some { s.updateTimeline (fun timeline => { timeline with status := .notFound }) with
        syncing := none }
    else some { s with syncing := none }
  | .openRoom => some s.openRoom
  | .roomAnswered lastReadSeq unreadCount =>
    if s.opening = some .room then some (s.roomAnswered lastReadSeq unreadCount) else none
  | .pageAnswered reads messages lastReadSeq unreadCount =>
    match s.opening with
    | some (.page asked) =>
      (s.answer asked reads .latest messagePageSize messages).map (fun page =>
        s.pageAnswered page lastReadSeq unreadCount)
    | _ => none
  | .openFailed notFound =>
    match s.opening with
    | none => none
    | some .settling => none
    | some _ =>
      some { s.updateTimeline (fun timeline => { timeline with status := failedStatus notFound }) with
        opening := none }
  | .openSettled => if s.opening = some .settling then some { s with opening := none } else none
  | .request request =>
    (s.timeline.bind (ask request)).map (fun asked =>
      { s with timeline := some asked.2, paging := s.paging ++ [⟨asked.1, s.log.length⟩] })
  | .pagingAnswered index reads messages =>
    match s.paging[index]? with
    | some request =>
      (s.answer request.asked reads request.paging.cursor messagePageSize messages).map
        (s.pagingAnswered index request.paging)
    | none => none
  | .pagingFailed index =>
    match s.paging[index]? with
    | some request =>
      some { s.updateTimeline request.paging.fail with paging := s.paging.eraseIdx index }
    | none => none
  | .dismissUnread =>
    some (s.updateTimeline (fun timeline => { timeline with unreadAfterSeq := none }))
  | .look lastReadSeq caughtUp =>
    some { s with viewer := { s.viewer with lastReadSeq := lastReadSeq, caughtUp := caughtUp } }
  | .drop => some { s with timeline := none }

/-- **The system**: a room with any history, which the client has not opened
yet. -/
def system : TransitionSystem RoomSync Action where
  init s := s.timeline = none ∧ s.syncing = none ∧ s.opening = none ∧ s.paging = []
  step := step

/-! ## The log grows -/

section Commit

variable {log log' : RoomLog} {message : Message} {watch : Watch}
  {k : ℕ} {p : Place} {timeline : TimelineState} (h : log.commit message = some log')
include h

theorem changes_of_commit : log'.changes = log.changes ++ [message] := by
  unfold RoomLog.commit at h
  split at h
  · cases h
    rfl
  · cases h

theorem length_of_commit : log'.length = log.length + 1 := by
  unfold RoomLog.length
  rw [changes_of_commit h, length_append, length_singleton]

theorem touch_commit (ht : log.touch k p) : log'.touch k p := by
  unfold RoomLog.touch
  rw [changes_of_commit h, map_append]
  exact mem_append_left _ ht

/-- A commit adds no change up to the old length. -/
theorem touch_of_commit (ht : log'.touch k p) (hk : k ≤ log.length) : log.touch k p := by
  unfold RoomLog.touch at ht
  rw [changes_of_commit h, map_append] at ht
  refine (mem_append.mp ht).resolve_right fun hlast => ?_
  have hwf : WellFormed (log.changes ++ [message]) := changes_of_commit h ▸ log'.wellFormed
  have hst : (⟨p, k⟩ : Stamp) = message.stamp := mem_singleton.mp hlast
  have hnum : k = log.length + 1 :=
    (congrArg Stamp.changeSeq hst).trans hwf.snoc_inv.2.number
  exact absurd hk (hnum ▸ Nat.not_succ_le_self _)

theorem watched_of_commit
    (hw : log'.watched watch k p) (hk : k ≤ log.length) : log.watched watch k p := by
  cases watch with
  | changes => exact touch_of_commit h hw hk
  | creations =>
    exact ⟨touch_of_commit h hw.1 hk, fun k' ht => hw.2 k' (touch_commit h ht)⟩

theorem consistent_commit (hc : Consistent log timeline) : Consistent log' timeline where
  tidy := hc.tidy
  genuine := fun p v hv => touch_commit h (hc.genuine p v hv)
  changeSeq_le := hc.changeSeq_le.trans (by rw [length_of_commit h]; exact Nat.le_succ _)

/-- A cursor promises nothing about changes that come after it. -/
theorem reflecting_commit (hc : Consistent log timeline) (hr : Reflecting log watch timeline) :
    Reflecting log' watch timeline :=
  hr.mono_touch (fun _ _ hk hw => watched_of_commit h hw (hk.trans hc.changeSeq_le))

end Commit

variable {page : MessagePage} {f : TimelineState → TimelineState} {t : TimelineState}
    {paging : Paging} {a : Action}

/-! ## What holds of every run -/

variable {s s' : RoomSync} {watch : Watch}

/-- The timeline is consistent with the log, if there is one. -/
def ConsistentRoom (s : RoomSync) : Prop := ∀ t, s.timeline = some t → Consistent s.log t

@[simp] theorem syncOnce_timeline (s : RoomSync) : s.syncOnce.timeline = s.timeline := by
  unfold syncOnce
  split
  · split <;> rfl
  · rfl

@[simp] theorem syncOnce_log (s : RoomSync) : s.syncOnce.log = s.log := by
  unfold syncOnce
  split
  · split <;> rfl
  · rfl

@[simp] theorem syncTimeline_timeline (s : RoomSync) : s.syncTimeline.timeline = s.timeline := by
  unfold syncTimeline
  split
  · rfl
  · exact s.syncOnce_timeline

@[simp] theorem syncTimeline_log (s : RoomSync) : s.syncTimeline.log = s.log := by
  unfold syncTimeline
  split
  · rfl
  · exact s.syncOnce_log

@[simp] theorem syncOnceDone_timeline (again : Bool) (s : RoomSync) :
    (s.syncOnceDone again).timeline = s.timeline := by
  unfold syncOnceDone
  split
  · exact s.syncOnce_timeline
  · rfl

@[simp] theorem syncOnceDone_log (again : Bool) (s : RoomSync) :
    (s.syncOnceDone again).log = s.log := by
  unfold syncOnceDone
  split
  · exact s.syncOnce_log
  · rfl

theorem answer_eq_some {asked : ℕ} {reads : Reads} {cursor : MessageCursor} {limit : ℤ}
    {messages : List Message}
    (h : s.answer asked reads cursor limit messages = some page) :
    reads.Between asked s.log.length ∧ s.log.answer reads cursor limit messages = some page := by
  unfold answer at h
  split at h
  · next hb => exact ⟨hb, h⟩
  · cases h

theorem consistentRoom_updateTimeline (hf : ∀ t, s.timeline = some t → Consistent s.log (f t)) :
    ConsistentRoom (s.updateTimeline f) := by
  intro t' ht'
  obtain ⟨t, ht, rfl⟩ := map_eq_some_iff.mp ht'
  exact hf t ht

/-- The timeline that a request leaves: only a loading mark is set. -/
theorem ask_eq {request : Request} {t' : TimelineState} (h : ask request t = some (paging, t')) :
    t.status = .ready ∧ ∃ older newer, t' = { t with loadingOlder := older, loadingNewer := newer } := by
  cases request with
  | loadOlder =>
    rw [ask, Hibari.loadOlder] at h
    split at h
    · cases h
    · next hguard =>
      obtain ⟨o, -, hpair⟩ := map_eq_some_iff.mp h
      cases hpair
      exact ⟨not_not.mp fun hs => hguard (.inl hs), _, _, rfl⟩
  | loadNewer =>
    rw [ask, Hibari.loadNewer] at h
    split at h
    · cases h
    · next hguard =>
      obtain ⟨o, -, hpair⟩ := map_eq_some_iff.mp h
      cases hpair
      exact ⟨not_not.mp fun hs => hguard (.inl hs), _, _, rfl⟩
  | jumpToMessage =>
    rw [ask, Hibari.jumpToMessage] at h
    split at h
    · next hs =>
      cases h
      exact ⟨hs, _, _, rfl⟩
    · cases h
  | jumpToUnread =>
    rw [ask, Hibari.jumpToUnread] at h
    split at h
    · next hs =>
      obtain ⟨o, -, hpair⟩ := map_eq_some_iff.mp h
      cases hpair
      exact ⟨hs, _, _, rfl⟩
    · cases h

/-- What a failed request leaves: only a loading mark is taken back. -/
theorem fail_eq (paging : Paging) (t : TimelineState) :
    ∃ older newer, paging.fail t = { t with loadingOlder := older, loadingNewer := newer } := by
  cases paging <;> exact ⟨_, _, rfl⟩

theorem receive_log (s : RoomSync) (message : Message) : (s.receive message).log = s.log := by
  unfold receive
  split
  · rfl
  · simp only
    split
    · rw [syncTimeline_log]
    · rfl

theorem receive_timeline (s : RoomSync) (message : Message) : (s.receive message).timeline =
      s.timeline.map (fun t => (receiveMessage s.viewer message t).1) := by
  unfold receive
  split
  · next htimeline => rw [htimeline]; rfl
  · next t htimeline =>
    simp only
    split
    · rw [syncTimeline_timeline, htimeline]; rfl
    · rw [htimeline]; rfl

/-- What opening a room leaves: the timeline as it was, or one being
loaded. -/
theorem openRoom_cases (s : RoomSync) : s.openRoom = s ∨
      (∃ t, s.timeline = some t ∧ t.status = .ready ∧
        s.openRoom = { s with opening := some .room }) ∨
      s.openRoom = { s with
        timeline := some (startLoading s.timeline), opening := some (.page s.log.length) } := by
  unfold openRoom
  cases hopening : s.opening with
  | some => exact .inl rfl
  | none =>
    cases htimeline : s.timeline with
    | none => exact .inr (.inr rfl)
    | some t =>
      simp only
      split
      · next hready => exact .inr (.inl ⟨t, rfl, hready, rfl⟩)
      · exact .inr (.inr rfl)

theorem pagingAnswered_timeline (s : RoomSync) (index : ℕ) (paging : Paging) (page : MessagePage) :
    (s.pagingAnswered index paging page).timeline = s.timeline.map (paging.apply page) := by
  cases paging with
  | newer =>
    simp only [pagingAnswered]
    split
    · rfl
    · rw [syncTimeline_timeline]; rfl
  | _ => rfl

theorem pagingAnswered_log (s : RoomSync) (index : ℕ) (paging : Paging) (page : MessagePage) :
    (s.pagingAnswered index paging page).log = s.log := by
  cases paging with
  | newer =>
    simp only [pagingAnswered]
    split
    · rfl
    · rw [syncTimeline_log]; rfl
  | _ => rfl

theorem changesAnswered_log (s : RoomSync) (again : Bool) (previousNewest : Option ℕ)
    (page : MessagePage) : (s.changesAnswered again previousNewest page).log = s.log := by
  unfold changesAnswered
  split
  · rfl
  · rw [syncOnceDone_log]; rfl

theorem changesAnswered_timeline (s : RoomSync) (again : Bool) (previousNewest : Option ℕ)
    (page : MessagePage) :
    (s.changesAnswered again previousNewest page).timeline =
      if page.hasMore then s.timeline
      else s.timeline.map (absorbChanges s.viewer previousNewest page) := by
  unfold changesAnswered
  split
  · rfl
  · rw [syncOnceDone_timeline]; rfl

/-- **Every step keeps the timeline consistent with the log.** -/
theorem consistentRoom_step (h : ConsistentRoom s) (hs : s.step a = some s') :
    ConsistentRoom s' := by
  cases a with
  | commit =>
    obtain ⟨log', hlog, rfl⟩ := map_eq_some_iff.mp hs
    exact fun t ht => consistent_commit hlog (h t ht)
  | receive =>
    rw [step] at hs
    split at hs
    · next hmem =>
      cases hs
      intro t ht
      rw [receive_timeline] at ht
      rw [receive_log]
      obtain ⟨t₀, ht₀, rfl⟩ := map_eq_some_iff.mp ht
      exact (h t₀ ht₀).receiveMessage hmem
    · cases hs
  | syncTimeline =>
    cases hs
    intro t ht
    rw [syncTimeline_timeline] at ht
    rw [syncTimeline_log]
    exact h t ht
  | changesAnswered =>
    rw [step] at hs
    split at hs
    · next again start asked previousNewest _ =>
      obtain ⟨page, hpage, rfl⟩ := map_eq_some_iff.mp hs
      obtain ⟨hb, hpage⟩ := answer_eq_some hpage
      intro t ht
      rw [changesAnswered_timeline] at ht
      rw [changesAnswered_log]
      split at ht
      · exact h t ht
      · obtain ⟨t₀, ht₀, rfl⟩ := map_eq_some_iff.mp ht
        exact (h t₀ ht₀).absorbChanges hpage hb.room_le
    · cases hs
  | latestAnswered =>
    rw [step] at hs
    split at hs
    · next again asked previousNewest _ =>
      obtain ⟨page, hpage, rfl⟩ := map_eq_some_iff.mp hs
      obtain ⟨hb, hpage⟩ := answer_eq_some hpage
      intro t ht
      rw [syncOnceDone_timeline] at ht
      rw [syncOnceDone_log]
      obtain ⟨t₀, ht₀, rfl⟩ := map_eq_some_iff.mp ht
      exact (h t₀ ht₀).replaceWithLatest hpage hb.room_le
    · cases hs
  | syncFailed =>
    rw [step] at hs
    split at hs
    · cases hs
    · split at hs
      · cases hs
        exact consistentRoom_updateTimeline fun t ht => (h t ht).congr rfl rfl
      · cases hs
        exact h
  | openRoom =>
    cases hs
    rcases s.openRoom_cases with heq | ⟨-, -, -, heq⟩ | heq
    · rw [heq]; exact h
    · rw [heq]; exact h
    · rw [heq]
      intro t ht
      cases ht
      exact consistent_startLoading h
  | roomAnswered =>
    rw [step] at hs
    split at hs
    · cases hs
      intro t ht
      rw [roomAnswered, syncTimeline_timeline] at ht
      rw [roomAnswered, syncTimeline_log]
      obtain ⟨t₀, ht₀, rfl⟩ := map_eq_some_iff.mp ht
      exact (h t₀ ht₀).congr rfl rfl
    · cases hs
  | pageAnswered =>
    rw [step] at hs
    split at hs
    · obtain ⟨page, hpage, rfl⟩ := map_eq_some_iff.mp hs
      obtain ⟨hb, hpage⟩ := answer_eq_some hpage
      intro t ht
      cases ht
      exact consistent_finishLoading h hpage hb.room_le
    · cases hs
  | openFailed =>
    rw [step] at hs
    split at hs
    · cases hs
    · cases hs
    · cases hs
      exact consistentRoom_updateTimeline fun t ht => (h t ht).congr rfl rfl
  | openSettled =>
    rw [step] at hs
    split at hs
    · cases hs
      exact h
    · cases hs
  | request =>
    obtain ⟨⟨paging, t'⟩, hask, rfl⟩ := map_eq_some_iff.mp hs
    obtain ⟨t₀, ht₀, hask⟩ := bind_eq_some_iff.mp hask
    obtain ⟨-, older, newer, rfl⟩ := ask_eq hask
    intro t ht
    cases ht
    exact (h t₀ ht₀).congr rfl rfl
  | pagingAnswered =>
    rw [step] at hs
    split at hs
    · obtain ⟨page, hpage, rfl⟩ := map_eq_some_iff.mp hs
      obtain ⟨hb, hpage⟩ := answer_eq_some hpage
      intro t ht
      rw [pagingAnswered_timeline] at ht
      rw [pagingAnswered_log]
      obtain ⟨t₀, ht₀, rfl⟩ := map_eq_some_iff.mp ht
      exact (h t₀ ht₀).applyPaging hpage hb.room_le
    · cases hs
  | pagingFailed =>
    rw [step] at hs
    split at hs
    · next request _ =>
      cases hs
      refine consistentRoom_updateTimeline fun t ht => ?_
      obtain ⟨older, newer, heq⟩ := fail_eq request.paging t
      rw [heq]
      exact (h t ht).congr rfl rfl
    · cases hs
  | dismissUnread =>
    cases hs
    exact consistentRoom_updateTimeline fun t ht => (h t ht).congr rfl rfl
  | look =>
    cases hs
    exact h
  | drop =>
    cases hs
    exact nofun

/-- In every run the timeline is consistent with the log. -/
theorem consistentRoom_of_reachableBy {P : RoomSync → Action → Prop}
    (h : system.ReachableBy P s) : ConsistentRoom s :=
  h.invariant (I := ConsistentRoom)
    (fun _ (hinit : _ = none ∧ _) _ ht => absurd (hinit.1.symm.trans ht) (some_ne_none _).symm)
    (fun _ _ _ hI _ hs => consistentRoom_step hI hs)

/-! ## What is in flight -/

/-- Where the changes that a catch-up waits for start. -/
def syncStart (s : RoomSync) : Option ℕ :=
  match s.syncing with
  | some ⟨_, .changes start _ _⟩ => some start
  | _ => none

/-- **What is in flight is settled**: a catch-up starts at a number that was
given out, that a ready timeline has reached, and that the log had reached
when the latest page was asked for; and while that page is awaited the
timeline is not ready. -/
structure Settled (s : RoomSync) : Prop where
  start_le_log : ∀ n, s.syncStart = some n → n ≤ s.log.length
  start_le_cursor : ∀ n, s.syncStart = some n →
    ∀ t, s.timeline = some t → t.status = .ready → n ≤ t.changeSeq
  start_le_asked : ∀ n, s.syncStart = some n → ∀ asked, s.opening = some (.page asked) → n ≤ asked
  loading : ∀ asked, s.opening = some (.page asked) → ∀ t, s.timeline = some t → t.status ≠ .ready

/-- A step that starts no request and only moves the cursor of a ready
timeline on keeps what is in flight settled. -/
theorem Settled.of_step (h : Settled s) (hlog : s.log.length ≤ s'.log.length)
    (hsync : ∀ n, s'.syncStart = some n → s.syncStart = some n)
    (hopening : ∀ asked, s'.opening = some (.page asked) → s.opening = some (.page asked))
    (hready : ∀ t', s'.timeline = some t' → t'.status = .ready →
      ∃ t, s.timeline = some t ∧ t.status = .ready ∧ t.changeSeq ≤ t'.changeSeq) :
    Settled s' where
  start_le_log n hn := (h.start_le_log n (hsync n hn)).trans hlog
  start_le_cursor n hn t' ht' hr' := by
    obtain ⟨t, ht, hr, hle⟩ := hready t' ht' hr'
    exact (h.start_le_cursor n (hsync n hn) t ht hr).trans hle
  start_le_asked n hn asked ho := h.start_le_asked n (hsync n hn) asked (hopening asked ho)
  loading asked ho t' ht' hr' := by
    obtain ⟨t, ht, hr, -⟩ := hready t' ht' hr'
    exact h.loading asked (hopening asked ho) t ht hr

/-- An update that keeps the status and does not move the cursor back. -/
theorem Settled.updateTimeline (h : Settled s)
    (hf : ∀ t, s.timeline = some t → (f t).status = .ready →
      t.status = .ready ∧ t.changeSeq ≤ (f t).changeSeq) : Settled (s.updateTimeline f) := by
  refine h.of_step le_rfl (fun _ hn => hn) (fun _ ho => ho) fun t' ht' hr' => ?_
  obtain ⟨t, ht, rfl⟩ := map_eq_some_iff.mp ht'
  exact ⟨t, ht, hf t ht hr'⟩

@[simp] theorem syncOnce_opening (s : RoomSync) : s.syncOnce.opening = s.opening := by
  unfold syncOnce
  split
  · split <;> rfl
  · rfl

/-- A round of a catch-up starts at the cursor of a ready timeline. -/
theorem syncStart_syncOnce {n : ℕ} (h : s.syncOnce.syncStart = some n) :
    ∃ t, s.timeline = some t ∧ t.status = .ready ∧ n = t.changeSeq := by
  unfold syncOnce at h
  split at h
  · next t ht =>
    split at h
    · next hr => exact ⟨t, ht, hr, (some.inj h).symm⟩
    · exact absurd h (by simp [syncStart])
  · exact absurd h (by simp [syncStart])

variable (hc : ConsistentRoom s)
include hc

/-- Starting a round needs only that nothing is loaded over a ready
timeline. -/
theorem settled_syncOnce (hloading : ∀ asked, s.opening = some (.page asked) →
      ∀ t, s.timeline = some t → t.status ≠ .ready) : Settled s.syncOnce where
  start_le_log n hn := by
    obtain ⟨t, ht, -, rfl⟩ := syncStart_syncOnce hn
    rw [syncOnce_log]
    exact (hc t ht).changeSeq_le
  start_le_cursor n hn t' ht' _ := by
    obtain ⟨t, ht, -, rfl⟩ := syncStart_syncOnce hn
    rw [syncOnce_timeline, ht] at ht'
    exact (congrArg TimelineState.changeSeq (some.inj ht')).le
  start_le_asked n hn asked ho := by
    obtain ⟨t, ht, hr, -⟩ := syncStart_syncOnce hn
    exact absurd hr (hloading asked (s.syncOnce_opening ▸ ho) t ht)
  loading asked ho t ht := hloading asked (s.syncOnce_opening ▸ ho) t (s.syncOnce_timeline ▸ ht)

theorem settled_syncOnceDone (again : Bool) (hloading : ∀ asked, s.opening = some (.page asked) →
      ∀ t, s.timeline = some t → t.status ≠ .ready) : Settled (s.syncOnceDone again) := by
  unfold syncOnceDone
  split
  · exact settled_syncOnce hc hloading
  · exact ⟨fun _ hn => absurd hn (by simp [syncStart]), fun _ hn => absurd hn (by simp [syncStart]),
      fun _ hn => absurd hn (by simp [syncStart]), hloading⟩

theorem settled_syncTimeline (h : Settled s) : Settled s.syncTimeline := by
  unfold syncTimeline
  split
  · next syncing hsyncing =>
    refine h.of_step le_rfl (fun n hn => ?_) (fun _ ho => ho) (fun t ht hr => ⟨t, ht, hr, le_rfl⟩)
    -- only the mark to run once more is set
    obtain ⟨again, phase⟩ := syncing
    rw [syncStart, hsyncing]
    cases phase with
    | _ => exact hn
  · exact settled_syncOnce hc h.loading

omit hc

/-- Which answers are joined: a page of history finds the edge it was asked
for. -/
def JoinedStep (s : RoomSync) (a : Action) : Prop :=
  match a with
  | .pagingAnswered index _ _ =>
    ∀ request, s.paging[index]? = some request → ∀ t, s.timeline = some t → Joined request.paging t
  | _ => True

/-- A joined page leaves a ready timeline only where there was one. -/
theorem ready_of_applyPaging
    (hjoined : Joined paging t) (h : (paging.apply page t).status = .ready) :
    t.status = .ready := by
  cases paging with
  | older | newer => exact h
  | _ => exact hjoined

include hc

/-- **Joined answers keep what is in flight settled.** -/
theorem settled_step (h : Settled s) (hj : JoinedStep s a)
    (hs : s.step a = some s') : Settled s' := by
  have hsame : ∀ t', s.timeline = some t' → t'.status = .ready →
      ∃ t, s.timeline = some t ∧ t.status = .ready ∧ t.changeSeq ≤ t'.changeSeq :=
    fun t ht hr => ⟨t, ht, hr, le_rfl⟩
  cases a with
  | commit =>
    obtain ⟨log', hlog, rfl⟩ := map_eq_some_iff.mp hs
    exact h.of_step ((Nat.le_succ _).trans (length_of_commit hlog).ge) (fun _ hn => hn)
      (fun _ ho => ho) hsame
  | receive message =>
    rw [step] at hs
    split at hs
    · next hmem =>
      cases hs
      have hupdate : Settled (s.updateTimeline fun t => (receiveMessage s.viewer message t).1) :=
        h.updateTimeline fun t _ hr => ⟨receiveMessage_status ▸ hr, le_receiveMessage_changeSeq⟩
      unfold receive
      split
      · exact h
      · next t ht =>
        have heq : ({ s with timeline := some (receiveMessage s.viewer message t).1 } : RoomSync) =
            s.updateTimeline fun t => (receiveMessage s.viewer message t).1 := by
          rw [RoomSync.updateTimeline, ht]
          rfl
        simp only [heq]
        split
        · refine settled_syncTimeline (consistentRoom_updateTimeline fun t ht => ?_) hupdate
          exact (hc t ht).receiveMessage hmem
        · exact hupdate
    · cases hs
  | syncTimeline =>
    cases hs
    exact settled_syncTimeline hc h
  | changesAnswered =>
    rw [step] at hs
    split at hs
    · next again start asked previousNewest _ =>
      obtain ⟨page, hpage, rfl⟩ := map_eq_some_iff.mp hs
      obtain ⟨hb, hpage⟩ := answer_eq_some hpage
      unfold changesAnswered
      split
      · exact h.of_step le_rfl (fun n hn => absurd hn (by simp [syncStart])) (fun _ ho => ho) hsame
      · refine settled_syncOnceDone (consistentRoom_updateTimeline fun t ht => ?_) again
          (h.updateTimeline fun t _ hr => ?_).loading
        · exact (hc t ht).absorbChanges hpage hb.room_le
        · exact ⟨absorbChanges_status ▸ hr, le_absorbChanges_changeSeq⟩
    · cases hs
  | latestAnswered =>
    rw [step] at hs
    split at hs
    · next again asked previousNewest _ =>
      obtain ⟨page, hpage, rfl⟩ := map_eq_some_iff.mp hs
      obtain ⟨hb, hpage⟩ := answer_eq_some hpage
      refine settled_syncOnceDone (consistentRoom_updateTimeline fun t ht => ?_) again
        fun asked ho t' ht' => ?_
      · exact (hc t ht).replaceWithLatest hpage hb.room_le
      · obtain ⟨t, ht, rfl⟩ := map_eq_some_iff.mp ht'
        rw [replaceWithLatest_status]
        exact h.loading asked ho t ht
    · cases hs
  | syncFailed =>
    rw [step] at hs
    split at hs
    · cases hs
    · split at hs
      · cases hs
        refine h.of_step le_rfl (fun n hn => absurd hn (by simp [syncStart])) (fun _ ho => ho)
          fun t' ht' hr' => ?_
        obtain ⟨t, -, rfl⟩ := map_eq_some_iff.mp ht'
        exact LoadStatus.noConfusion hr'
      · cases hs
        exact h.of_step le_rfl (fun n hn => absurd hn (by simp [syncStart])) (fun _ ho => ho) hsame
  | openRoom =>
    cases hs
    rcases s.openRoom_cases with heq | ⟨-, -, -, heq⟩ | heq
    · rw [heq]; exact h
    · rw [heq]
      exact h.of_step le_rfl (fun _ hn => hn) (fun _ ho => Opening.noConfusion (some.inj ho)) hsame
    · rw [heq]
      -- the latest page is asked for now, and the timeline is not ready until it comes
      refine ⟨h.start_le_log, fun n _ t ht hr => ?_, fun n hn asked ho => ?_, fun asked _ t ht => ?_⟩
      · cases ht
        exact LoadStatus.noConfusion hr
      · obtain rfl : s.log.length = asked := Opening.page.inj (some.inj ho)
        exact h.start_le_log n hn
      · cases ht
        exact fun hr => LoadStatus.noConfusion hr
  | roomAnswered =>
    rw [step] at hs
    split at hs
    · cases hs
      refine settled_syncTimeline (consistentRoom_updateTimeline fun t ht => ?_) ?_
      · exact (hc t ht).congr rfl rfl
      · refine h.of_step le_rfl (fun _ hn => hn)
          (fun _ ho => Opening.noConfusion (some.inj ho)) fun t' ht' hr' => ?_
        obtain ⟨t, ht, rfl⟩ := map_eq_some_iff.mp ht'
        exact ⟨t, ht, hr', le_rfl⟩
    · cases hs
  | pageAnswered =>
    rw [step] at hs
    split at hs
    · next asked hopening =>
      obtain ⟨page, hpage, rfl⟩ := map_eq_some_iff.mp hs
      obtain ⟨hb, hpage⟩ := answer_eq_some hpage
      refine ⟨h.start_le_log, fun n hn t ht _ => ?_, fun _ _ _ ho => ?_, fun _ ho => ?_⟩
      · -- the page was read after the catch-up started
        cases ht
        exact (h.start_le_asked n hn asked hopening).trans
          (hb.room_after.trans (le_finishLoading_changeSeq hpage))
      · exact Opening.noConfusion (some.inj ho)
      · exact Opening.noConfusion (some.inj ho)
    · cases hs
  | openFailed notFound =>
    rw [step] at hs
    split at hs
    · cases hs
    · cases hs
    · cases hs
      refine h.of_step le_rfl (fun _ hn => hn) nofun fun t' ht' hr' => ?_
      obtain ⟨t, -, rfl⟩ := map_eq_some_iff.mp ht'
      cases notFound <;> exact LoadStatus.noConfusion hr'
  | openSettled =>
    rw [step] at hs
    split at hs
    · cases hs
      exact h.of_step le_rfl (fun _ hn => hn) nofun hsame
    · cases hs
  | request =>
    obtain ⟨⟨paging, t'⟩, hask, rfl⟩ := map_eq_some_iff.mp hs
    obtain ⟨t₀, ht₀, hask⟩ := bind_eq_some_iff.mp hask
    obtain ⟨hr, older, newer, rfl⟩ := ask_eq hask
    refine h.of_step le_rfl (fun _ hn => hn) (fun _ ho => ho) fun t ht _ => ?_
    cases ht
    exact ⟨t₀, ht₀, hr, le_rfl⟩
  | pagingAnswered index =>
    rw [step] at hs
    split at hs
    · next request hrequest =>
      obtain ⟨page, hpage, rfl⟩ := map_eq_some_iff.mp hs
      obtain ⟨hb, hpage⟩ := answer_eq_some hpage
      have hupdate : Settled { s.updateTimeline (request.paging.apply page) with
          paging := s.paging.eraseIdx index } := by
        refine h.of_step le_rfl (fun _ hn => hn) (fun _ ho => ho) fun t' ht' hr' => ?_
        obtain ⟨t, ht, rfl⟩ := map_eq_some_iff.mp ht'
        exact ⟨t, ht, ready_of_applyPaging (hj request hrequest t ht) hr', le_applyPaging_changeSeq⟩
      have hcupdate : ConsistentRoom { s.updateTimeline (request.paging.apply page) with
          paging := s.paging.eraseIdx index } :=
        consistentRoom_updateTimeline fun t ht => (hc t ht).applyPaging hpage hb.room_le
      unfold pagingAnswered
      simp only
      split
      · split
        · exact hupdate
        · exact settled_syncTimeline hcupdate hupdate
      · exact hupdate
    · cases hs
  | pagingFailed =>
    rw [step] at hs
    split at hs
    · next request _ =>
      cases hs
      refine h.of_step le_rfl (fun _ hn => hn) (fun _ ho => ho) fun t' ht' hr' => ?_
      obtain ⟨t, ht, rfl⟩ := map_eq_some_iff.mp ht'
      obtain ⟨older, newer, heq⟩ := fail_eq request.paging t
      rw [heq] at hr' ⊢
      exact ⟨t, ht, hr', le_rfl⟩
    · cases hs
  | dismissUnread =>
    cases hs
    exact h.updateTimeline fun t _ hr => ⟨hr, le_rfl⟩
  | look =>
    cases hs
    exact h.of_step le_rfl (fun _ hn => hn) (fun _ ho => ho) hsame
  | drop =>
    cases hs
    exact h.of_step le_rfl (fun _ hn => hn) (fun _ ho => ho) nofun

/-! ## The promise of the cursor, over runs -/

omit hc

/-- Which answers are fresh: nothing the cursor counts happened in the range
of a page of history after it was read. -/
def FreshStep (watch : Watch) (s : RoomSync) (a : Action) : Prop :=
  match a with
  | .pagingAnswered index reads messages =>
    ∀ request, s.paging[index]? = some request →
      ∀ page, s.answer request.asked reads request.paging.cursor messagePageSize messages = some page →
        ∀ t, s.timeline = some t → t.status = .ready → Fresh s.log watch reads request.paging page t
  | _ => True

/-- The ready timeline keeps the promise of its cursor, if there is one. -/
def ReflectingRoom (watch : Watch) (s : RoomSync) : Prop :=
  ∀ t, s.timeline = some t → t.status = .ready → Reflecting s.log watch t

/-- **What a sound client keeps**: its timeline is consistent with the log, what is
in flight is settled, and the cursor keeps its promise. -/
structure Sound (watch : Watch) (s : RoomSync) : Prop where
  consistent : ConsistentRoom s
  settled : Settled s
  reflecting : ReflectingRoom watch s

/-- The steps that keep the promise: every step but an answer with a page of
history that is not joined or not fresh. -/
def Admitted (watch : Watch) (s : RoomSync) (a : Action) : Prop :=
  JoinedStep s a ∧ FreshStep watch s a

/-- An update that keeps the promise of a ready timeline. -/
theorem reflectingRoom_updateTimeline
    (hf : ∀ t, s.timeline = some t → (f t).status = .ready → Reflecting s.log watch (f t)) :
    ReflectingRoom watch (s.updateTimeline f) := by
  intro t' ht' hr'
  obtain ⟨t, ht, rfl⟩ := map_eq_some_iff.mp ht'
  exact hf t ht hr'

/-- The promise is about the log and the timeline. -/
theorem ReflectingRoom.congr (h : ReflectingRoom watch s) (hlog : s'.log = s.log)
    (htimeline : s'.timeline = s.timeline) : ReflectingRoom watch s' := by
  intro t ht hr
  rw [hlog]
  exact h t (htimeline ▸ ht) hr

/-- **Each admitted step keeps the promise.** -/
theorem reflectingRoom_step (h : Sound watch s) (ha : Admitted watch s a)
    (hs : s.step a = some s') : ReflectingRoom watch s' := by
  obtain ⟨hc, hset, hr⟩ := h
  cases a with
  | commit =>
    obtain ⟨log', hlog, rfl⟩ := map_eq_some_iff.mp hs
    exact fun t ht hready => reflecting_commit hlog (hc t ht) (hr t ht hready)
  | receive message =>
    rw [step] at hs
    split at hs
    · next hmem =>
      cases hs
      have hupdate : ReflectingRoom watch
          (s.updateTimeline fun t => (receiveMessage s.viewer message t).1) := by
        refine reflectingRoom_updateTimeline fun t ht hready => ?_
        rw [receiveMessage_status] at hready
        exact (hr t ht hready).receiveMessage (hc t ht) hready hmem
      exact hupdate.congr (receive_log s message) (receive_timeline s message)
    · cases hs
  | syncTimeline =>
    cases hs
    exact hr.congr s.syncTimeline_log s.syncTimeline_timeline
  | changesAnswered =>
    rw [step] at hs
    split at hs
    · next again start asked previousNewest hsyncing =>
      obtain ⟨page, hpage, rfl⟩ := map_eq_some_iff.mp hs
      obtain ⟨hb, hpage⟩ := answer_eq_some hpage
      have hstart : s.syncStart = some start := by rw [syncStart, hsyncing]
      intro t' ht' hready'
      rw [changesAnswered_timeline] at ht'
      rw [changesAnswered_log]
      split at ht'
      · exact hr t' ht' hready'
      · next hmore =>
        obtain ⟨t, ht, rfl⟩ := map_eq_some_iff.mp ht'
        rw [absorbChanges_status] at hready'
        exact (hr t ht hready').absorbChanges (hc t ht) (hset.start_le_cursor start hstart t ht hready')
          hpage (Bool.not_eq_true _ ▸ hmore) hb.first_after
    · cases hs
  | latestAnswered =>
    rw [step] at hs
    split at hs
    · next again asked previousNewest _ =>
      obtain ⟨page, hpage, rfl⟩ := map_eq_some_iff.mp hs
      obtain ⟨hb, hpage⟩ := answer_eq_some hpage
      have hupdate : ReflectingRoom watch
          (s.updateTimeline (replaceWithLatest s.viewer previousNewest page)) :=
        reflectingRoom_updateTimeline fun t ht _ =>
          Reflecting.replaceWithLatest (hc t ht) hpage hb.first_after
      exact hupdate.congr (syncOnceDone_log _ _) (syncOnceDone_timeline _ _)
    · cases hs
  | syncFailed =>
    rw [step] at hs
    split at hs
    · cases hs
    · split at hs
      · cases hs
        exact reflectingRoom_updateTimeline fun t _ hready => LoadStatus.noConfusion hready
      · cases hs
        exact hr
  | openRoom =>
    cases hs
    rcases s.openRoom_cases with heq | ⟨-, -, -, heq⟩ | heq
    · rw [heq]; exact hr
    · rw [heq]; exact hr
    · rw [heq]
      intro t ht hready
      cases ht
      exact LoadStatus.noConfusion hready
  | roomAnswered =>
    rw [step] at hs
    split at hs
    · cases hs
      intro t ht hready
      rw [roomAnswered, syncTimeline_timeline] at ht
      rw [roomAnswered, syncTimeline_log]
      obtain ⟨t₀, ht₀, rfl⟩ := map_eq_some_iff.mp ht
      exact hr t₀ ht₀ hready
    · cases hs
  | pageAnswered =>
    rw [step] at hs
    split at hs
    · obtain ⟨page, hpage, rfl⟩ := map_eq_some_iff.mp hs
      obtain ⟨hb, hpage⟩ := answer_eq_some hpage
      intro t ht _
      cases ht
      exact reflecting_finishLoading hc hpage hb.first_after
    · cases hs
  | openFailed notFound =>
    rw [step] at hs
    split at hs
    · cases hs
    · cases hs
    · cases hs
      refine reflectingRoom_updateTimeline fun t _ hready => ?_
      cases notFound <;> exact LoadStatus.noConfusion hready
  | openSettled =>
    rw [step] at hs
    split at hs
    · cases hs
      exact hr
    · cases hs
  | request =>
    obtain ⟨⟨paging, t'⟩, hask, rfl⟩ := map_eq_some_iff.mp hs
    obtain ⟨t₀, ht₀, hask⟩ := bind_eq_some_iff.mp hask
    obtain ⟨hready, older, newer, rfl⟩ := ask_eq hask
    intro t ht _
    cases ht
    exact hr t₀ ht₀ hready
  | pagingAnswered =>
    have hj := ha.1
    have hf := ha.2
    rw [step] at hs
    split at hs
    · next request hrequest =>
      obtain ⟨page, hanswer, rfl⟩ := map_eq_some_iff.mp hs
      obtain ⟨hb, hpage⟩ := answer_eq_some hanswer
      intro t' ht' hready'
      rw [pagingAnswered_timeline] at ht'
      rw [pagingAnswered_log]
      obtain ⟨t, ht, rfl⟩ := map_eq_some_iff.mp ht'
      have hjoined := hj request hrequest t ht
      have hready := ready_of_applyPaging hjoined hready'
      exact (reflecting_applyPaging_iff hpage hb.first_after (hc t ht) hready (hr t ht hready)
        hjoined).mpr (hf request hrequest page hanswer t ht hready)
    · cases hs
  | pagingFailed =>
    rw [step] at hs
    split at hs
    · next request _ =>
      cases hs
      refine reflectingRoom_updateTimeline fun t ht hready => ?_
      obtain ⟨older, newer, heq⟩ := fail_eq request.paging t
      rw [heq] at hready ⊢
      exact hr t ht hready
    · cases hs
  | dismissUnread =>
    cases hs
    exact reflectingRoom_updateTimeline fun t ht hready => hr t ht hready
  | look =>
    cases hs
    exact hr
  | drop =>
    cases hs
    exact nofun

/-- **Each admitted step keeps a sound client sound.** -/
theorem sound_step (h : Sound watch s) (ha : Admitted watch s a)
    (hs : s.step a = some s') : Sound watch s' :=
  ⟨consistentRoom_step h.consistent hs, settled_step h.consistent h.settled ha.1 hs,
    reflectingRoom_step h ha hs⟩

theorem sound_init (h : system.init s) : Sound watch s := by
  obtain ⟨htimeline, hsyncing, hopening, -⟩ := h
  have hnone : ∀ t, s.timeline ≠ some t := fun t ht => nomatch htimeline.symm.trans ht
  have hstart : ∀ n, s.syncStart ≠ some n := fun n hn => by simp [syncStart, hsyncing] at hn
  exact ⟨fun t ht => absurd ht (hnone t),
    ⟨fun n hn => absurd hn (hstart n), fun n hn => absurd hn (hstart n),
      fun n hn => absurd hn (hstart n), fun _ _ t ht => absurd ht (hnone t)⟩,
    fun t ht => absurd ht (hnone t)⟩

/-- **Runs whose answers are joined and fresh keep the client sound.** -/
theorem sound_of_reachableBy (h : system.ReachableBy (Admitted watch) s) : Sound watch s :=
  h.invariant (fun _ => sound_init) (fun _ _ _ hI ha hs => sound_step hI ha hs)

/-- An action that is not part of paging is admitted. -/
theorem admitted_of_not_paging (h : a.isPaging = false) : Admitted watch s a := by
  cases a with
  | pagingAnswered => exact absurd h (by simp [Action.isPaging])
  | _ => exact ⟨trivial, trivial⟩

/-- From a sound state, the client's own catching up keeps it sound. -/
theorem Sound.steps (h : Sound watch s)
    (hrun : system.Steps (fun _ a => a.isPaging = false) s s') : Sound watch s' :=
  hrun.preserves (fun _ _ _ hI ha hs => sound_step hI (admitted_of_not_paging ha) hs) h

end RoomSync

end Hibari
