import Hibari.MessagePage

/-!
# The timeline of a room

What the client keeps of a room's messages (`store/timeline.ts`): the loaded
window of messages, whether there is more on either side of it, and the
cursor – the number up to which every change is taken as seen. This module
has the updates that opening a room, an event and a catch-up make to it; the
module after it has the ones that paging makes.

`Reflecting` is the promise of the cursor for a timeline: each change up to
it, to a message of the channel inside the window, is held, that one or a
newer one. Which changes are promised is a parameter, `Watch`: all of them,
or only those that posted a message, which is what having no hole comes down
to. Each update has one lemma that says under which condition on what it is
given it keeps the promise.
-/

namespace Hibari

open RoomLog

/-- How far loading got. -/
inductive LoadStatus
  | loading
  | ready
  | notFound
  | error
  deriving DecidableEq

/-- What the client keeps of a room's messages. -/
structure TimelineState where
  status : LoadStatus
  messages : List Message
  hasOlder : Bool
  loadingOlder : Bool
  hasNewer : Bool
  loadingNewer : Bool
  /-- The position after which the "unread from here" line is drawn. -/
  unreadAfterSeq : Option ℕ
  unreadAtOpen : ℤ
  /-- The cursor: every change up to this number is reflected. -/
  changeSeq : ℕ
  deriving DecidableEq

/-- The sides of the loaded window that have more. -/
def TimelineState.window (timeline : TimelineState) : Window :=
  ⟨timeline.hasOlder, timeline.hasNewer⟩

/-- What the updates of a timeline read from the rest of the store: who is
looking, the read position of the room (the room may be unknown, and the
viewer not a member of it), and whether the viewer is looking at its end. -/
structure Viewer where
  userId : Ulid
  lastReadSeq : Option (Option ℕ)
  caughtUp : Bool
  deriving DecidableEq

/-- The page sizes the client asks for. -/
def messagePageSize : ℤ := 50

def changePageSize : ℤ := 100

/-! ## The updates -/

/-- Move the "unread from here" line after messages were added: behind the
newest one while the viewer sees it, and back in front of the added ones when
the viewer does not. Only a ready timeline of a member moves it. -/
def afterNewMessages (viewer : Viewer) (previousNewest : Option ℕ) (added : List Message)
    (timeline : TimelineState) : TimelineState :=
  match newestChannelSeq timeline.messages, previousNewest, viewer.lastReadSeq with
  | some newest, some previousNewest, some (some _) =>
    if timeline.status ≠ .ready ∨ newest ≤ previousNewest then timeline
    else
      let seen := viewer.caughtUp ||
        (added.filter (fun m => decide (previousNewest < m.seq) && inChannel m)).all
          (fun m => decide (m.sender.id = viewer.userId))
      if seen then
        if timeline.unreadAfterSeq.any (fun seq => decide (previousNewest ≤ seq)) then
          { timeline with unreadAfterSeq := some newest }
        else timeline
      else if timeline.unreadAfterSeq.isNone then
        { timeline with unreadAfterSeq := some previousNewest }
      else timeline
  | _, _, _ => timeline

/-- A message that an event, or the answer to a request, brought to an open
room. Returns whether changes in between are missing, so that a catch-up is
due. -/
def receiveMessage (viewer : Viewer) (message : Message) (timeline : TimelineState) :
    TimelineState × Bool :=
  if timeline.status = .loading then
    ({ timeline with messages := mergeMessages timeline.messages [message] }, false)
  else if timeline.status ≠ .ready ∨ message.changeSeq ≤ timeline.changeSeq then (timeline, false)
  else
    let previousNewest := newestChannelSeq timeline.messages
    let messages := mergeIntoWindow timeline.messages timeline.window [message]
    let next :=
      if message.changeSeq = timeline.changeSeq + 1 then message.changeSeq else timeline.changeSeq
    let changeSeq := advanceCursor next messages
    (afterNewMessages viewer previousNewest [message]
        { timeline with messages := messages, changeSeq := changeSeq },
      decide (timeline.changeSeq + 1 < message.changeSeq ∧ changeSeq < message.changeSeq))

/-- The last page of a catch-up, merged into the window. The number it
carries was read before its messages, so the cursor may take it. -/
def absorbChanges (viewer : Viewer) (previousNewest : Option ℕ) (page : MessagePage)
    (timeline : TimelineState) : TimelineState :=
  let messages := mergeIntoWindow timeline.messages timeline.window page.messages
  let changeSeq := advanceCursor (max timeline.changeSeq page.lastChangeSeq) messages
  afterNewMessages viewer previousNewest page.messages
    { timeline with messages := messages, changeSeq := changeSeq }

/-- The latest page, with what arrived since it was read. -/
def withLatest (current : List Message) (page : MessagePage) : List Message :=
  let arrived := current.filter (fun m => decide (page.lastChangeSeq < m.changeSeq))
  mergeIntoWindow (mergeMessages [] page.messages) ⟨page.hasMore, false⟩ arrived

/-- A catch-up that is more than one page behind: the window is replaced by
the latest page. -/
def replaceWithLatest (viewer : Viewer) (previousNewest : Option ℕ) (page : MessagePage)
    (timeline : TimelineState) : TimelineState :=
  let messages := withLatest timeline.messages page
  afterNewMessages viewer previousNewest page.messages { timeline with
      messages := messages
      hasOlder := page.hasMore
      hasNewer := false
      changeSeq := advanceCursor page.lastChangeSeq messages }

/-- A room that is being opened: what arrived while it is loading is kept,
without a window. -/
def startLoading (timeline : Option TimelineState) : TimelineState where
  status := .loading
  messages :=
    match timeline with
    | some t => if t.status = .loading then t.messages else []
    | none => []
  hasOlder := false
  loadingOlder := false
  hasNewer := false
  loadingNewer := false
  unreadAfterSeq := none
  unreadAtOpen := 0
  changeSeq := 0

/-- A room whose latest page arrived. -/
def finishLoading (lastReadSeq : Option ℕ) (unreadCount : ℤ) (page : MessagePage)
    (timeline : Option TimelineState) : TimelineState :=
  let messages := withLatest ((timeline.map (·.messages)).getD []) page
  { status := .ready
    messages := messages
    hasOlder := page.hasMore
    loadingOlder := false
    hasNewer := false
    loadingNewer := false
    unreadAfterSeq := lastReadSeq
    unreadAtOpen := unreadCount
    changeSeq := advanceCursor page.lastChangeSeq messages }

/-! ## The promise of the cursor -/

/-- Which changes a timeline is asked to reflect. -/
inductive Watch
  | changes
  | creations
  deriving DecidableEq

/-- The changes that are watched: every change, or the first of each
message. -/
def RoomLog.watched (log : RoomLog) : Watch → ℕ → Place → Prop
  | .changes, k, p => log.touch k p
  | .creations, k, p => log.touch k p ∧ ∀ k', log.touch k' p → k ≤ k'

/-- The messages that a timeline answers for: those of the channel inside its
window. -/
def TimelineState.answersFor (timeline : TimelineState) : Set Place :=
  {p | p.inChannel = true ∧ timeline.window.admits timeline.messages p.seq = true}

/-- **The promise of the cursor**: each watched change up to it, to a message
inside the window, is held, that one or a newer one. -/
def Reflecting (log : RoomLog) (watch : Watch) (timeline : TimelineState) : Prop :=
  ChangeLog.Reflects (log.watched watch) (held timeline.messages) timeline.answersFor
    timeline.changeSeq

/-- Whether every change is reflected can be computed: the log lists the
changes. -/
instance (log : RoomLog) (timeline : TimelineState) :
    Decidable (Reflecting log .changes timeline) :=
  decidable_of_iff
    (∀ change ∈ log.changes.map Message.stamp, change.changeSeq ≤ timeline.changeSeq →
      change.place.inChannel = true →
        timeline.window.admits timeline.messages change.place.seq = true →
          ∃ copy ∈ timeline.messages.map Message.stamp,
            copy.place = change.place ∧ change.changeSeq ≤ copy.changeSeq)
    ⟨fun h k p hk ht hp => by
      obtain ⟨copy, hcopy, hplace, hle⟩ := h ⟨p, k⟩ ht hk hp.1 hp.2
      refine ⟨copy.changeSeq, hle, ?_⟩
      rw [held, ← show copy.place = p from hplace]
      exact hcopy,
    fun h change hchange hk hch hadm => by
      obtain ⟨v, hle, hv⟩ := h change.changeSeq change.place hk hchange ⟨hch, hadm⟩
      exact ⟨⟨change.place, v⟩, hv, rfl, hle⟩⟩

/-- What holds of a timeline whatever its status: its messages are in order,
one per id, and are versions the room's changes made; its cursor is a number
that was given out. -/
structure Consistent (log : RoomLog) (timeline : TimelineState) : Prop where
  tidy : Tidy timeline.messages
  genuine : Genuine log timeline.messages
  changeSeq_le : timeline.changeSeq ≤ log.length

theorem Consistent.congr {log : RoomLog} {t t' : TimelineState} (h : Consistent log t)
    (hm : t'.messages = t.messages) (hk : t'.changeSeq = t.changeSeq) : Consistent log t' :=
  ⟨hm ▸ h.tidy, hm ▸ h.genuine, hk ▸ h.changeSeq_le⟩

/-! ## Changes and the messages that carry them -/

section Changes

variable {log : RoomLog} {watch : Watch} {current incoming messages : List Message}
  {c k v : ℕ} {p q : Place}

theorem RoomLog.touch_bounds (h : log.touch k p) : 0 < k ∧ k ≤ log.length := by
  obtain ⟨m, hm, rfl, rfl⟩ := exists_of_held h
  exact log.wellFormed.changeSeq_bounds hm

theorem RoomLog.place_eq_of_touch (hp : log.touch k p) (hq : log.touch k q) : p = q := by
  obtain ⟨m, hm, rfl, rfl⟩ := exists_of_held hp
  obtain ⟨n, hn, rfl, hk⟩ := exists_of_held hq
  rw [log.wellFormed.eq_of_changeSeq hm hn hk.symm]

theorem RoomLog.place_eq_of_id {k' : ℕ} (hp : log.touch k p)
    (hq : log.touch k' q) (hid : p.id = q.id) : p = q := by
  obtain ⟨m, hm, rfl, rfl⟩ := exists_of_held hp
  obtain ⟨n, hn, rfl, rfl⟩ := exists_of_held hq
  exact log.wellFormed.place_eq hm hn hid

theorem RoomLog.touch_of_watched (h : log.watched watch k p) : log.touch k p := by
  cases watch with
  | changes => exact h
  | creations => exact h.1

theorem genuine_iff : Genuine log messages ↔ ∀ m ∈ messages, log.touch m.changeSeq m.place := by
  refine ⟨fun h m hm => h _ _ (held_of_mem hm), fun h p v hpv => ?_⟩
  obtain ⟨m, hm, rfl, rfl⟩ := exists_of_held hpv
  exact h m hm

theorem genuine_nil : Genuine log [] := genuine_iff.mpr (fun _ h => nomatch h)

theorem Genuine.mergeMessages (hcur : Genuine log current) (hinc : Genuine log incoming) :
    Genuine log (mergeMessages current incoming) :=
  genuine_iff.mpr (forall_stamp_mergeMessages (Q := fun st => log.touch st.changeSeq st.place)
    (genuine_iff.mp hcur) (genuine_iff.mp hinc))

theorem Genuine.mergeIntoWindow (hcur : Genuine log current) (hinc : Genuine log incoming)
    (window : Window) : Genuine log (mergeIntoWindow current window incoming) :=
  genuine_iff.mpr (forall_stamp_mergeIntoWindow (Q := fun st => log.touch st.changeSeq st.place)
    (genuine_iff.mp hcur) (fun m hm _ => genuine_iff.mp hinc m hm))

theorem held_of_id (hg : Genuine log messages) {m m' : Message} (hm' : m' ∈ messages)
    (ht : log.touch m.changeSeq m.place) (hid : m'.id = m.id) :
    held messages m.place m'.changeSeq := by
  have hplace : m'.place = m.place :=
    log.place_eq_of_id (genuine_iff.mp hg m' hm') ht hid
  exact hplace ▸ held_of_mem hm'

theorem exists_held_mergeMessages (htidy : Tidy current) (hcur : Genuine log current)
    (hinc : Genuine log incoming) (h : held current p v) :
    ∃ v', v ≤ v' ∧ held (mergeMessages current incoming) p v' := by
  obtain ⟨m, hm, rfl, rfl⟩ := exists_of_held h
  obtain ⟨m', hm', hid, hle⟩ := exists_newer_of_mem_current htidy incoming hm
  exact ⟨m'.changeSeq, hle, held_of_id (hcur.mergeMessages hinc) hm' (genuine_iff.mp hcur m hm) hid⟩

theorem exists_held_mergeMessages_incoming (hcur : Genuine log current)
    (hinc : Genuine log incoming) (h : held incoming p v) :
    ∃ v', v ≤ v' ∧ held (mergeMessages current incoming) p v' := by
  obtain ⟨m, hm, rfl, rfl⟩ := exists_of_held h
  obtain ⟨m', hm', hid, hle⟩ := exists_newer_of_mem_incoming current hm
  exact ⟨m'.changeSeq, hle, held_of_id (hcur.mergeMessages hinc) hm' (genuine_iff.mp hinc m hm) hid⟩

theorem exists_held_mergeIntoWindow (htidy : Tidy current) (hcur : Genuine log current)
    (hinc : Genuine log incoming) (window : Window) (h : held current p v) :
    ∃ v', v ≤ v' ∧ held (mergeIntoWindow current window incoming) p v' := by
  obtain ⟨m, hm, rfl, rfl⟩ := exists_of_held h
  obtain ⟨m', hm', hid, hle⟩ :=
    exists_newer_mergeIntoWindow_of_mem_current htidy window incoming hm
  exact ⟨m'.changeSeq, hle,
    held_of_id (hcur.mergeIntoWindow hinc window) hm' (genuine_iff.mp hcur m hm) hid⟩

/-- A merge into the window takes in what the window admits. -/
theorem exists_held_mergeIntoWindow_incoming (hcur : Genuine log current)
    (hinc : Genuine log incoming) (window : Window) (h : held incoming p v)
    (hadm : window.admits current p.seq = true) :
    ∃ v', v ≤ v' ∧ held (mergeIntoWindow current window incoming) p v' := by
  obtain ⟨m, hm, rfl, rfl⟩ := exists_of_held h
  obtain ⟨m', hm', hid, hle⟩ := exists_newer_mergeIntoWindow_of_admits current hm hadm
  exact ⟨m'.changeSeq, hle,
    held_of_id (hcur.mergeIntoWindow hinc window) hm' (genuine_iff.mp hinc m hm) hid⟩

/-- **Moving the cursor over held numbers keeps the promise**: each of them is
the number of a held message, and a number names one change. -/
theorem reflects_advanceCursor (hg : Genuine log messages) {W : Set Place}
    (h : ChangeLog.Reflects (log.watched watch) (held messages) W c) :
    ChangeLog.Reflects (log.watched watch) (held messages) W (advanceCursor c messages) := by
  refine h.extend fun k p hlt hle hw _ => ?_
  obtain ⟨m, hm, hk⟩ := exists_of_le_advanceCursor hlt hle
  have hplace : m.place = p :=
    log.place_eq_of_touch (hk ▸ genuine_iff.mp hg m hm) (touch_of_watched hw)
  exact ⟨m.changeSeq, hk.ge, hplace ▸ held_of_mem hm⟩

theorem advanceCursor_le_length (hg : Genuine log messages) (hc : c ≤ log.length) :
    advanceCursor c messages ≤ log.length := by
  by_cases hlt : c < advanceCursor c messages
  · obtain ⟨m, hm, hk⟩ := exists_of_le_advanceCursor hlt le_rfl
    exact hk ▸ (touch_bounds (genuine_iff.mp hg m hm)).2
  · exact (not_lt.mp hlt).trans hc

end Changes

/-! ## What each update keeps -/

section Updates

variable {log : RoomLog} {watch : Watch} {viewer : Viewer} {timeline : TimelineState}
  {previousNewest : Option ℕ} {added : List Message} {message : Message}

/-- Only the "unread from here" line moves. -/
theorem afterNewMessages_eq (viewer : Viewer) (previousNewest : Option ℕ) (added : List Message)
    (timeline : TimelineState) :
    ∃ unread, afterNewMessages viewer previousNewest added timeline =
      { timeline with unreadAfterSeq := unread } := by
  unfold afterNewMessages
  simp only
  split
  · repeat' split
    all_goals exact ⟨_, rfl⟩
  · exact ⟨timeline.unreadAfterSeq, rfl⟩

@[simp] theorem afterNewMessages_status :
    (afterNewMessages viewer previousNewest added timeline).status = timeline.status := by
  obtain ⟨_, h⟩ := afterNewMessages_eq viewer previousNewest added timeline
  rw [h]

@[simp] theorem afterNewMessages_messages :
    (afterNewMessages viewer previousNewest added timeline).messages = timeline.messages := by
  obtain ⟨_, h⟩ := afterNewMessages_eq viewer previousNewest added timeline
  rw [h]

@[simp] theorem afterNewMessages_window :
    (afterNewMessages viewer previousNewest added timeline).window = timeline.window := by
  obtain ⟨_, h⟩ := afterNewMessages_eq viewer previousNewest added timeline
  rw [h]
  rfl

@[simp] theorem afterNewMessages_changeSeq :
    (afterNewMessages viewer previousNewest added timeline).changeSeq = timeline.changeSeq := by
  obtain ⟨_, h⟩ := afterNewMessages_eq viewer previousNewest added timeline
  rw [h]

theorem consistent_afterNewMessages :
    Consistent log (afterNewMessages viewer previousNewest added timeline) ↔
      Consistent log timeline := by
  refine ⟨fun h => ⟨?_, ?_, ?_⟩, fun h => ⟨?_, ?_, ?_⟩⟩
  · simpa only [afterNewMessages_messages] using h.tidy
  · simpa only [afterNewMessages_messages] using h.genuine
  · simpa only [afterNewMessages_changeSeq] using h.changeSeq_le
  · simpa only [afterNewMessages_messages] using h.tidy
  · simpa only [afterNewMessages_messages] using h.genuine
  · simpa only [afterNewMessages_changeSeq] using h.changeSeq_le

theorem reflecting_afterNewMessages :
    Reflecting log watch (afterNewMessages viewer previousNewest added timeline) ↔
      Reflecting log watch timeline := by
  unfold Reflecting TimelineState.answersFor
  rw [afterNewMessages_messages, afterNewMessages_window, afterNewMessages_changeSeq]

theorem genuine_singleton (hm : log.touch message.changeSeq message.place) :
    Genuine log [message] :=
  genuine_iff.mpr fun _ hm' => List.mem_singleton.mp hm' ▸ hm

/-- The number the cursor moves to when one message arrives. -/
theorem nextCursor_le (hc : timeline.changeSeq ≤ log.length)
    (hm : log.touch message.changeSeq message.place) :
    (if message.changeSeq = timeline.changeSeq + 1 then message.changeSeq
      else timeline.changeSeq) ≤ log.length := by
  split
  · exact (touch_bounds hm).2
  · exact hc

@[simp] theorem receiveMessage_status :
    (receiveMessage viewer message timeline).1.status = timeline.status := by
  unfold receiveMessage
  split
  · rfl
  · split
    · rfl
    · rw [afterNewMessages_status]

/-- The cursor does not move back when a message arrives. -/
theorem le_receiveMessage_changeSeq :
    timeline.changeSeq ≤ (receiveMessage viewer message timeline).1.changeSeq := by
  unfold receiveMessage
  split
  · exact le_rfl
  · split
    · exact le_rfl
    · rw [afterNewMessages_changeSeq]
      refine le_trans ?_ (le_advanceCursor _ _)
      split
      · next h => exact h ▸ Nat.le_succ _
      · exact le_rfl

theorem Consistent.receiveMessage (h : Consistent log timeline)
    (hm : log.touch message.changeSeq message.place) :
    Consistent log (receiveMessage viewer message timeline).1 := by
  unfold Hibari.receiveMessage
  split
  · exact ⟨tidy_mergeMessages _ _, h.genuine.mergeMessages (genuine_singleton hm), h.changeSeq_le⟩
  · split
    · exact h
    · have hg := h.genuine.mergeIntoWindow (genuine_singleton hm) timeline.window
      exact consistent_afterNewMessages.mpr ⟨tidy_mergeIntoWindow h.tidy _ _, hg,
          advanceCursor_le_length hg (nextCursor_le h.changeSeq_le hm)⟩

/-- **An event keeps the promise**: the cursor takes its number only when the
number is the next one, and then the message is merged if it lies inside the
window. -/
theorem Reflecting.receiveMessage (h : Reflecting log watch timeline)
    (hc : Consistent log timeline) (hready : timeline.status = .ready)
    (hm : log.touch message.changeSeq message.place) :
    Reflecting log watch (receiveMessage viewer message timeline).1 := by
  unfold Hibari.receiveMessage
  rw [if_neg (by rw [hready]; exact LoadStatus.noConfusion)]
  split
  · exact h
  · have hinc := genuine_singleton hm
    refine reflecting_afterNewMessages.mpr
      (reflects_advanceCursor (hc.genuine.mergeIntoWindow hinc timeline.window) ?_)
    -- the window does not widen, and what was held is held still
    have hwin : {p : Place | p.inChannel = true ∧ timeline.window.admits
        (mergeIntoWindow timeline.messages timeline.window [message]) p.seq = true}
          ⊆ timeline.answersFor :=
      fun p hp => ⟨hp.1, admits_of_admits_mergeIntoWindow hc.tidy hp.2⟩
    have hold := (h.mono_window hwin).mono_held (fun p _ v hv =>
      exists_held_mergeIntoWindow hc.tidy hc.genuine hinc timeline.window hv)
    split
    · next hnext =>
      refine hold.extend fun k p hlt hle hw hp => ?_
      have hk : k = message.changeSeq :=
        le_antisymm hle (hnext ▸ Nat.succ_le_of_lt hlt)
      have hplace : message.place = p :=
        log.place_eq_of_touch hm (hk ▸ touch_of_watched hw)
      subst hk hplace
      exact exists_held_mergeIntoWindow_incoming hc.genuine hinc timeline.window
        (held_of_mem (List.mem_singleton_self message)) (hwin hp).2
    · exact hold

/-! ### Catching up -/

variable {reads : Reads} {start : ℕ} {messages : List Message} {page : MessagePage}

@[simp] theorem absorbChanges_status :
    (absorbChanges viewer previousNewest page timeline).status = timeline.status :=
  afterNewMessages_status

theorem le_absorbChanges_changeSeq :
    timeline.changeSeq ≤ (absorbChanges viewer previousNewest page timeline).changeSeq := by
  unfold absorbChanges
  rw [afterNewMessages_changeSeq]
  exact (le_max_left _ _).trans (le_advanceCursor _ _)

theorem Consistent.absorbChanges (h : Consistent log timeline)
    (hpage : log.answer reads (.afterChange start) changePageSize messages = some page)
    (hroom : reads.room ≤ log.length) :
    Consistent log (absorbChanges viewer previousNewest page timeline) := by
  have hinc : Genuine log page.messages := fun p v => touch_of_held_afterChange hpage
  have hg := h.genuine.mergeIntoWindow hinc timeline.window
  refine consistent_afterNewMessages.mpr ⟨tidy_mergeIntoWindow h.tidy _ _, hg, ?_⟩
  refine advanceCursor_le_length hg (max_le h.changeSeq_le ?_)
  rw [lastChangeSeq_answer hpage]
  exact hroom

/-- **A catch-up keeps the promise** when it started no further than the
cursor: the page holds every change from there to the number it carries. -/
theorem Reflecting.absorbChanges (h : Reflecting log watch timeline)
    (hc : Consistent log timeline) (hstart : start ≤ timeline.changeSeq)
    (hpage : log.answer reads (.afterChange start) changePageSize messages = some page)
    (hmore : page.hasMore = false) (hreads : reads.room ≤ reads.first) :
    Reflecting log watch (absorbChanges viewer previousNewest page timeline) := by
  have hinc : Genuine log page.messages := fun p v => touch_of_held_afterChange hpage
  refine reflecting_afterNewMessages.mpr
    (reflects_advanceCursor (hc.genuine.mergeIntoWindow hinc timeline.window) ?_)
  have hwin : {p : Place | p.inChannel = true ∧ timeline.window.admits
      (mergeIntoWindow timeline.messages timeline.window page.messages) p.seq = true}
        ⊆ timeline.answersFor :=
    fun p hp => ⟨hp.1, admits_of_admits_mergeIntoWindow hc.tidy hp.2⟩
  have hold := (h.mono_window hwin).mono_held (fun p _ v hv =>
    exists_held_mergeIntoWindow hc.tidy hc.genuine hinc timeline.window hv)
  refine hold.extend fun k p hlt hle hw hp => ?_
  rw [lastChangeSeq_answer hpage] at hle
  have hle' : k ≤ reads.room := (le_max_iff.mp hle).resolve_left hlt.not_ge
  obtain ⟨v, hkv, hv⟩ := exists_held_afterChange hpage hmore (touch_of_watched hw)
    (hstart.trans_lt hlt) (hle'.trans hreads)
  obtain ⟨v', hvv', hv'⟩ := exists_held_mergeIntoWindow_incoming hc.genuine hinc
    timeline.window hv (hwin hp).2
  exact ⟨v', hkv.trans hvv', hv'⟩

/-! ### The latest page -/

variable {current : List Message}

theorem three_le_messagePageSize : 3 ≤ messageLimit messagePageSize := by decide

theorem genuine_answer {cursor : MessageCursor} (hcursor : ∀ n, cursor ≠ .afterChange n)
    (hpage : log.answer reads cursor messagePageSize messages = some page) :
    Genuine log page.messages := fun _ _ hv =>
  (le_shownAt_of_held hpage three_le_messagePageSize hcursor hv).1

theorem genuine_withLatest (hcur : Genuine log current)
    (hpage : log.answer reads .latest messagePageSize messages = some page) :
    Genuine log (withLatest current page) := by
  have hpage' := genuine_answer (fun _ h => MessageCursor.noConfusion h) hpage
  refine (genuine_nil.mergeMessages hpage').mergeIntoWindow ?_ _
  exact genuine_iff.mpr fun m hm => genuine_iff.mp hcur m (List.mem_of_mem_filter hm)

theorem tidy_withLatest (current : List Message) (page : MessagePage) :
    Tidy (withLatest current page) :=
  tidy_mergeIntoWindow (tidy_mergeMessages _ _) _ _

/-- **The latest page is worth the number it carries**, with whatever arrived
merged into it. -/
theorem reflects_withLatest (hcur : Genuine log current)
    (hpage : log.answer reads .latest messagePageSize messages = some page)
    (hreads : reads.room ≤ reads.first) :
    ChangeLog.Reflects (log.watched watch) (held (withLatest current page))
      {p : Place | p.inChannel = true ∧
        Window.admits ⟨page.hasMore, false⟩ (withLatest current page) p.seq = true}
      page.lastChangeSeq := by
  have hcursor : ∀ n, MessageCursor.latest ≠ .afterChange n := fun _ h => MessageCursor.noConfusion h
  have htidy := tidy_answer hpage three_le_messagePageSize hcursor
  have hg := genuine_answer hcursor hpage
  have harrived : Genuine log
      (current.filter (fun m => decide (page.lastChangeSeq < m.changeSeq))) :=
    genuine_iff.mpr fun m hm => genuine_iff.mp hcur m (List.mem_of_mem_filter hm)
  -- the page itself, before what arrived is merged into it
  have hbase : ChangeLog.Reflects (log.watched watch) (held page.messages)
      {p : Place | p.inChannel = true ∧
        Window.admits ⟨page.hasMore, false⟩ page.messages p.seq = true} page.lastChangeSeq := by
    intro k p hk hw hp
    rw [lastChangeSeq_answer hpage] at hk
    exact exists_held_answer hpage three_le_messagePageSize
      (touch_of_watched hw) hp.1 hp.2 (hk.trans hreads)
  unfold withLatest
  rw [mergeMessages_nil_of_tidy htidy]
  refine (hbase.mono_window fun p hp => ?_).mono_held fun p _ v hv => ?_
  · exact ⟨hp.1, admits_of_admits_mergeIntoWindow htidy hp.2⟩
  · exact exists_held_mergeIntoWindow htidy hg harrived _ hv

theorem Consistent.replaceWithLatest (h : Consistent log timeline)
    (hpage : log.answer reads .latest messagePageSize messages = some page)
    (hroom : reads.room ≤ log.length) :
    Consistent log (replaceWithLatest viewer previousNewest page timeline) := by
  have hg := genuine_withLatest h.genuine hpage
  refine consistent_afterNewMessages.mpr ⟨tidy_withLatest _ _, hg, advanceCursor_le_length hg ?_⟩
  rw [lastChangeSeq_answer hpage]
  exact hroom

@[simp] theorem replaceWithLatest_status :
    (replaceWithLatest viewer previousNewest page timeline).status = timeline.status :=
  afterNewMessages_status

theorem Reflecting.replaceWithLatest (hc : Consistent log timeline)
    (hpage : log.answer reads .latest messagePageSize messages = some page)
    (hreads : reads.room ≤ reads.first) :
    Reflecting log watch (replaceWithLatest viewer previousNewest page timeline) :=
  reflecting_afterNewMessages.mpr (reflects_advanceCursor (genuine_withLatest hc.genuine hpage)
      (reflects_withLatest hc.genuine hpage hreads))

/-! ### Opening a room -/

variable {lastReadSeq : Option ℕ} {unreadCount : ℤ} {before : Option TimelineState}
  (h : ∀ t, before = some t → Consistent log t)
include h

theorem consistent_startLoading : Consistent log (startLoading before) := by
  have hkept : (startLoading before).messages = [] ∨
      ∃ t, before = some t ∧ (startLoading before).messages = t.messages := by
    cases before with
    | none => exact .inl rfl
    | some t =>
      by_cases hs : t.status = .loading
      · exact .inr ⟨t, rfl, if_pos hs⟩
      · exact .inl (if_neg hs)
  refine ⟨?_, ?_, Nat.zero_le _⟩
  · rcases hkept with hm | ⟨t, ht, hm⟩
    · exact hm ▸ tidy_nil
    · exact hm ▸ (h t ht).tidy
  · rcases hkept with hm | ⟨t, ht, hm⟩
    · exact hm ▸ genuine_nil
    · exact hm ▸ (h t ht).genuine

theorem genuine_before : Genuine log ((before.map (·.messages)).getD []) := by
  cases before with
  | none => exact genuine_nil
  | some t => exact (h t rfl).genuine

variable (hpage : log.answer reads .latest messagePageSize messages = some page)
include hpage

theorem consistent_finishLoading (hroom : reads.room ≤ log.length) :
    Consistent log (finishLoading lastReadSeq unreadCount page before) := by
  have hg := genuine_withLatest (genuine_before h) hpage
  refine ⟨tidy_withLatest _ _, hg, advanceCursor_le_length hg ?_⟩
  rw [lastChangeSeq_answer hpage]
  exact hroom

/-- **A room that was just opened keeps the promise.** -/
theorem reflecting_finishLoading (hreads : reads.room ≤ reads.first) :
    Reflecting log watch (finishLoading lastReadSeq unreadCount page before) :=
  reflects_advanceCursor (genuine_withLatest (genuine_before h) hpage)
    (reflects_withLatest (genuine_before h) hpage hreads)

omit hpage

omit h

include hpage

theorem le_finishLoading_changeSeq :
    reads.room ≤ (finishLoading lastReadSeq unreadCount page before).changeSeq := by
  rw [← lastChangeSeq_answer hpage]
  exact le_advanceCursor _ _

end Updates

end Hibari
