import Hibari.ThreadPages
import Hibari.Timeline
import Hibari.TransitionSystem

/-!
# An open thread

What a store keeps of one thread (`store/threads.ts`): a window of its replies, and whether there are more
on either side. Pages are asked for and put in when they arrive, whatever the window is then; messages
that arrive as events, or with the changes of the room, are merged into the window (`absorbThreadMessages`).

`accounted` are the changes that the room's cursor has passed: those up to where the room was opened, those
that arrived, and those that `syncTimeline` skipped because they were too many.
-/

namespace Hibari

/-- `ThreadState`. -/
structure ThreadState where
  status : LoadStatus
  replies : List Message
  hasOlder : Bool
  loadingOlder : Bool
  hasNewer : Bool
  loadingNewer : Bool
  deriving DecidableEq

/-- The window of a thread. -/
def ThreadState.window (t : ThreadState) : Window := ⟨t.hasOlder, t.hasNewer⟩

/-- A thread that is being loaded. -/
def ThreadState.loading : ThreadState := ⟨.loading, [], false, false, false, false⟩

/-- A page that was asked for, and how many changes there were. -/
structure ThreadRequest where
  cursor : ThreadCursor
  asked : ℕ
  deriving DecidableEq

/-- **A room, and the store of a thread.** -/
structure PaneState where
  log : RoomLog
  /-- The cursor with which the room was opened. -/
  opened : ℕ
  /-- The changes that have arrived, or were skipped. -/
  seen : Finset ℕ
  thread : Option ThreadState
  inflight : List ThreadRequest

/-- **What happens.** -/
inductive PaneAction
  /-- A change of the room commits. -/
  | happen (m : Message)
  /-- It arrives. -/
  | receive (j : ℕ)
  /-- The changes after a number arrive, as they were read. -/
  | sync (changeSeq : ℕ) (reads : Reads)
  /-- The changes up to a number are not asked for: the latest page of the room is. -/
  | skip (changeSeq : ℕ)
  /-- `openThread` and `reloadThread`. -/
  | loadThread
  | jumpToThreadMessage (messageId : Ulid)
  | loadNewerThread
  | loadOlderThread
  /-- A page arrives, as it was read. -/
  | settle (i : ℕ) (reads : Reads)
  /-- A page does not arrive. -/
  | fail (i : ℕ) (notFound : Bool)
  deriving DecidableEq

/-- `absorbThreadMessages`, for one reply. -/
def absorbReply (rootId : Ulid) (message : Message) (t : ThreadState) : ThreadState :=
  if message.threadRootId = some rootId then
    { t with replies := mergeRepliesIntoWindow t.replies t.window [message] }
  else t

/-- The end of `loadThread`: what arrived meanwhile is kept. -/
def withLatestReplies (current : List Message) (page : ThreadPage) : ThreadState where
  status := .ready
  replies := mergeRepliesIntoWindow (mergeReplies [] page.replies) ⟨page.hasMore, false⟩
    (current.filter fun m => decide (m.changeSeq > page.lastChangeSeq))
  hasOlder := page.hasMore
  loadingOlder := false
  hasNewer := false
  loadingNewer := false

/-- What a page does to the thread. -/
def putPage (page : ThreadPage) (t : ThreadState) : ThreadCursor → ThreadState
  | .latest => withLatestReplies t.replies page
  | .around _ =>
    { t with
      replies := mergeReplies [] page.replies
      hasOlder := page.hasMore
      loadingOlder := false
      hasNewer := page.hasMoreAfter
      loadingNewer := false }
  | .after _ =>
    { t with
      replies := mergeReplies t.replies page.replies
      hasNewer := page.hasMore
      loadingNewer := false }
  | .before _ =>
    { t with
      replies := mergeReplies t.replies page.replies
      hasOlder := page.hasMore
      loadingOlder := false }

/-- What an error does. -/
def pageFailed (notFound : Bool) (t : ThreadState) : ThreadCursor → ThreadState
  | .latest => { t with status := if notFound then .notFound else .error }
  | .around _ => t
  | .after _ => { t with loadingNewer := false }
  | .before _ => { t with loadingOlder := false }

namespace PaneState

variable (rootId : Ulid) (s : PaneState)

/-- The room's cursor has passed a change. -/
def accounted (changeSeq : ℕ) : Prop := changeSeq ≤ s.opened ∨ changeSeq ∈ s.seen

instance (changeSeq : ℕ) : Decidable (s.accounted changeSeq) :=
  inferInstanceAs (Decidable (_ ∨ _))

/-- A page is asked for. -/
def ask (cursor : ThreadCursor) (t : ThreadState) : PaneState :=
  { s with thread := some t, inflight := s.inflight ++ [⟨cursor, s.log.length⟩] }

/-- `loadThread`, once at a time. -/
def loadThread : PaneState :=
  if s.inflight.any fun q => q.cursor = .latest then s
  else s.ask .latest (s.thread.getD .loading)

/-- `jumpToThreadMessage`, when the thread is loaded. -/
def jumpToThreadMessage (messageId : Ulid) : Option PaneState :=
  (s.thread.filter fun t => t.status = .ready).map fun t => s.ask (.around messageId) t

/-- `loadNewerThread`. -/
def loadNewerThread : Option PaneState :=
  (s.thread.filter fun t => t.status = .ready && t.hasNewer && !t.loadingNewer).bind fun t =>
    t.replies.getLast?.map fun newest =>
      s.ask (.after newest.seq) { t with loadingNewer := true }

/-- `loadOlderThread`. -/
def loadOlderThread : Option PaneState :=
  (s.thread.filter fun t => t.status = .ready && t.hasOlder && !t.loadingOlder).bind fun t =>
    t.replies.head?.map fun oldest =>
      s.ask (.before oldest.seq) { t with loadingOlder := true }

/-- What a request is answered with. -/
def pageOf (q : ThreadRequest) (reads : Reads) : ThreadPage :=
  s.log.listThreadMessages reads rootId q.cursor messagePageSize

/-- The changes after a number. -/
def changesAfter (changeSeq : ℕ) (reads : Reads) : MessagePage :=
  s.log.listMessages reads (.afterChange changeSeq) changePageSize

/-- The numbers that arrive with a page of changes: those of its messages, and where there are no more
changes, all up to the room's. -/
def arrivedWith (changeSeq : ℕ) (page : MessagePage) : Finset ℕ :=
  let numbers := (page.messages.map Message.changeSeq).toFinset
  if page.hasMore then numbers else numbers ∪ Finset.Ioc changeSeq page.lastChangeSeq

/-- One step. -/
def act : PaneAction → Option PaneState
  | .happen m =>
    if ∀ x ∈ s.log.changes, x.id = m.id → x.threadRootId = m.threadRootId then
      (s.log.commit m).map fun log => { s with log := log }
    else none
  | .receive j => s.log.changes[j]?.map fun m =>
    { s with seen := insert m.changeSeq s.seen, thread := s.thread.map (absorbReply rootId m) }
  | .sync changeSeq reads =>
    if (∀ c ≤ changeSeq, s.accounted c) ∧ reads.Between changeSeq s.log.length then
      let page := s.changesAfter changeSeq reads
      let absorbed := s.thread.map fun t => page.messages.foldl (fun t m => absorbReply rootId m t) t
      some { s with seen := s.seen ∪ arrivedWith changeSeq page, thread := absorbed }
    else none
  | .skip changeSeq =>
    if changeSeq ≤ s.log.length then
      some { s with seen := s.seen ∪ Finset.range (changeSeq + 1) }
    else none
  | .loadThread => some s.loadThread
  | .jumpToThreadMessage messageId => s.jumpToThreadMessage messageId
  | .loadNewerThread => s.loadNewerThread
  | .loadOlderThread => s.loadOlderThread
  | .settle i reads => s.inflight[i]?.bind fun q =>
    if reads.Between q.asked s.log.length then
      let page := s.pageOf rootId q reads
      let put := s.thread.map fun t => putPage page t q.cursor
      some { s with thread := put, inflight := s.inflight.eraseIdx i }
    else none
  | .fail i notFound => s.inflight[i]?.map fun q =>
    let failed := s.thread.map fun t => pageFailed notFound t q.cursor
    { s with thread := failed, inflight := s.inflight.eraseIdx i }

/-- **The runs** of a room that was opened. -/
def system : TransitionSystem PaneState PaneAction where
  init s := s.opened ≤ s.log.length ∧ s.log.Threaded ∧ s.seen = ∅ ∧ s.thread = none ∧ s.inflight = []
  step s a := act rootId s a

/-! ## In turn -/

/-- What is kept when a page is put in: nothing, after a jump. -/
def kept (t : ThreadState) : ThreadCursor → List Message
  | .around _ => []
  | _ => t.replies

/-- The window still has the reply that a page continues. -/
def Continues (t : ThreadState) : ThreadCursor → Prop
  | .after seq | .before seq => ∃ m ∈ t.replies, m.seq = seq
  | _ => True

instance (t : ThreadState) (cursor : ThreadCursor) : Decidable (Continues t cursor) :=
  match cursor with
  | .after seq | .before seq => inferInstanceAs (Decidable (∃ m ∈ t.replies, m.seq = seq))
  | .latest | .around _ => isTrue trivial

/-- **The condition.** A page is put in where the window still has the reply that it continues, and of
what arrived after it was read and lies in its range everything is held by what is kept. What a sync skips
in the window is held. -/
def InTurn : PaneAction → Prop
  | .settle i reads => ∀ q ∈ s.inflight[i]?, ∀ t ∈ s.thread, Continues t q.cursor ∧
    ∀ m ∈ s.log.changes, m.threadRootId = some rootId → s.accounted m.changeSeq →
      reads.first < m.changeSeq → (s.pageOf rootId q reads).covers q.cursor m.seq →
        Holds (kept t q.cursor) m
  | .skip changeSeq => ∀ t ∈ s.thread, t.status = .ready →
    ∀ m ∈ s.log.changes, m.threadRootId = some rootId → m.changeSeq ≤ changeSeq →
      ¬ s.accounted m.changeSeq → t.window.admits t.replies m.seq = true → Holds t.replies m
  | _ => True

instance (a : PaneAction) : Decidable (s.InTurn rootId a) := by
  cases a with
  | settle i reads => exact inferInstanceAs (Decidable (∀ q ∈ s.inflight[i]?, ∀ t ∈ s.thread, _))
  | skip changeSeq => exact inferInstanceAs (Decidable (∀ t ∈ s.thread, _))
  | _ => exact inferInstanceAs (Decidable True)

end PaneState

end Hibari
