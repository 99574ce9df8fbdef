import Hibari.PagedWalk
import Hibari.ThreadPages

/-!
# Pages partition the history

A room's timeline is read in pages: the latest ones, those before or after a position, those
around a message. The replies of a thread are read in the same way, by functions of their own.
While nothing changes, both read pages of one sorted list – the messages of the channel, or the
replies – and pages of a sorted list partition it (`windows_partition_history`): walks in either
direction come to every message once, and a page around a message has what stands directly
before and after it, also where the message itself is not in the list.
-/

namespace Hibari

open List Option

/-- The messages of the channel, in order. -/
def timeline (rows : List Message) : List Message := channelRows rows fun _ => true

/-- The replies of a thread, in order. -/
def replies (rows : List Message) (rootId : Ulid) : List Message :=
  threadRows rows rootId fun _ => true

namespace RoomLog

variable (log : RoomLog) (T : ℕ) (limit : ℤ) (rootId : Ulid)

/-- A page of older messages, read while `T` changes have committed. -/
def olderMessages : WithTop ℕ → List Message × Bool
  | none =>
    let page := log.listMessages ⟨T, T, T, T⟩ .latest limit
    (page.messages, page.hasMore)
  | some seq =>
    let page := log.listMessages ⟨T, T, T, T⟩ (.before seq) limit
    (page.messages, page.hasMore)

/-- A page of newer messages. -/
def newerMessages (seq : ℕ) : List Message × Bool :=
  let page := log.listMessages ⟨T, T, T, T⟩ (.after seq) limit
  (page.messages, page.hasMore)

/-- A page around a message. -/
def messagesAroundId (messageId : Ulid) : List Message × Bool × Bool :=
  let page := log.listMessages ⟨T, T, T, T⟩ (.around messageId) limit
  (page.messages, page.hasMore, page.hasMoreAfter)

/-- A page of older replies. -/
def olderReplies : WithTop ℕ → List Message × Bool
  | none =>
    let page := log.listThreadMessages ⟨T, T, T, T⟩ rootId .latest limit
    (page.replies, page.hasMore)
  | some seq =>
    let page := log.listThreadMessages ⟨T, T, T, T⟩ rootId (.before seq) limit
    (page.replies, page.hasMore)

/-- A page of newer replies. -/
def newerReplies (seq : ℕ) : List Message × Bool :=
  let page := log.listThreadMessages ⟨T, T, T, T⟩ rootId (.after seq) limit
  (page.replies, page.hasMore)

/-- A page around a reply. -/
def repliesAroundId (messageId : Ulid) : List Message × Bool × Bool :=
  let page := log.listThreadMessages ⟨T, T, T, T⟩ rootId (.around messageId) limit
  (page.replies, page.hasMore, page.hasMoreAfter)

end RoomLog

open RoomLog

/-! ## Pages of one list -/

section Sorted

variable {rows : List Message} {rootId : Ulid}

/-- Rows that are sorted are selected before or after they are. -/
theorem sortBySeq_filter {p : Message → Bool} {sel : ℕ → Bool}
    (hsorted : (sortBySeq (rows.filter fun m => p m && sel m.seq)).Pairwise
      fun a b => a.seq < b.seq)
    (hall : (sortBySeq (rows.filter fun m => p m && true)).Pairwise fun a b => a.seq < b.seq) :
    sortBySeq (rows.filter fun m => p m && sel m.seq) =
      (sortBySeq (rows.filter fun m => p m && true)).filter fun m => sel m.seq := by
  have hperm : (sortBySeq (rows.filter fun m => p m && sel m.seq)).Perm
      ((sortBySeq (rows.filter fun m => p m && true)).filter fun m => sel m.seq) := by
    refine (perm_insertionSort _ _).trans ?_
    refine List.Perm.trans ?_ ((perm_insertionSort _ _).filter _).symm
    rw [List.filter_filter]
    refine List.Perm.of_eq (filter_congr fun m _ => ?_)
    rw [Bool.and_true, Bool.and_comm]
  exact hperm.eq_of_pairwise (fun a b _ _ hab hba => absurd hba (lt_asymm hab)) hsorted
    (hall.filter _)

variable {log : RoomLog} {T : ℕ}

theorem channelRows_eq (sel : ℕ → Bool) :
    channelRows (log.rowsAt T) sel = (timeline (log.rowsAt T)).filter fun m => sel m.seq :=
  sortBySeq_filter (pairwise_channelRows sel) (pairwise_channelRows fun _ => true)

theorem threadRows_eq (sel : ℕ → Bool) : threadRows (log.rowsAt T) rootId sel =
    (replies (log.rowsAt T) rootId).filter fun m => sel m.seq := by
  have hall : (threadRows (log.rowsAt T) rootId fun _ => true).Pairwise fun a b => a.seq < b.seq :=
    pairwise_threadRows log T
  exact sortBySeq_filter (pairwise_threadRows log T) hall

theorem messagesBefore_eq_older (b : WithTop ℕ) (limit : ℕ) :
    messagesBefore (log.rowsAt T) b limit =
      Paged.older (timeline (log.rowsAt T)) Message.seq limit b := by
  rw [messagesBefore_eq, channelRows_eq]
  rfl

theorem messagesAfter_eq_newer (a limit : ℕ) : messagesAfter (log.rowsAt T) a limit =
      Paged.newer (timeline (log.rowsAt T)) Message.seq limit a := by
  rw [messagesAfter_eq, channelRows_eq]
  rfl

theorem threadRepliesBefore_eq_older (b : WithTop ℕ) (limit : ℕ) :
    threadRepliesBefore (log.rowsAt T) rootId b limit =
      Paged.older (replies (log.rowsAt T) rootId) Message.seq limit b := by
  rw [threadRepliesBefore_eq, threadRows_eq]
  rfl

theorem threadRepliesAfter_eq_newer (a limit : ℕ) :
    threadRepliesAfter (log.rowsAt T) rootId a limit =
      Paged.newer (replies (log.rowsAt T) rootId) Message.seq limit a := by
  rw [threadRepliesAfter_eq, threadRows_eq]
  rfl

end Sorted

namespace RoomLog

variable {log : RoomLog} {T : ℕ} {limit : ℤ} {rootId : Ulid} {target : Message}

theorem olderMessages_eq : log.olderMessages T limit =
    Paged.older (timeline (log.rowsAt T)) Message.seq (messageLimit limit) := by
  funext b
  rw [← messagesBefore_eq_older]
  cases b with
  | top =>
    show ((log.listMessages ⟨T, T, T, T⟩ .latest limit).messages, _) = _
    rw [listMessages_latest]
  | coe seq =>
    show ((log.listMessages ⟨T, T, T, T⟩ (.before seq) limit).messages, _) = _
    rw [listMessages_before]
    rfl

theorem newerMessages_eq : log.newerMessages T limit =
    Paged.newer (timeline (log.rowsAt T)) Message.seq (messageLimit limit) := by
  funext a
  rw [← messagesAfter_eq_newer, newerMessages, listMessages_after]

theorem olderReplies_eq : log.olderReplies T limit rootId =
    Paged.older (replies (log.rowsAt T) rootId) Message.seq (messageLimit limit) := by
  funext b
  rw [← threadRepliesBefore_eq_older]
  cases b with
  | top =>
    show ((log.listThreadMessages ⟨T, T, T, T⟩ rootId .latest limit).replies, _) = _
    rw [listThreadMessages_latest]
  | coe seq =>
    show ((log.listThreadMessages ⟨T, T, T, T⟩ rootId (.before seq) limit).replies, _) = _
    rw [listThreadMessages_before]
    rfl

theorem newerReplies_eq : log.newerReplies T limit rootId =
    Paged.newer (replies (log.rowsAt T) rootId) Message.seq (messageLimit limit) := by
  funext a
  rw [← threadRepliesAfter_eq_newer, newerReplies, listThreadMessages_after]

/-- The row of a message is found by its id. -/
theorem getMessageView_of_mem (h : target ∈ log.rowsAt T) :
    getMessageView (log.rowsAt T) target.id = some target := by
  unfold getMessageView
  obtain ⟨m, hm⟩ : ∃ m, (log.rowsAt T).find? (fun m => decide (m.id = target.id)) = some m :=
    isSome_iff_exists.mp (find?_isSome.mpr ⟨target, h, decide_eq_true rfl⟩)
  have hfound := find?_some hm
  have hid : m.id = target.id := of_decide_eq_true hfound
  have hrow : m ∈ log.rowsAt T := mem_of_find?_eq_some hm
  have hplace := log.wellFormed.place_eq (log.mem_rowsAt.mp hrow).1 (log.mem_rowsAt.mp h).1 hid
  rw [hm, log.eq_of_mem_rowsAt hrow h (congrArg Place.seq hplace)]

theorem messagesAroundId_eq (htarget : target ∈ log.rowsAt T)
    (hdeleted : target.deletedAt = none) : log.messagesAroundId T limit target.id =
      Paged.around (timeline (log.rowsAt T)) Message.seq (messageLimit limit) target := by
  have haround : log.aroundTarget ⟨T, T, T, T⟩ target.id = some target :=
    filter_eq_some_iff.mpr ⟨getMessageView_of_mem htarget, by rw [hdeleted]; rfl⟩
  have hpage : log.listMessages ⟨T, T, T, T⟩ (.around target.id) limit =
      log.messagesAround ⟨T, T, T, T⟩ target.id (messageLimit limit) := rfl
  simp only [messagesAroundId, hpage, messagesAround, haround, messagesBefore_eq_older,
    messagesAfter_eq_newer]
  rfl

theorem repliesAroundId_eq (htarget : target ∈ log.rowsAt T)
    (hdeleted : target.deletedAt = none) (hroot : target.threadRootId = some rootId) :
    log.repliesAroundId T limit rootId target.id =
      Paged.around (replies (log.rowsAt T) rootId) Message.seq (messageLimit limit) target := by
  have haround : log.threadTarget ⟨T, T, T, T⟩ rootId target.id = some target := by
    refine filter_eq_some_iff.mpr ⟨getMessageView_of_mem htarget, ?_⟩
    rw [hdeleted, hroot, decide_eq_true rfl]
    rfl
  have hpage : log.listThreadMessages ⟨T, T, T, T⟩ rootId (.around target.id) limit =
      log.threadRepliesAround ⟨T, T, T, T⟩ rootId target.id (messageLimit limit) := rfl
  simp only [repliesAroundId, hpage, threadRepliesAround, haround, threadRepliesBefore_eq_older,
    threadRepliesAfter_eq_newer]
  rfl

end RoomLog

/-- **Message windows partition the history.** Whatever happened in a room, and whatever page size
is asked for: pages of the timeline partition the messages of the channel, and a page around a
message that is there and not deleted surrounds it among them; and the same is so for the replies
of each thread. -/
theorem windows_partition_history (log : RoomLog) (T : ℕ) (limit : ℤ) :
    (Paged.Partitions (timeline (log.rowsAt T)) Message.seq (messageLimit limit)
        (log.olderMessages T limit) (log.newerMessages T limit) ∧
      ∀ target ∈ log.rowsAt T, target.deletedAt = none →
        Paged.Surrounds (timeline (log.rowsAt T)) Message.seq (messageLimit limit)
          (log.olderMessages T limit) (log.newerMessages T limit) target
          (log.messagesAroundId T limit target.id)) ∧
    ∀ rootId, Paged.Partitions (replies (log.rowsAt T) rootId) Message.seq (messageLimit limit)
        (log.olderReplies T limit rootId) (log.newerReplies T limit rootId) ∧
      ∀ target ∈ log.rowsAt T, target.deletedAt = none → target.threadRootId = some rootId →
        Paged.Surrounds (replies (log.rowsAt T) rootId) Message.seq (messageLimit limit)
          (log.olderReplies T limit rootId) (log.newerReplies T limit rootId) target
          (log.repliesAroundId T limit rootId target.id) := by
  have hlimit : 0 < messageLimit limit := messageLimit_pos limit
  have htimeline : (timeline (log.rowsAt T)).Pairwise fun a b => a.seq < b.seq :=
    pairwise_channelRows fun _ => true
  refine ⟨⟨?_, fun target htarget hdeleted => ?_⟩, fun rootId => ?_⟩
  · rw [olderMessages_eq, newerMessages_eq]
    exact Paged.partitions_older_newer htimeline hlimit
  · rw [olderMessages_eq, newerMessages_eq, messagesAroundId_eq htarget hdeleted]
    exact Paged.surrounds_around htimeline hlimit target
  · have hreplies : (replies (log.rowsAt T) rootId).Pairwise fun a b => a.seq < b.seq :=
      pairwise_threadRows log T
    refine ⟨?_, fun target htarget hdeleted hroot => ?_⟩
    · rw [olderReplies_eq, newerReplies_eq]
      exact Paged.partitions_older_newer hreplies hlimit
    · rw [olderReplies_eq, newerReplies_eq, repliesAroundId_eq htarget hdeleted hroot]
      exact Paged.surrounds_around hreplies hlimit target

end Hibari
