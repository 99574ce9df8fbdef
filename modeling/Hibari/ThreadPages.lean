import Hibari.MessagePage

/-!
# Replies and pages of a thread

The rules that a client applies to the replies of a thread (`rules/threads.ts`), and how the server reads a
page of them (`thread.go` and its queries). A page of a thread is read like a page of a room, from the rows
whose root is the thread's.

`ThreadPage.covers` are the positions that a page answers for. There nothing is missing that was committed
when its first rows were read (`holds_listThreadMessages`).
-/

namespace Hibari

open List Option Window KeyedList

/-! ## Merging replies -/

/-- The newer of two versions of a reply. -/
def newerReply (existing message : Message) : Message :=
  if existing.changeSeq ≤ message.changeSeq then message else existing

/-- Replies by their ids, the newer version of each, in the order of the room. -/
def mergeReplies (current incoming : List Message) : List Message :=
  let byId := current.foldl (KeyedList.upsert Message.id (fun _ m => m)) []
  sortBySeq (incoming.foldl (KeyedList.upsert Message.id newerReply) byId)

/-- Merge only what falls into the loaded window. -/
def mergeRepliesIntoWindow (current : List Message) (window : Window) (incoming : List Message) :
    List Message :=
  let inWindow := incoming.filter (fun m => window.admits current m.seq)
  if inWindow.isEmpty then current else mergeReplies current inWindow

/-- A reply is held, in this version or a newer one. -/
def Holds (replies : List Message) (m : Message) : Prop :=
  ∃ m' ∈ replies, m'.id = m.id ∧ m.changeSeq ≤ m'.changeSeq

instance (replies : List Message) (m : Message) : Decidable (Holds replies m) :=
  inferInstanceAs (Decidable (∃ m' ∈ replies, _))

section Merging

variable {current incoming : List Message} {window : Window} {m : Message} {seq : ℕ}
  {Q : Message → Prop}

theorem newerReply_id {existing message : Message} (h : existing.id = message.id) :
    (newerReply existing message).id = message.id := by
  unfold newerReply
  split
  · rfl
  · exact h

theorem le_newerReply_existing (existing message : Message) :
    existing.changeSeq ≤ (newerReply existing message).changeSeq := by
  unfold newerReply
  split
  · next h => exact h
  · exact le_rfl

theorem le_newerReply_message (existing message : Message) :
    message.changeSeq ≤ (newerReply existing message).changeSeq := by
  unfold newerReply
  split
  · exact le_rfl
  · next h => exact (not_le.mp h).le

theorem tidy_mergeReplies (current incoming : List Message) : Tidy (mergeReplies current incoming) where
  distinct := by
    refine KeyedList.Distinct.perm (perm_insertionSort _ _).symm ?_
    exact (distinct_nil.foldl_upsert (fun _ _ _ => rfl) current).foldl_upsert
      (fun _ _ => newerReply_id) incoming
  sorted := pairwise_sortBySeq _

theorem mergeReplies_of_tidy (h : Tidy current) (incoming : List Message) :
    mergeReplies current incoming
      = sortBySeq (incoming.foldl (KeyedList.upsert Message.id newerReply) current) := by
  unfold mergeReplies
  rw [foldl_upsert_nil h.distinct]

theorem mergeReplies_nil_of_tidy (h : Tidy incoming) : mergeReplies [] incoming = incoming := by
  rw [mergeReplies_of_tidy tidy_nil, foldl_upsert_nil h.distinct]
  exact List.Pairwise.insertionSort_eq h.sorted

/-- **A merge invents nothing.** -/
theorem forall_mergeReplies (hcur : ∀ m ∈ current, Q m)
    (hinc : ∀ m ∈ incoming, Q m) : ∀ m ∈ mergeReplies current incoming, Q m := by
  intro m hm
  refine forall_foldl_upsert (Q := Q) (fun x a _ hx ha => ?_) ?_ hinc m (mem_sortBySeq.mp hm)
  · unfold newerReply
    split
    · exact ha
    · exact hx
  · exact forall_foldl_upsert (Q := Q) (fun _ _ _ _ ha => ha) (fun _ h => nomatch h) hcur

/-- **What was held is held.** -/
theorem Holds.mergeReplies_current (h : Tidy current) (hm : Holds current m) :
    Holds (mergeReplies current incoming) m := by
  obtain ⟨x, hx, hid, hle⟩ := hm
  rw [mergeReplies_of_tidy h]
  obtain ⟨y, hy, hid', hle'⟩ := exists_rank_le_of_mem_current Message.id Message.changeSeq
    (fun _ _ => newerReply_id) (fun x a _ => le_newerReply_existing x a) incoming hx
  exact ⟨y, mem_sortBySeq.mpr hy, hid'.trans hid, hle.trans hle'⟩

/-- **What came in is held.** -/
theorem Holds.mergeReplies_incoming (hm : Holds incoming m) : Holds (mergeReplies current incoming) m := by
  obtain ⟨x, hx, hid, hle⟩ := hm
  obtain ⟨y, hy, hid', hle'⟩ := exists_rank_le_of_mem_incoming Message.id Message.changeSeq
    (fun _ _ => newerReply_id) (fun x a _ => le_newerReply_existing x a)
    (fun x a _ => le_newerReply_message x a) hx
  exact ⟨y, mem_sortBySeq.mpr hy, hid'.trans hid, hle.trans hle'⟩

theorem tidy_mergeRepliesIntoWindow (h : Tidy current) (window : Window) (incoming : List Message) :
    Tidy (mergeRepliesIntoWindow current window incoming) := by
  simp only [mergeRepliesIntoWindow]
  split
  · exact h
  · exact tidy_mergeReplies _ _

theorem forall_mergeRepliesIntoWindow (hcur : ∀ m ∈ current, Q m)
    (hinc : ∀ m ∈ incoming, window.admits current m.seq = true → Q m) :
    ∀ m ∈ mergeRepliesIntoWindow current window incoming, Q m := by
  simp only [mergeRepliesIntoWindow]
  split
  · exact hcur
  · refine forall_mergeReplies hcur fun m hm => ?_
    obtain ⟨hm, hadmits⟩ := mem_filter.mp hm
    exact hinc m hm hadmits

theorem Holds.intoWindow_current (h : Tidy current) (hm : Holds current m) :
    Holds (mergeRepliesIntoWindow current window incoming) m := by
  simp only [mergeRepliesIntoWindow]
  split
  · exact hm
  · exact hm.mergeReplies_current h

theorem Holds.intoWindow_incoming {x : Message} (hx : x ∈ incoming)
    (hadmits : window.admits current x.seq = true) (hid : x.id = m.id) (hle : m.changeSeq ≤ x.changeSeq) :
    Holds (mergeRepliesIntoWindow current window incoming) m := by
  have hmem : x ∈ incoming.filter (fun m => window.admits current m.seq) :=
    mem_filter.mpr ⟨hx, hadmits⟩
  simp only [mergeRepliesIntoWindow]
  split
  · next hnil => exact absurd (List.isEmpty_iff.mp hnil ▸ hmem) not_mem_nil
  · exact Holds.mergeReplies_incoming ⟨x, hmem, hid, hle⟩

/-- **What lies between the edges does not move them.** -/
theorem Window.admits_of_between {merged : List Message}
    (hkeep : ∀ m ∈ current, ∃ m' ∈ merged, m'.seq = m.seq)
    (hbetween : ∀ m ∈ merged, window.admits current m.seq = true)
    (hadmits : window.admits merged seq = true) : window.admits current seq = true := by
  obtain ⟨hlow, hhigh⟩ := admits_iff.mp hadmits
  refine admits_iff.mpr ⟨fun hold o ho => ?_, fun hnew n hn => ?_⟩
  · obtain ⟨m', hm', -⟩ := hkeep o (mem_of_mem_head? ho)
    obtain ⟨o', ho'⟩ := isSome_iff_exists.mp (isSome_head?.mpr (ne_nil_of_mem hm'))
    have hle := (admits_iff.mp (hbetween o' (mem_of_mem_head? ho'))).1 hold o ho
    exact hle.trans (hlow hold o' ho')
  · obtain ⟨m', hm', -⟩ := hkeep n (mem_of_getLast? hn)
    obtain ⟨n', hn'⟩ := isSome_iff_exists.mp (getLast?_isSome.mpr (ne_nil_of_mem hm'))
    have hle := (admits_iff.mp (hbetween n' (mem_of_getLast? hn'))).2 hnew n hn
    exact (hhigh hnew n' hn').trans hle

end Merging

/-! ## The queries -/

/-- The replies of a thread at the positions that are selected, in order. -/
def threadRows (rows : List Message) (rootId : Ulid) (sel : ℕ → Bool) : List Message :=
  sortBySeq (rows.filter (fun m => decide (m.threadRootId = some rootId) && sel m.seq))

/-- `ListThreadMessagesBefore`, newest first. -/
def listThreadMessagesBefore (rows : List Message) (rootId : Ulid) (before : WithTop ℕ) (maxRows : ℕ) :
    List Message :=
  (threadRows rows rootId (fun seq => decide ((seq : WithTop ℕ) < before))).reverse.take maxRows

/-- `ListThreadMessagesAfter`, oldest first. -/
def listThreadMessagesAfter (rows : List Message) (rootId : Ulid) (after maxRows : ℕ) : List Message :=
  (threadRows rows rootId (fun seq => decide (after < seq))).take maxRows

/-! ## Pages -/

/-- Where a page of a thread starts. -/
inductive ThreadCursor
  | latest
  | before (seq : ℕ)
  | after (seq : ℕ)
  | around (messageId : Ulid)
  deriving DecidableEq

/-- A page of a thread. -/
structure ThreadPage where
  replies : List Message
  hasMore : Bool
  hasMoreAfter : Bool
  around : Option MessageAround
  lastChangeSeq : ℕ
  deriving DecidableEq

/-- Up to `limit` replies below a position, in order, and whether there are more. -/
def threadRepliesBefore (rows : List Message) (rootId : Ulid) (beforeSeq : WithTop ℕ) (limit : ℕ) :
    List Message × Bool :=
  if limit = 0 then ([], 0 < (listThreadMessagesBefore rows rootId beforeSeq 1).length)
  else
    let desc := listThreadMessagesBefore rows rootId beforeSeq (limit + 1)
    let hasMore := decide (limit < desc.length)
    ((if hasMore then desc.take limit else desc).reverse, hasMore)

/-- Up to `limit` replies above a position, in order, and whether there are more. -/
def threadRepliesAfter (rows : List Message) (rootId : Ulid) (afterSeq limit : ℕ) :
    List Message × Bool :=
  if limit = 0 then ([], 0 < (listThreadMessagesAfter rows rootId afterSeq 1).length)
  else
    let asc := listThreadMessagesAfter rows rootId afterSeq (limit + 1)
    let hasMore := decide (limit < asc.length)
    (if hasMore then asc.take limit else asc, hasMore)

namespace RoomLog

variable (log : RoomLog)

/-- The reply that a page is asked around, unless it is none of this thread or was deleted. -/
def threadTarget (reads : Reads) (rootId messageId : Ulid) : Option Message :=
  (getMessageView (log.rowsAt reads.first) messageId).filter
    (fun m => m.deletedAt.isNone && decide (m.threadRootId = some rootId))

/-- A reply in the middle of those before and after it; the latest page where there is none. -/
def threadRepliesAround (reads : Reads) (rootId messageId : Ulid) (limit : ℕ) : ThreadPage :=
  match log.threadTarget reads rootId messageId with
  | none =>
    let (rows, hasMore) := threadRepliesBefore (log.rowsAt reads.second) rootId ⊤ limit
    ⟨rows, hasMore, false, none, reads.room⟩
  | some target =>
    let olderLimit := min (limit / 2) (limit - 1)
    let (older, hasMoreBefore) :=
      threadRepliesBefore (log.rowsAt reads.second) rootId target.seq olderLimit
    let newerLimit := limit - 1 - older.length
    let (newer, hasMoreAfter) :=
      threadRepliesAfter (log.rowsAt reads.third) rootId target.seq newerLimit
    ⟨older ++ target :: newer, hasMoreBefore, hasMoreAfter,
      some ⟨target.seq, target.threadRootId⟩, reads.room⟩

/-- **A page of a thread.** The room's `last_change_seq` is read before the rows. -/
def listThreadMessages (reads : Reads) (rootId : Ulid) (cursor : ThreadCursor) (limit : ℤ) :
    ThreadPage :=
  let limit := messageLimit limit
  let maxRows := limit + 1
  let rows := log.rowsAt reads.first
  let backward (desc : List Message) : ThreadPage :=
    let asc := desc.reverse
    let hasMore := decide (limit < asc.length)
    ⟨if hasMore then asc.drop 1 else asc, hasMore, false, none, reads.room⟩
  match cursor with
  | .around messageId => log.threadRepliesAround reads rootId messageId limit
  | .after seq =>
    let asc := listThreadMessagesAfter rows rootId seq maxRows
    let hasMore := decide (limit < asc.length)
    ⟨if hasMore then asc.take limit else asc, hasMore, false, none, reads.room⟩
  | .before seq => backward (listThreadMessagesBefore rows rootId seq maxRows)
  | .latest => backward (listThreadMessagesBefore rows rootId ⊤ maxRows)

end RoomLog

/-- The positions that a page answers for. -/
def ThreadPage.covers (page : ThreadPage) : ThreadCursor → ℕ → Prop
  | .latest, position => Window.admits ⟨page.hasMore, false⟩ page.replies position = true
  | .before seq, position =>
    position < seq ∧ Window.admits ⟨page.hasMore, false⟩ page.replies position = true
  | .after seq, position =>
    seq < position ∧ Window.admits ⟨false, page.hasMore⟩ page.replies position = true
  | .around _, position =>
    Window.admits ⟨page.hasMore, page.hasMoreAfter⟩ page.replies position = true

instance ThreadPage.decidableCovers (page : ThreadPage) (cursor : ThreadCursor) (position : ℕ) :
    Decidable (page.covers cursor position) := by
  cases cursor <;> unfold ThreadPage.covers <;> infer_instance

/-! ## What a statement reads -/

/-- **A part of a page**, of rows in order: where rows were left out, they lie beyond all that it shows. -/
structure RowsPart (all : List Message) (beyond : ℕ → ℕ → Prop) (part : List Message) (hasMore : Bool) :
    Prop where
  mem : ∀ m ∈ part, m ∈ all
  sorted : part.Pairwise (fun a b => a.seq < b.seq)
  complete : ∀ r ∈ all, r ∈ part ∨ hasMore = true ∧ part ≠ [] ∧ ∀ x ∈ part, beyond r.seq x.seq

namespace RowsPart

variable {all part : List Message} {hasMore : Bool} {limit : ℕ} {r : Message}
  (hall : all.Pairwise (fun a b => a.seq < b.seq))
include hall

theorem of_take (hlimit : 0 < limit) :
    RowsPart all (fun r x => x < r) (all.take limit) (decide (limit < all.length)) := by
  refine ⟨fun m => mem_of_mem_take, hall.sublist (take_sublist _ _), fun r hr => ?_⟩
  refine (mem_take_or_of_pairwise hall limit hr).imp_right fun hbeyond => ?_
  refine ⟨decide_eq_true hbeyond.1, fun hnil => ?_, hbeyond.2⟩
  have hlength := congrArg List.length hnil
  rw [length_take, Nat.min_eq_left hbeyond.1.le] at hlength
  exact hlimit.ne' hlength

/-- The last rows. -/
theorem of_reverse_take (hlimit : 0 < limit) :
    RowsPart all (· < ·) (all.reverse.take limit).reverse (decide (limit < all.length)) := by
  have hreverse : all.reverse.Pairwise (fun a b => b.seq < a.seq) := pairwise_reverse.mpr hall
  refine ⟨fun m hm => ?_, ?_, fun r hr => ?_⟩
  · exact mem_reverse.mp (mem_of_mem_take (mem_reverse.mp hm))
  · exact pairwise_reverse.mpr (hreverse.sublist (take_sublist _ _))
  · refine (mem_take_or_of_pairwise hreverse limit (mem_reverse.mpr hr)).imp
      mem_reverse.mpr fun hbeyond => ?_
    rw [length_reverse] at hbeyond
    refine ⟨decide_eq_true hbeyond.1, fun hnil => ?_, fun x hx =>
      hbeyond.2 x (mem_reverse.mp hx)⟩
    have hlength := congrArg List.length hnil
    rw [length_reverse, length_take, length_reverse, Nat.min_eq_left hbeyond.1.le] at hlength
    exact hlimit.ne' hlength

omit hall

/-- From the first row shown on, older rows are shown. -/
theorem mem_of_head_le (h : RowsPart all (· < ·) part hasMore) (hr : r ∈ all)
    (hhead : hasMore = true → ∀ o, part.head? = some o → o.seq ≤ r.seq) : r ∈ part := by
  cases h.complete r hr with
  | inl hmem => exact hmem
  | inr hleft =>
    obtain ⟨hmore, hne, hbeyond⟩ := hleft
    obtain ⟨o, ho⟩ := isSome_iff_exists.mp (isSome_head?.mpr hne)
    exact absurd (hbeyond o (mem_of_mem_head? ho)) (hhead hmore o ho).not_gt

/-- Up to the last row shown, newer rows are shown. -/
theorem mem_of_le_getLast (h : RowsPart all (fun r x => x < r) part hasMore) (hr : r ∈ all)
    (hlast : hasMore = true → ∀ n, part.getLast? = some n → r.seq ≤ n.seq) : r ∈ part := by
  cases h.complete r hr with
  | inl hmem => exact hmem
  | inr hleft =>
    obtain ⟨hmore, hne, hbeyond⟩ := hleft
    obtain ⟨n, hn⟩ := isSome_iff_exists.mp (getLast?_isSome.mpr hne)
    exact absurd (hbeyond n (mem_of_getLast? hn)) (hlast hmore n hn).not_gt

end RowsPart

section Queries

variable {rows : List Message} {rootId : Ulid} {sel : ℕ → Bool} {m : Message} {limit : ℕ}

theorem mem_threadRows_iff : m ∈ threadRows rows rootId sel ↔
    m ∈ rows ∧ m.threadRootId = some rootId ∧ sel m.seq = true := by
  unfold threadRows
  rw [mem_sortBySeq, mem_filter, Bool.and_eq_true, decide_eq_true_iff]

theorem pairwise_threadRows (log : RoomLog) (T : ℕ) :
    (threadRows (log.rowsAt T) rootId sel).Pairwise (fun a b => a.seq < b.seq) := by
  have hnodup : (threadRows (log.rowsAt T) rootId sel).Nodup :=
    (perm_insertionSort _ _).nodup_iff.mpr ((log.nodup_rowsAt T).filter _)
  refine ((pairwise_sortBySeq _).and hnodup).imp_of_mem fun {a b} ha hb hab => ?_
  refine lt_of_le_of_ne hab.1 fun hseq => hab.2 ?_
  exact log.eq_of_mem_rowsAt (mem_threadRows_iff.mp ha).1 (mem_threadRows_iff.mp hb).1 hseq

theorem threadRepliesBefore_eq (rows : List Message) (rootId : Ulid) (b : WithTop ℕ) (limit : ℕ) :
    threadRepliesBefore rows rootId b limit =
      (((threadRows rows rootId (fun seq => decide ((seq : WithTop ℕ) < b))).reverse.take limit).reverse,
        decide (limit < (threadRows rows rootId (fun seq => decide ((seq : WithTop ℕ) < b))).length)) := by
  have hpage := take_succ_page
    (threadRows rows rootId (fun seq => decide ((seq : WithTop ℕ) < b))).reverse limit
  rw [length_reverse] at hpage
  simp only [threadRepliesBefore, listThreadMessagesBefore, lt_length_take_succ, length_reverse,
    hpage]
  split
  · next h0 => rw [h0, take_zero, reverse_nil]
  · rfl

theorem threadRepliesAfter_eq (rows : List Message) (rootId : Ulid) (a limit : ℕ) :
    threadRepliesAfter rows rootId a limit =
      ((threadRows rows rootId (fun seq => decide (a < seq))).take limit,
        decide (limit < (threadRows rows rootId (fun seq => decide (a < seq))).length)) := by
  simp only [threadRepliesAfter, listThreadMessagesAfter, lt_length_take_succ, take_succ_page]
  split
  · next h0 => rw [h0, take_zero]
  · rfl

theorem part_threadRepliesBefore (log : RoomLog) (rootId : Ulid) (T : ℕ) (b : WithTop ℕ) (hlimit : 0 < limit) :
    RowsPart (threadRows (log.rowsAt T) rootId (fun seq => decide ((seq : WithTop ℕ) < b))) (· < ·)
      (threadRepliesBefore (log.rowsAt T) rootId b limit).1
      (threadRepliesBefore (log.rowsAt T) rootId b limit).2 := by
  rw [threadRepliesBefore_eq]
  exact RowsPart.of_reverse_take (pairwise_threadRows log T) hlimit

theorem part_threadRepliesAfter (log : RoomLog) (rootId : Ulid) (T a : ℕ) (hlimit : 0 < limit) :
    RowsPart (threadRows (log.rowsAt T) rootId (fun seq => decide (a < seq))) (fun r x => x < r)
      (threadRepliesAfter (log.rowsAt T) rootId a limit).1
      (threadRepliesAfter (log.rowsAt T) rootId a limit).2 := by
  rw [threadRepliesAfter_eq]
  exact RowsPart.of_take (pairwise_threadRows log T) hlimit

end Queries

/-! ## What a page shows -/

namespace RoomLog

variable (log : RoomLog) (reads : Reads) {rootId : Ulid} {m : Message}
  {T : ℕ} {messageId : Ulid} {target : Message} {cursor : ThreadCursor}

/-- Each version of a message is in the same thread. -/
def Threaded : Prop :=
  ∀ x ∈ log.changes, ∀ y ∈ log.changes, x.id = y.id → x.threadRootId = y.threadRootId

/-- What a change did, the table has, in this version or a newer one. -/
theorem exists_mem_threadRows (hlog : log.Threaded) (sel : ℕ → Bool) (hm : m ∈ log.changes)
    (hroot : m.threadRootId = some rootId) (hT : m.changeSeq ≤ T) (hsel : sel m.seq = true) :
    ∃ r ∈ threadRows (log.rowsAt T) rootId sel, r.id = m.id ∧ r.seq = m.seq ∧
      m.changeSeq ≤ r.changeSeq := by
  obtain ⟨r, hr, hplace, hle⟩ := log.exists_mem_rowsAt (List.mem_map.mpr ⟨m, hm, rfl⟩) hT
  have hid : r.id = m.id := congrArg Place.id hplace
  have hseq : r.seq = m.seq := congrArg Place.seq hplace
  have hthread := hlog r (log.mem_rowsAt.mp hr).1 m hm hid
  refine ⟨r, mem_threadRows_iff.mpr ⟨hr, hthread.trans hroot, ?_⟩, hid, hseq, hle⟩
  rw [hseq]
  exact hsel

theorem listThreadMessages_after (seq : ℕ) (limit : ℤ) :
    log.listThreadMessages reads rootId (.after seq) limit =
      ⟨(threadRepliesAfter (log.rowsAt reads.first) rootId seq (messageLimit limit)).1,
        (threadRepliesAfter (log.rowsAt reads.first) rootId seq (messageLimit limit)).2,
        false, none, reads.room⟩ := by
  rw [threadRepliesAfter_eq]
  simp only [listThreadMessages, listThreadMessagesAfter, lt_length_take_succ, take_succ_page]

theorem listThreadMessages_before (seq : ℕ) (limit : ℤ) :
    log.listThreadMessages reads rootId (.before seq) limit =
      ⟨(threadRepliesBefore (log.rowsAt reads.first) rootId seq (messageLimit limit)).1,
        (threadRepliesBefore (log.rowsAt reads.first) rootId seq (messageLimit limit)).2,
        false, none, reads.room⟩ := by
  rw [threadRepliesBefore_eq, ← length_reverse, ← drop_one_reverse_take]
  simp only [listThreadMessages, listThreadMessagesBefore, length_reverse, lt_length_take_succ]

theorem listThreadMessages_latest (limit : ℤ) : log.listThreadMessages reads rootId .latest limit =
      ⟨(threadRepliesBefore (log.rowsAt reads.first) rootId ⊤ (messageLimit limit)).1,
        (threadRepliesBefore (log.rowsAt reads.first) rootId ⊤ (messageLimit limit)).2,
        false, none, reads.room⟩ := by
  rw [threadRepliesBefore_eq, ← length_reverse, ← drop_one_reverse_take]
  simp only [listThreadMessages, listThreadMessagesBefore, length_reverse, lt_length_take_succ]

variable (h : log.threadTarget reads rootId messageId = some target)
include h

theorem threadTarget_mem : target ∈ log.rowsAt reads.first ∧ target.threadRootId = some rootId := by
  obtain ⟨hview, hfilter⟩ := filter_eq_some_iff.mp h
  exact ⟨mem_of_find?_eq_some hview, of_decide_eq_true (Bool.and_eq_true_iff.mp hfilter).2⟩

/-- The three parts of a page around a reply. -/
theorem threadRepliesAround_some {limit : ℕ} (hlimit : 3 ≤ limit) :
    ∃ older newer hasMore hasMoreAfter, log.threadRepliesAround reads rootId messageId limit =
        ⟨older ++ target :: newer, hasMore, hasMoreAfter,
          some ⟨target.seq, target.threadRootId⟩, reads.room⟩ ∧
      RowsPart (threadRows (log.rowsAt reads.second) rootId
        (fun seq => decide ((seq : WithTop ℕ) < target.seq))) (· < ·) older hasMore ∧
      RowsPart (threadRows (log.rowsAt reads.third) rootId (fun seq => decide (target.seq < seq)))
        (fun r x => x < r) newer hasMoreAfter := by
  have holder : 0 < min (limit / 2) (limit - 1) := lt_min (by omega) (by omega)
  have hlength : (threadRepliesBefore (log.rowsAt reads.second) rootId target.seq
      (min (limit / 2) (limit - 1))).1.length ≤ limit / 2 := by
    rw [threadRepliesBefore_eq, length_reverse]
    exact (length_take_le _ _).trans (min_le_left _ _)
  refine ⟨_, _, _, _, by rw [threadRepliesAround, h], part_threadRepliesBefore log _ _ _ holder,
    part_threadRepliesAfter log _ _ _ ?_⟩
  omega

omit h

theorem threadRepliesAround_none {limit : ℕ} (h : log.threadTarget reads rootId messageId = none) :
    log.threadRepliesAround reads rootId messageId limit =
      ⟨(threadRepliesBefore (log.rowsAt reads.second) rootId ⊤ limit).1,
        (threadRepliesBefore (log.rowsAt reads.second) rootId ⊤ limit).2, false, none, reads.room⟩ := by
  rw [threadRepliesAround, h]

/-- **What is on a page**: replies of the thread, in order, on the side that was asked for. -/
structure ShowsReplies (rootId : Ulid) (cursor : ThreadCursor) (replies : List Message) : Prop where
  genuine : ∀ m ∈ replies, m ∈ log.changes ∧ m.threadRootId = some rootId
  sorted : replies.Pairwise (fun a b => a.seq < b.seq)
  side : ∀ m ∈ replies, match cursor with
    | .before seq => m.seq < seq
    | .after seq => seq < m.seq
    | _ => True

theorem genuine_of_part {sel : ℕ → Bool} {beyond : ℕ → ℕ → Prop} {part : List Message}
    {hasMore : Bool} (h : RowsPart (threadRows (log.rowsAt T) rootId sel) beyond part hasMore)
    (hm : m ∈ part) :
    (m ∈ log.changes ∧ m.threadRootId = some rootId) ∧ sel m.seq = true := by
  obtain ⟨hrow, hroot, hsel⟩ := mem_threadRows_iff.mp (h.mem m hm)
  exact ⟨⟨(log.mem_rowsAt.mp hrow).1, hroot⟩, hsel⟩

theorem showsReplies_listThreadMessages {limit : ℤ} (hlimit : 3 ≤ messageLimit limit)
    (cursor : ThreadCursor) :
    log.ShowsReplies rootId cursor (log.listThreadMessages reads rootId cursor limit).replies := by
  have hpos := messageLimit_pos limit
  cases cursor with
  | latest =>
    rw [listThreadMessages_latest]
    have hpart := part_threadRepliesBefore log rootId reads.first ⊤ hpos
    exact ⟨fun m hm => (log.genuine_of_part hpart hm).1, hpart.sorted, fun _ _ => trivial⟩
  | before seq =>
    rw [listThreadMessages_before]
    have hpart := part_threadRepliesBefore log rootId reads.first seq hpos
    refine ⟨fun m hm => (log.genuine_of_part hpart hm).1, hpart.sorted, fun m hm => ?_⟩
    exact_mod_cast of_decide_eq_true (log.genuine_of_part hpart hm).2
  | after seq =>
    rw [listThreadMessages_after]
    have hpart := part_threadRepliesAfter log rootId reads.first seq hpos
    refine ⟨fun m hm => (log.genuine_of_part hpart hm).1, hpart.sorted, fun m hm => ?_⟩
    exact of_decide_eq_true (log.genuine_of_part hpart hm).2
  | around messageId =>
    show log.ShowsReplies rootId (.around messageId)
      (log.threadRepliesAround reads rootId messageId (messageLimit limit)).replies
    cases htarget : log.threadTarget reads rootId messageId with
    | none =>
      rw [threadRepliesAround_none log reads htarget]
      have hpart := part_threadRepliesBefore log rootId reads.second ⊤ hpos
      exact ⟨fun m hm => (log.genuine_of_part hpart hm).1, hpart.sorted, fun _ _ => trivial⟩
    | some target =>
      obtain ⟨older, newer, _, _, heq, hold, hnew⟩ :=
        log.threadRepliesAround_some reads htarget hlimit
      obtain ⟨hrow, hroot⟩ := log.threadTarget_mem reads htarget
      rw [heq]
      have holder : ∀ o ∈ older, o.seq < target.seq := fun o ho => by
        exact_mod_cast of_decide_eq_true (log.genuine_of_part hold ho).2
      have hnewer : ∀ n ∈ newer, target.seq < n.seq := fun n hn =>
        of_decide_eq_true (log.genuine_of_part hnew hn).2
      refine ⟨fun m hm => ?_, ?_, fun _ _ => trivial⟩
      · rcases mem_append.mp hm with ho | hrest
        · exact (log.genuine_of_part hold ho).1
        · rcases mem_cons.mp hrest with rfl | hn
          · exact ⟨(log.mem_rowsAt.mp hrow).1, hroot⟩
          · exact (log.genuine_of_part hnew hn).1
      · refine pairwise_append.mpr
          ⟨hold.sorted, pairwise_cons.mpr ⟨hnewer, hnew.sorted⟩, fun o ho n hn => ?_⟩
        rcases mem_cons.mp hn with rfl | hn'
        · exact holder o ho
        · exact (holder o ho).trans (hnewer n hn')

variable {log} in
theorem ShowsReplies.tidy {replies : List Message}
    (h : log.ShowsReplies rootId cursor replies) : Tidy replies where
  distinct := by
    refine pairwise_map.mpr (h.sorted.imp_of_mem fun {a b} ha hb hlt hid => ?_)
    have hplace := log.wellFormed.place_eq (h.genuine a ha).1 (h.genuine b hb).1 hid
    exact hlt.ne (congrArg Place.seq hplace)
  sorted := h.sorted.imp le_of_lt

/-- **A page is complete where it answers**: what was committed when its first rows were read is on it, in
that version or a newer one. -/
theorem holds_listThreadMessages (hlog : log.Threaded) {asked now : ℕ} (hreads : reads.Between asked now)
    {limit : ℤ} (hlimit : 3 ≤ messageLimit limit) (hm : m ∈ log.changes)
    (hroot : m.threadRootId = some rootId) (hfirst : m.changeSeq ≤ reads.first)
    (hcovers : (log.listThreadMessages reads rootId cursor limit).covers cursor m.seq) :
    Holds (log.listThreadMessages reads rootId cursor limit).replies m := by
  have hpos := messageLimit_pos limit
  have hsecond := hfirst.trans hreads.second_after
  have hthird := hsecond.trans hreads.third_after
  cases cursor with
  | latest =>
    rw [listThreadMessages_latest] at hcovers ⊢
    obtain ⟨r, hr, hid, hseq, hle⟩ := log.exists_mem_threadRows hlog
      (fun seq => decide ((seq : WithTop ℕ) < ⊤)) hm hroot hfirst (decide_eq_true (WithTop.coe_lt_top _))
    have hpart := part_threadRepliesBefore log rootId reads.first ⊤ hpos
    exact ⟨r, hpart.mem_of_head_le hr (hseq ▸ (admits_iff.mp hcovers).1), hid, hle⟩
  | before seq =>
    rw [listThreadMessages_before] at hcovers ⊢
    obtain ⟨hside, hadmits⟩ := hcovers
    obtain ⟨r, hr, hid, hseq, hle⟩ := log.exists_mem_threadRows hlog
      (fun x => decide ((x : WithTop ℕ) < seq)) hm hroot hfirst (decide_eq_true (by exact_mod_cast hside))
    have hpart := part_threadRepliesBefore log rootId reads.first seq hpos
    exact ⟨r, hpart.mem_of_head_le hr (hseq ▸ (admits_iff.mp hadmits).1), hid, hle⟩
  | after seq =>
    rw [listThreadMessages_after] at hcovers ⊢
    obtain ⟨hside, hadmits⟩ := hcovers
    obtain ⟨r, hr, hid, hseq, hle⟩ := log.exists_mem_threadRows hlog
      (fun x => decide (seq < x)) hm hroot hfirst (decide_eq_true hside)
    have hpart := part_threadRepliesAfter log rootId reads.first seq hpos
    exact ⟨r, hpart.mem_of_le_getLast hr (hseq ▸ (admits_iff.mp hadmits).2), hid, hle⟩
  | around messageId =>
    change (log.threadRepliesAround reads rootId messageId (messageLimit limit)).covers
      (.around messageId) m.seq at hcovers
    show Holds (log.threadRepliesAround reads rootId messageId (messageLimit limit)).replies m
    cases htarget : log.threadTarget reads rootId messageId with
    | none =>
      rw [threadRepliesAround_none log reads htarget] at hcovers ⊢
      obtain ⟨r, hr, hid, hseq, hle⟩ := log.exists_mem_threadRows hlog
        (fun seq => decide ((seq : WithTop ℕ) < ⊤)) hm hroot hsecond (decide_eq_true (WithTop.coe_lt_top _))
      have hpart := part_threadRepliesBefore log rootId reads.second ⊤ hpos
      exact ⟨r, hpart.mem_of_head_le hr (hseq ▸ (admits_iff.mp hcovers).1), hid, hle⟩
    | some target =>
      obtain ⟨older, newer, hasMore, hasMoreAfter, heq, hold, hnew⟩ :=
        log.threadRepliesAround_some reads htarget hlimit
      rw [heq] at hcovers ⊢
      obtain ⟨hlow, hhigh⟩ := admits_iff.mp hcovers
      rcases Nat.lt_trichotomy m.seq target.seq with hlt | hsame | hgt
      · obtain ⟨r, hr, hid, hseq, hle⟩ := log.exists_mem_threadRows hlog
          (fun x => decide ((x : WithTop ℕ) < target.seq)) hm hroot hsecond
          (decide_eq_true (by exact_mod_cast hlt))
        refine ⟨r, mem_append_left _ (hold.mem_of_head_le hr fun hmore o ho => ?_), hid, hle⟩
        -- the first of the older replies is the first of the page
        exact hseq ▸ hlow hmore o (by rw [head?_append, ho, some_or])
      · obtain ⟨r, hr, hplace, hle⟩ :=
          log.exists_mem_rowsAt (List.mem_map.mpr ⟨m, hm, rfl⟩) hfirst
        have hseq : r.seq = m.seq := congrArg Place.seq hplace
        have htarget' := log.eq_of_mem_rowsAt hr (log.threadTarget_mem reads htarget).1
          (hseq.trans hsame)
        exact ⟨target, mem_append_right _ (.head _),
          htarget' ▸ congrArg Place.id hplace, htarget' ▸ hle⟩
      · obtain ⟨r, hr, hid, hseq, hle⟩ := log.exists_mem_threadRows hlog
          (fun x => decide (target.seq < x)) hm hroot hthird (decide_eq_true hgt)
        refine ⟨r, mem_append_right _ (mem_cons_of_mem _
          (hnew.mem_of_le_getLast hr fun hmore n hn => ?_)), hid, hle⟩
        refine hseq ▸ hhigh hmore n ?_
        rw [getLast?_append, getLast?_cons, hn, getD_some, some_or]

/-- A page carries the number that the room's row had. -/
theorem lastChangeSeq_listThreadMessages (cursor : ThreadCursor) (limit : ℤ) :
    (log.listThreadMessages reads rootId cursor limit).lastChangeSeq = reads.room := by
  cases cursor with
  | around messageId =>
    show (log.threadRepliesAround reads rootId messageId (messageLimit limit)).lastChangeSeq = _
    unfold threadRepliesAround
    split <;> rfl
  | _ => rfl

end RoomLog

end Hibari
