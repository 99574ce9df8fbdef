import Hibari.RoomLog

/-!
# Pages of a room's messages

How the server reads a page (`message_page.go` and the queries it uses). One
page takes several statements, and changes may commit between them: the
room's row first, for `last_change_seq`, then the rows of messages. `Reads`
says how far the log had come when each of them read.

Two facts are what a client relies on. What is on a page was committed when
its rows were read (`RoomLog.le_shownAt_of_held`), and in the range the page covers
nothing committed by then is missing (`exists_mem_listMessages`). The moment
is `shownAt`: one for most pages, three for a page around a message, whose
target, older and newer rows come from statements of their own.
-/

namespace Hibari

open List Option Window

/-! ## The queries -/

/-- Order messages by the number of their last change. -/
def sortByChangeSeq (messages : List Message) : List Message :=
  messages.insertionSort (fun a b => a.changeSeq ≤ b.changeSeq)

/-- `ListMessagesBefore`: rows of the channel's timeline positioned below
`before`, newest first. The latest page passes the greatest number there is,
which bounds nothing and is `⊤` here. -/
def listMessagesBefore (rows : List Message) (before : WithTop ℕ) (maxRows : ℕ) : List Message :=
  ((sortBySeq (rows.filter (fun m => inChannel m && decide ((m.seq : WithTop ℕ) < before)))).reverse).take
    maxRows

/-- `ListMessagesAfter`: rows of the channel's timeline positioned above
`after`, oldest first. -/
def listMessagesAfter (rows : List Message) (after maxRows : ℕ) : List Message :=
  (sortBySeq (rows.filter (fun m => inChannel m && decide (after < m.seq)))).take maxRows

/-- `ListMessagesChangedAfter`: rows changed after a number, oldest change
first, thread replies included. -/
def listMessagesChangedAfter (rows : List Message) (after maxRows : ℕ) : List Message :=
  (sortByChangeSeq (rows.filter (fun m => decide (after < m.changeSeq)))).take maxRows

/-- `GetMessageView`: the row of a message. -/
def getMessageView (rows : List Message) (id : Ulid) : Option Message :=
  rows.find? (fun m => decide (m.id = id))

/-! ## Pages -/

def defaultMessageLimit : ℕ := 50

def maxMessageLimit : ℕ := 100

/-- The page size that is used for one that was asked for. -/
def messageLimit (limit : ℤ) : ℕ :=
  if limit ≤ 0 then defaultMessageLimit
  else if limit > maxMessageLimit then maxMessageLimit
  else limit.toNat

/-- Where a page starts. A request may name one cursor at most; the client
never names two. -/
inductive MessageCursor
  | latest
  | before (seq : ℕ)
  | after (seq : ℕ)
  | afterChange (changeSeq : ℕ)
  | around (messageId : Ulid)
  deriving DecidableEq

/-- Where the message that a page was asked around stands. -/
structure MessageAround where
  seq : ℕ
  threadRootId : Option Ulid
  deriving DecidableEq

/-- A page of messages. -/
structure MessagePage where
  messages : List Message
  hasMore : Bool
  hasMoreAfter : Bool
  around : Option MessageAround
  lastChangeSeq : ℕ
  deriving DecidableEq

/-- How many changes had committed when each statement of a request read: the
room's row first, then the rows of messages, one to three times. -/
structure Reads where
  room : ℕ
  first : ℕ
  second : ℕ
  third : ℕ
  deriving DecidableEq

/-- The statements run in order, between the request and the answer. -/
structure Reads.Between (reads : Reads) (asked now : ℕ) : Prop where
  room_after : asked ≤ reads.room
  first_after : reads.room ≤ reads.first
  second_after : reads.first ≤ reads.second
  third_after : reads.second ≤ reads.third
  done : reads.third ≤ now

instance (reads : Reads) (asked now : ℕ) : Decidable (reads.Between asked now) :=
  decidable_of_iff
    (asked ≤ reads.room ∧ reads.room ≤ reads.first ∧ reads.first ≤ reads.second ∧
      reads.second ≤ reads.third ∧ reads.third ≤ now)
    ⟨fun h => ⟨h.1, h.2.1, h.2.2.1, h.2.2.2.1, h.2.2.2.2⟩,
      fun h => ⟨h.room_after, h.first_after, h.second_after, h.third_after, h.done⟩⟩

theorem Reads.Between.room_le {reads : Reads} {asked now : ℕ} (h : reads.Between asked now) :
    reads.room ≤ now :=
  h.first_after.trans (h.second_after.trans (h.third_after.trans h.done))

/-- Up to `limit` rows below a position, in order, and whether there are
more. -/
def messagesBefore (rows : List Message) (beforeSeq : WithTop ℕ) (limit : ℕ) :
    List Message × Bool :=
  if limit = 0 then ([], 0 < (listMessagesBefore rows beforeSeq 1).length)
  else
    let desc := listMessagesBefore rows beforeSeq (limit + 1)
    let hasMore := decide (limit < desc.length)
    ((if hasMore then desc.take limit else desc).reverse, hasMore)

/-- Up to `limit` rows above a position, in order, and whether there are
more. -/
def messagesAfter (rows : List Message) (afterSeq limit : ℕ) : List Message × Bool :=
  if limit = 0 then ([], 0 < (listMessagesAfter rows afterSeq 1).length)
  else
    let asc := listMessagesAfter rows afterSeq (limit + 1)
    let hasMore := decide (limit < asc.length)
    (if hasMore then asc.take limit else asc, hasMore)

namespace RoomLog

variable (log : RoomLog)

/-- The message a page is asked around, unless there is none or it was
deleted. -/
def aroundTarget (reads : Reads) (messageId : Ulid) : Option Message :=
  (getMessageView (log.rowsAt reads.first) messageId).filter (fun m => m.deletedAt.isNone)

/-- A message in the middle of the rows before and after it; the latest page
where there is no such message. -/
def messagesAround (reads : Reads) (messageId : Ulid) (limit : ℕ) : MessagePage :=
  match log.aroundTarget reads messageId with
  | none =>
    let (rows, hasMore) := messagesBefore (log.rowsAt reads.second) ⊤ limit
    ⟨rows, hasMore, false, none, reads.room⟩
  | some target =>
    -- one row is the target's own; the older side gets half of the page, rounded down
    let olderLimit := min (limit / 2) (limit - 1)
    let (older, hasMoreBefore) := messagesBefore (log.rowsAt reads.second) target.seq olderLimit
    let newerLimit := limit - 1 - older.length
    let (newer, hasMoreAfter) := messagesAfter (log.rowsAt reads.third) target.seq newerLimit
    ⟨older ++ target :: newer, hasMoreBefore, hasMoreAfter,
      some ⟨target.seq, target.threadRootId⟩, reads.room⟩

/-- **A page of a room's messages.** One row more than the page holds is read
to see whether there are more. The room's `last_change_seq` is read before the
rows. -/
def listMessages (reads : Reads) (cursor : MessageCursor) (limit : ℤ) : MessagePage :=
  let limit := messageLimit limit
  let maxRows := limit + 1
  let rows := log.rowsAt reads.first
  let forward (asc : List Message) : MessagePage :=
    let hasMore := decide (limit < asc.length)
    ⟨if hasMore then asc.take limit else asc, hasMore, false, none, reads.room⟩
  let backward (desc : List Message) : MessagePage :=
    let asc := desc.reverse
    let hasMore := decide (limit < asc.length)
    ⟨if hasMore then asc.drop 1 else asc, hasMore, false, none, reads.room⟩
  match cursor with
  | .around messageId => log.messagesAround reads messageId limit
  | .afterChange changeSeq => forward (listMessagesChangedAfter rows changeSeq maxRows)
  | .after seq => forward (listMessagesAfter rows seq maxRows)
  | .before seq => backward (listMessagesBefore rows seq maxRows)
  | .latest => backward (listMessagesBefore rows ⊤ maxRows)

end RoomLog

open RoomLog

variable {limit : ℕ}

/-! ## What a page leaves out

A query sorts the rows and takes the first ones. What it leaves out lies
beyond everything it takes, in the order it sorts by. -/

/-- What is not among the first entries of a sorted list comes after all of
them. -/
theorem mem_take_or_of_pairwise {α : Type*} {R : α → α → Prop} {l : List α}
    (hl : l.Pairwise R) (n : ℕ) {r : α} (hr : r ∈ l) :
    r ∈ l.take n ∨ (n < l.length ∧ ∀ x ∈ l.take n, R x r) := by
  rw [← take_append_drop n l] at hl hr
  cases mem_append.mp hr with
  | inl htake => exact .inl htake
  | inr hdrop =>
    refine .inr ⟨?_, fun x hx => (pairwise_append.mp hl).2.2 x hx r hdrop⟩
    have hpos := length_pos_of_mem hdrop
    rw [length_drop] at hpos
    exact Nat.lt_of_sub_pos hpos

/-- The rows of the channel's timeline that a predicate on positions selects,
in order. -/
def channelRows (rows : List Message) (sel : ℕ → Bool) : List Message :=
  sortBySeq (rows.filter (fun m => inChannel m && sel m.seq))

theorem mem_channelRows {rows : List Message} {sel : ℕ → Bool} {m : Message} :
    m ∈ channelRows rows sel ↔ m ∈ rows ∧ inChannel m = true ∧ sel m.seq = true := by
  unfold channelRows
  rw [mem_sortBySeq, mem_filter, Bool.and_eq_true]

theorem lt_length_take_succ {α : Type*} {l : List α} :
    limit < (l.take (limit + 1)).length ↔ limit < l.length := by
  rw [length_take]
  exact ⟨fun h => (lt_min_iff.mp h).2, fun h => lt_min_iff.mpr ⟨Nat.lt_succ_self _, h⟩⟩

/-- Of one row more than the page holds, the page keeps what it holds. -/
theorem take_succ_page {α : Type*} (l : List α) (limit : ℕ) :
    (if decide (limit < l.length) = true then (l.take (limit + 1)).take limit
      else l.take (limit + 1)) = l.take limit := by
  split
  · rw [take_take, Nat.min_eq_left (Nat.le_succ limit)]
  · next h =>
    have hlen : l.length ≤ limit := by simpa using h
    rw [take_of_length_le hlen, take_of_length_le (hlen.trans (Nat.le_succ _))]

theorem listMessagesBefore_eq (rows : List Message) (b : WithTop ℕ) (n : ℕ) :
    listMessagesBefore rows b n =
      (channelRows rows (fun seq => decide ((seq : WithTop ℕ) < b))).reverse.take n := rfl

theorem listMessagesAfter_eq (rows : List Message) (a n : ℕ) :
    listMessagesAfter rows a n = (channelRows rows (fun seq => decide (a < seq))).take n := rfl

/-- The older rows of a page are the last of those below the position. -/
theorem messagesBefore_eq (rows : List Message) (b : WithTop ℕ) (limit : ℕ) :
    messagesBefore rows b limit =
      (((channelRows rows (fun seq => decide ((seq : WithTop ℕ) < b))).reverse.take limit).reverse,
        decide (limit < (channelRows rows (fun seq => decide ((seq : WithTop ℕ) < b))).length)) := by
  have hpage := take_succ_page
    (channelRows rows (fun seq => decide ((seq : WithTop ℕ) < b))).reverse limit
  rw [length_reverse] at hpage
  simp only [messagesBefore, listMessagesBefore_eq, lt_length_take_succ, length_reverse, hpage]
  split
  · next h0 => rw [h0, take_zero, reverse_nil]
  · rfl

/-- The newer rows of a page are the first of those above the position. -/
theorem messagesAfter_eq (rows : List Message) (a limit : ℕ) : messagesAfter rows a limit =
      ((channelRows rows (fun seq => decide (a < seq))).take limit,
        decide (limit < (channelRows rows (fun seq => decide (a < seq))).length)) := by
  simp only [messagesAfter, listMessagesAfter_eq, lt_length_take_succ, take_succ_page]
  split
  · next h0 => rw [h0, take_zero]
  · rfl

/-! ## Parts of a page -/

/-- **A part of a page**: what one statement contributed to it. The rows are
those of the channel's timeline at one moment, at the positions that `sel`
selects, in order. Where rows were left out there were more, and each lies
beyond all that the part shows. -/
structure Part (log : RoomLog) (T : ℕ) (sel : ℕ → Prop) (beyond : ℕ → ℕ → Prop)
    (part : List Message) (hasMore : Bool) : Prop where
  mem_rows : ∀ m ∈ part, m ∈ log.rowsAt T ∧ inChannel m = true ∧ sel m.seq
  sorted : part.Pairwise (fun a b => a.seq < b.seq)
  complete : ∀ r ∈ log.rowsAt T, inChannel r = true → sel r.seq →
    r ∈ part ∨ (hasMore = true ∧ part ≠ [] ∧ ∀ x ∈ part, beyond r.seq x.seq)

variable {log : RoomLog} {T : ℕ}

theorem pairwise_channelRows (sel : ℕ → Bool) :
    (channelRows (log.rowsAt T) sel).Pairwise (fun a b => a.seq < b.seq) := by
  have hnodup : (channelRows (log.rowsAt T) sel).Nodup :=
    (perm_insertionSort _ _).nodup_iff.mpr ((log.nodup_rowsAt T).filter _)
  refine ((pairwise_sortBySeq _).and hnodup).imp_of_mem fun {a b} ha hb hab => ?_
  refine lt_of_le_of_ne hab.1 fun hseq => hab.2 ?_
  exact log.eq_of_mem_rowsAt (mem_channelRows.mp ha).1 (mem_channelRows.mp hb).1 hseq

/-- The older rows of a page are a part of it. -/
theorem part_messagesBefore (b : WithTop ℕ) (hlimit : 0 < limit) :
    Part log T (fun seq => (seq : WithTop ℕ) < b) (· < ·)
      (messagesBefore (log.rowsAt T) b limit).1 (messagesBefore (log.rowsAt T) b limit).2 := by
  rw [messagesBefore_eq]
  set all := channelRows (log.rowsAt T) (fun seq => decide ((seq : WithTop ℕ) < b)) with hall
  have hsorted : all.Pairwise (fun a b => a.seq < b.seq) := pairwise_channelRows _
  constructor
  · intro m hm
    have hm' : m ∈ all := mem_reverse.mp (mem_of_mem_take (mem_reverse.mp hm))
    obtain ⟨hrow, hch, hsel⟩ := mem_channelRows.mp hm'
    exact ⟨hrow, hch, of_decide_eq_true hsel⟩
  · exact pairwise_reverse.mpr ((pairwise_reverse.mpr hsorted).sublist (take_sublist _ _))
  · intro r hr hch hsel
    have hr' : r ∈ all.reverse :=
      mem_reverse.mpr (mem_channelRows.mpr ⟨hr, hch, decide_eq_true hsel⟩)
    cases mem_take_or_of_pairwise (pairwise_reverse.mpr hsorted) limit hr' with
    | inl htake => exact .inl (mem_reverse.mpr htake)
    | inr hbeyond =>
      rw [length_reverse] at hbeyond
      refine .inr ⟨decide_eq_true hbeyond.1, fun hnil => ?_, fun x hx =>
        hbeyond.2 x (mem_reverse.mp hx)⟩
      have hlen := congrArg List.length hnil
      rw [length_reverse, length_take, length_reverse, Nat.min_eq_left hbeyond.1.le] at hlen
      exact hlimit.ne' hlen

/-- The newer rows of a page are a part of it. -/
theorem part_messagesAfter (a : ℕ) (hlimit : 0 < limit) :
    Part log T (fun seq => a < seq) (fun r x => x < r)
      (messagesAfter (log.rowsAt T) a limit).1 (messagesAfter (log.rowsAt T) a limit).2 := by
  rw [messagesAfter_eq]
  set all := channelRows (log.rowsAt T) (fun seq => decide (a < seq)) with hall
  have hsorted : all.Pairwise (fun a b => a.seq < b.seq) := pairwise_channelRows _
  constructor
  · intro m hm
    obtain ⟨hrow, hch, hsel⟩ := mem_channelRows.mp (mem_of_mem_take hm)
    exact ⟨hrow, hch, of_decide_eq_true hsel⟩
  · exact hsorted.sublist (take_sublist _ _)
  · intro r hr hch hsel
    have hr' : r ∈ all := mem_channelRows.mpr ⟨hr, hch, decide_eq_true hsel⟩
    cases mem_take_or_of_pairwise hsorted limit hr' with
    | inl htake => exact .inl htake
    | inr hbeyond =>
      refine .inr ⟨decide_eq_true hbeyond.1, fun hnil => ?_, hbeyond.2⟩
      have hlen := congrArg List.length hnil
      rw [length_take, Nat.min_eq_left hbeyond.1.le] at hlen
      exact hlimit.ne' hlen

namespace Part

variable {sel : ℕ → Prop} {part : List Message} {hasMore : Bool}

/-- Reaching down to the first row shown – or to the bottom, where nothing
was left out – a part of older rows shows every row. -/
theorem mem_of_head_le (h : Part log T sel (· < ·) part hasMore) {r : Message}
    (hr : r ∈ log.rowsAt T) (hch : inChannel r = true) (hsel : sel r.seq)
    (hhead : hasMore = true → ∀ o, part.head? = some o → o.seq ≤ r.seq) : r ∈ part := by
  cases h.complete r hr hch hsel with
  | inl hmem => exact hmem
  | inr hleft =>
    obtain ⟨hmore, hne, hbeyond⟩ := hleft
    obtain ⟨o, ho⟩ := isSome_iff_exists.mp (isSome_head?.mpr hne)
    exact absurd (hbeyond o (mem_of_mem_head? ho)) (hhead hmore o ho).not_gt

/-- Reaching up to the last row shown, a part of newer rows shows every
row. -/
theorem mem_of_le_getLast (h : Part log T sel (fun r x => x < r) part hasMore) {r : Message}
    (hr : r ∈ log.rowsAt T) (hch : inChannel r = true) (hsel : sel r.seq)
    (hlast : hasMore = true → ∀ n, part.getLast? = some n → r.seq ≤ n.seq) : r ∈ part := by
  cases h.complete r hr hch hsel with
  | inl hmem => exact hmem
  | inr hleft =>
    obtain ⟨hmore, hne, hbeyond⟩ := hleft
    obtain ⟨n, hn⟩ := isSome_iff_exists.mp (getLast?_isSome.mpr hne)
    exact absurd (hbeyond n (mem_of_getLast? hn)) (hlast hmore n hn).not_gt

end Part

/-! ## What a page shows -/

theorem messageLimit_pos (limit : ℤ) : 0 < messageLimit limit := by
  unfold messageLimit
  split
  · exact Nat.succ_pos _
  · split
    · exact Nat.succ_pos _
    · omega

namespace RoomLog

variable (log) (reads : Reads)

theorem listMessages_after (seq : ℕ) (limit : ℤ) : log.listMessages reads (.after seq) limit =
      ⟨(messagesAfter (log.rowsAt reads.first) seq (messageLimit limit)).1,
        (messagesAfter (log.rowsAt reads.first) seq (messageLimit limit)).2,
        false, none, reads.room⟩ := by
  rw [messagesAfter_eq]
  simp only [listMessages, listMessagesAfter_eq, lt_length_take_succ, take_succ_page]

/-- Dropping the first of the rows put in order is taking one row less of
those read. -/
theorem drop_one_reverse_take {l : List Message} {limit : ℕ} :
    (if decide (limit < l.length) = true then (l.take (limit + 1)).reverse.drop 1
      else (l.take (limit + 1)).reverse) = (l.take limit).reverse := by
  rw [← take_succ_page l limit]
  split
  · next h =>
    rw [drop_reverse, length_take,
      Nat.min_eq_left (show limit + 1 ≤ l.length from of_decide_eq_true h), Nat.add_sub_cancel]
  · rfl

theorem listMessages_before (seq : ℕ) (limit : ℤ) : log.listMessages reads (.before seq) limit =
      ⟨(messagesBefore (log.rowsAt reads.first) seq (messageLimit limit)).1,
        (messagesBefore (log.rowsAt reads.first) seq (messageLimit limit)).2,
        false, none, reads.room⟩ := by
  rw [messagesBefore_eq, ← length_reverse, ← drop_one_reverse_take]
  simp only [listMessages, listMessagesBefore_eq, length_reverse, lt_length_take_succ]

theorem listMessages_latest (limit : ℤ) : log.listMessages reads .latest limit =
      ⟨(messagesBefore (log.rowsAt reads.first) ⊤ (messageLimit limit)).1,
        (messagesBefore (log.rowsAt reads.first) ⊤ (messageLimit limit)).2,
        false, none, reads.room⟩ := by
  rw [messagesBefore_eq, ← length_reverse, ← drop_one_reverse_take]
  simp only [listMessages, listMessagesBefore_eq, length_reverse, lt_length_take_succ]

/-- The moment whose rows a page shows at a position. A page of newer
messages shows nothing at the positions below its start. -/
def shownAt : MessageCursor → ℕ → ℕ
  | .after seq, position => if seq < position then reads.first else 0
  | .around messageId, position =>
    match log.aroundTarget reads messageId with
    | none => reads.second
    | some target =>
      if position < target.seq then reads.second
      else if target.seq < position then reads.third
      else reads.first
  | _, _ => reads.first

end RoomLog

/-- The positions that a page of the timeline answers for: from its first
message, where there are older ones, to its last, where there are newer ones,
and on the side of the position it was asked for. -/
def MessagePage.covers (page : MessagePage) : MessageCursor → ℕ → Prop
  | .latest, position => Window.admits ⟨page.hasMore, false⟩ page.messages position = true
  | .before seq, position =>
    position < seq ∧ Window.admits ⟨page.hasMore, false⟩ page.messages position = true
  | .after seq, position =>
    seq < position ∧ Window.admits ⟨false, page.hasMore⟩ page.messages position = true
  | .around _, position =>
    Window.admits ⟨page.hasMore, page.hasMoreAfter⟩ page.messages position = true
  | .afterChange _, _ => False

namespace RoomLog

variable (log) (reads : Reads)
  {messageId : Ulid} {m target : Message} {limit : ℤ} {cursor : MessageCursor} {k start : ℕ}
    {p : Place}

section

variable (h : log.aroundTarget reads messageId = some target)
include h

theorem mem_of_aroundTarget : target ∈ log.rowsAt reads.first := by
  obtain ⟨hview, -⟩ := filter_eq_some_iff.mp h
  exact mem_of_find?_eq_some hview

/-- The three parts of a page around a message. -/
theorem messagesAround_some {limit : ℕ} (hlimit : 3 ≤ limit) : ∃ older newer hasMore hasMoreAfter,
      log.messagesAround reads messageId limit = ⟨older ++ target :: newer, hasMore, hasMoreAfter,
        some ⟨target.seq, target.threadRootId⟩, reads.room⟩ ∧
      Part log reads.second (fun seq => (seq : WithTop ℕ) < target.seq) (· < ·) older hasMore ∧
      Part log reads.third (fun seq => target.seq < seq) (fun r x => x < r) newer hasMoreAfter := by
  have holder : 0 < min (limit / 2) (limit - 1) := lt_min (by omega) (by omega)
  have hlen : (messagesBefore (log.rowsAt reads.second) target.seq
      (min (limit / 2) (limit - 1))).1.length ≤ limit / 2 := by
    rw [messagesBefore_eq, length_reverse]
    exact (length_take_le _ _).trans (min_le_left _ _)
  refine ⟨_, _, _, _, by rw [messagesAround, h], part_messagesBefore _ holder,
    part_messagesAfter _ ?_⟩
  omega

end

variable (hlimit : 3 ≤ messageLimit limit)
include hlimit

variable (hcursor : ∀ n, cursor ≠ .afterChange n)
include hcursor

/-- **Each row on a page is the row of the table at its moment.** -/
theorem mem_listMessages (hm : m ∈ (log.listMessages reads cursor limit).messages) :
    m ∈ log.rowsAt (log.shownAt reads cursor m.seq) := by
  cases cursor with
  | latest =>
    rw [listMessages_latest] at hm
    exact ((part_messagesBefore ⊤ (messageLimit_pos limit)).mem_rows m hm).1
  | before seq =>
    rw [listMessages_before] at hm
    exact ((part_messagesBefore seq (messageLimit_pos limit)).mem_rows m hm).1
  | after seq =>
    rw [listMessages_after] at hm
    obtain ⟨hrow, -, hsel⟩ := (part_messagesAfter seq (messageLimit_pos limit)).mem_rows m hm
    simpa only [shownAt, if_pos hsel] using hrow
  | afterChange n => exact absurd rfl (hcursor n)
  | around messageId =>
    change m ∈ (log.messagesAround reads messageId (messageLimit limit)).messages at hm
    cases htarget : log.aroundTarget reads messageId with
    | none =>
      rw [messagesAround, htarget] at hm
      simp only [shownAt, htarget]
      exact ((part_messagesBefore ⊤ (messageLimit_pos limit)).mem_rows m hm).1
    | some =>
      obtain ⟨older, newer, _, _, heq, hold, hnew⟩ :=
        log.messagesAround_some reads htarget hlimit
      rw [heq] at hm
      simp only [shownAt, htarget]
      rcases mem_append.mp hm with ho | ho
      · obtain ⟨hrow, -, hsel⟩ := hold.mem_rows m ho
        rwa [if_pos (by exact_mod_cast hsel)]
      · cases mem_cons.mp ho with
        | inl heq =>
          rw [heq, if_neg (lt_irrefl _), if_neg (lt_irrefl _)]
          exact log.mem_of_aroundTarget reads htarget
        | inr hn =>
          obtain ⟨hrow, -, hsel⟩ := hnew.mem_rows m hn
          rwa [if_neg hsel.not_gt, if_pos hsel]

/-- A page of the timeline is in order. -/
theorem pairwise_listMessages :
    (log.listMessages reads cursor limit).messages.Pairwise (fun a b => a.seq < b.seq) := by
  cases cursor with
  | latest =>
    rw [listMessages_latest]
    exact (part_messagesBefore ⊤ (messageLimit_pos limit)).sorted
  | before seq =>
    rw [listMessages_before]
    exact (part_messagesBefore seq (messageLimit_pos limit)).sorted
  | after seq =>
    rw [listMessages_after]
    exact (part_messagesAfter seq (messageLimit_pos limit)).sorted
  | afterChange n => exact absurd rfl (hcursor n)
  | around messageId =>
    change (log.messagesAround reads messageId (messageLimit limit)).messages.Pairwise _
    cases htarget : log.aroundTarget reads messageId with
    | none =>
      rw [messagesAround, htarget]
      exact (part_messagesBefore ⊤ (messageLimit_pos limit)).sorted
    | some target =>
      obtain ⟨older, newer, _, _, heq, hold, hnew⟩ := log.messagesAround_some reads htarget hlimit
      rw [heq]
      have holder : ∀ o ∈ older, o.seq < target.seq := fun o ho => by
        exact_mod_cast (hold.mem_rows o ho).2.2
      have hnewer : ∀ n ∈ newer, target.seq < n.seq := fun n hn => (hnew.mem_rows n hn).2.2
      refine pairwise_append.mpr
        ⟨hold.sorted, pairwise_cons.mpr ⟨hnewer, hnew.sorted⟩, fun o ho n hn => ?_⟩
      cases mem_cons.mp hn with
      | inl heq => exact heq ▸ holder o ho
      | inr hn' => exact (holder o ho).trans (hnewer n hn')

theorem tidy_listMessages : Tidy (log.listMessages reads cursor limit).messages where
  distinct := by
    refine pairwise_map.mpr ?_
    refine (log.pairwise_listMessages reads hlimit hcursor).imp_of_mem fun {a b} ha hb hlt hid => ?_
    have hac := (log.mem_rowsAt.mp (log.mem_listMessages reads hlimit hcursor ha)).1
    have hbc := (log.mem_rowsAt.mp (log.mem_listMessages reads hlimit hcursor hb)).1
    exact hlt.ne (congrArg Place.seq (log.wellFormed.place_eq hac hbc hid))
  sorted := (log.pairwise_listMessages reads hlimit hcursor).imp le_of_lt

omit hcursor

omit hlimit

/-- The rows around a message, at the positions the page answers for. -/
theorem mem_messagesAround {r : Message} {limit : ℕ}
    (htarget : log.aroundTarget reads messageId = some target) (hlimit : 3 ≤ limit)
    (hr : r ∈ log.rowsAt (log.shownAt reads (.around messageId) r.seq))
    (hch : inChannel r = true)
    (hcov : (log.messagesAround reads messageId limit).covers (.around messageId) r.seq) :
    r ∈ (log.messagesAround reads messageId limit).messages := by
  obtain ⟨older, newer, hasMore, hasMoreAfter, heq, hold, hnew⟩ :=
    log.messagesAround_some reads htarget hlimit
  rw [heq] at hcov ⊢
  obtain ⟨hlow, hhigh⟩ := admits_iff.mp hcov
  simp only [shownAt, htarget] at hr
  rcases Nat.lt_trichotomy r.seq target.seq with hlt | hseq | hgt
  · rw [if_pos hlt] at hr
    refine mem_append_left _
      (hold.mem_of_head_le hr hch (by exact_mod_cast hlt) fun hmore o ho => ?_)
    -- the first row of the older part is the first of the page
    exact hlow hmore o (by rw [head?_append, ho, some_or])
  · rw [if_neg hseq.not_lt, if_neg hseq.not_gt] at hr
    rw [log.eq_of_mem_rowsAt hr (log.mem_of_aroundTarget reads htarget) hseq]
    exact mem_append_right _ (.head _)
  · rw [if_neg hgt.not_gt, if_pos hgt] at hr
    refine mem_append_right _ (mem_cons_of_mem _
      (hnew.mem_of_le_getLast hr hch hgt fun hmore n hn => ?_))
    refine hhigh hmore n ?_
    rw [getLast?_append, getLast?_cons, hn, getD_some, some_or]

include hlimit

/-- **A page is complete where it answers**: a change that had committed when
the row at its position was read is on the page, or a later one of the same
message is. -/
theorem exists_mem_listMessages (ht : log.touch k p) (hch : p.inChannel = true)
    (hcov : (log.listMessages reads cursor limit).covers cursor p.seq)
    (hk : k ≤ log.shownAt reads cursor p.seq) :
    ∃ m ∈ (log.listMessages reads cursor limit).messages, m.place = p ∧ k ≤ m.changeSeq := by
  obtain ⟨r, hr, hp, hkr⟩ := log.exists_mem_rowsAt ht hk
  have hrch : inChannel r = true := by rw [← Message.place_inChannel, hp, hch]
  obtain rfl : r.place = p := hp
  rw [Message.place_seq] at hcov hr
  refine ⟨r, ?_, rfl, hkr⟩
  cases cursor with
  | latest =>
    rw [listMessages_latest] at hcov ⊢
    exact (part_messagesBefore ⊤ (messageLimit_pos limit)).mem_of_head_le hr hrch
      (WithTop.coe_lt_top _) (admits_iff.mp hcov).1
  | before seq =>
    rw [listMessages_before] at hcov ⊢
    exact (part_messagesBefore seq (messageLimit_pos limit)).mem_of_head_le hr hrch
      (by exact_mod_cast hcov.1) (admits_iff.mp hcov.2).1
  | after seq =>
    rw [listMessages_after] at hcov ⊢
    rw [shownAt, if_pos hcov.1] at hr
    exact (part_messagesAfter seq (messageLimit_pos limit)).mem_of_le_getLast hr hrch
      hcov.1 (admits_iff.mp hcov.2).2
  | afterChange => exact hcov.elim
  | around messageId =>
    cases htarget : log.aroundTarget reads messageId with
    | none =>
      have hpage : log.listMessages reads (.around messageId) limit =
          ⟨(messagesBefore (log.rowsAt reads.second) ⊤ (messageLimit limit)).1,
            (messagesBefore (log.rowsAt reads.second) ⊤ (messageLimit limit)).2,
            false, none, reads.room⟩ := by
        show log.messagesAround reads messageId (messageLimit limit) = _
        rw [messagesAround, htarget]
      rw [hpage] at hcov ⊢
      simp only [shownAt, htarget] at hr
      exact (part_messagesBefore ⊤ (messageLimit_pos limit)).mem_of_head_le hr hrch
        (WithTop.coe_lt_top _) (admits_iff.mp hcov).1
    | some => exact log.mem_messagesAround reads htarget hlimit hr hrch hcov

omit hlimit

/-- **A page of changes without more after it is complete**: each change past
its start that had committed by then is on it, or a later one of the same
message is. -/
theorem exists_mem_listMessages_afterChange
    (ht : log.touch k p) (hstart : start < k) (hk : k ≤ reads.first)
    (hmore : (log.listMessages reads (.afterChange start) limit).hasMore = false) :
    ∃ m ∈ (log.listMessages reads (.afterChange start) limit).messages,
      m.place = p ∧ k ≤ m.changeSeq := by
  obtain ⟨r, hr, hp, hkr⟩ := log.exists_mem_rowsAt ht hk
  refine ⟨r, ?_, hp, hkr⟩
  simp only [listMessages, listMessagesChangedAfter, lt_length_take_succ, decide_eq_false_iff_not,
    not_lt] at hmore
  simp only [listMessages, listMessagesChangedAfter, lt_length_take_succ, take_succ_page]
  rw [take_of_length_le hmore]
  exact (mem_insertionSort _).mpr (mem_filter.mpr ⟨hr, decide_eq_true (hstart.trans_le hkr)⟩)

theorem mem_listMessages_afterChange
    (hm : m ∈ (log.listMessages reads (.afterChange start) limit).messages) :
    m ∈ log.rowsAt reads.first := by
  simp only [listMessages, listMessagesChangedAfter, lt_length_take_succ, take_succ_page] at hm
  exact mem_of_mem_filter ((mem_insertionSort _).mp (mem_of_mem_take hm))

/-- A page carries the number that the room's row had. -/
@[simp] theorem lastChangeSeq_listMessages (cursor : MessageCursor) (limit : ℤ) :
    (log.listMessages reads cursor limit).lastChangeSeq = reads.room := by
  cases cursor with
  | around messageId =>
    show (log.messagesAround reads messageId (messageLimit limit)).lastChangeSeq = _
    unfold messagesAround
    split <;> rfl
  | _ => rfl

end RoomLog

variable {messages xs ys : List Message} {m : Message}

/-! ## Answers

The row decides the version of a message on a page. What is loaded after the
rows – attachments, reactions, whether the viewer saved it – may be newer
than the row, so an answer is any page with the versions of the rows. -/

/-- Version `v` of the message at `p` is among the messages. -/
def held (messages : List Message) (p : Place) (v : ℕ) : Prop :=
  ⟨p, v⟩ ∈ messages.map Message.stamp

/-- The messages are versions that the room's changes made. -/
def Genuine (log : RoomLog) (messages : List Message) : Prop :=
  ∀ p v, held messages p v → log.touch v p

/-- The answer to a request: the page that was read, its messages as they
were loaded. -/
def RoomLog.answer (log : RoomLog) (reads : Reads) (cursor : MessageCursor) (limit : ℤ)
    (messages : List Message) : Option MessagePage :=
  let page := log.listMessages reads cursor limit
  if messages.map Message.stamp = page.messages.map Message.stamp then
    some { page with messages := messages }
  else none

theorem held_of_mem (hm : m ∈ messages) : held messages m.place m.changeSeq :=
  List.mem_map_of_mem hm

theorem exists_of_held {p : Place} {v : ℕ} (h : held messages p v) :
    ∃ m ∈ messages, m.place = p ∧ m.changeSeq = v := by
  obtain ⟨m, hm, hstamp⟩ := List.mem_map.mp h
  exact ⟨m, hm, congrArg Stamp.place hstamp, congrArg Stamp.changeSeq hstamp⟩

theorem RoomLog.touch_of_mem (hm : m ∈ log.changes) :
    log.touch m.changeSeq m.place := held_of_mem hm

section

variable (h : xs.map Message.stamp = ys.map Message.stamp)
include h

/-- Whether a list of messages is tidy depends on their versions. -/
theorem Tidy.congr (hys : Tidy ys) : Tidy xs where
  distinct := by
    have hid : xs.map Message.id = ys.map Message.id := by
      have hmap := congrArg (List.map (fun st : Stamp => st.place.id)) h
      rwa [List.map_map, List.map_map] at hmap
    show (xs.map Message.id).Nodup
    rw [hid]
    exact hys.distinct
  sorted := by
    have hseq := (pairwise_map (f := Message.stamp)
      (R := fun a b : Stamp => a.place.seq ≤ b.place.seq)).mpr hys.sorted
    rw [← h] at hseq
    exact (pairwise_map (f := Message.stamp)
      (R := fun a b : Stamp => a.place.seq ≤ b.place.seq)).mp hseq

/-- What the window admits depends on the versions at its edges. -/
theorem Window.admits_congr {window : Window} {seq : ℕ} :
    window.admits xs seq = window.admits ys seq := by
  have hhead : xs.head?.map Message.stamp = ys.head?.map Message.stamp := by
    rw [← head?_map, h, head?_map]
  have hlast : xs.getLast?.map Message.stamp = ys.getLast?.map Message.stamp := by
    rw [← getLast?_map, h, getLast?_map]
  have hall : ∀ (o o' : Option Message) (f : ℕ → Bool), o.map Message.stamp = o'.map Message.stamp →
      o.all (fun m => f m.seq) = o'.all (fun m => f m.seq) := by
    intro o o' f ho
    cases o with
    | none => cases o' with
      | none => rfl
      | some => simp at ho
    | some x => cases o' with
      | none => simp at ho
      | some y =>
        have hst : x.stamp = y.stamp := some.inj ho
        show f x.stamp.place.seq = f y.stamp.place.seq
        rw [hst]
  unfold Window.admits
  rw [hall _ _ (fun s => decide (s ≤ seq)) hhead, hall _ _ (fun s => decide (seq ≤ s)) hlast]

end

section Answers

variable {reads : Reads} {cursor : MessageCursor} {limit : ℤ} {messages : List Message}
  {page : MessagePage} {p : Place} {k seq start v : ℕ} {m : Message}

section

variable (h : log.answer reads cursor limit messages = some page)
include h

theorem RoomLog.answer_eq_some : page.messages.map Message.stamp
        = (log.listMessages reads cursor limit).messages.map Message.stamp ∧
      page = { log.listMessages reads cursor limit with messages := page.messages } := by
  unfold RoomLog.answer at h
  simp only at h
  split at h
  · next hstamp =>
    cases h
    exact ⟨hstamp, rfl⟩
  · cases h

theorem RoomLog.lastChangeSeq_answer : page.lastChangeSeq = reads.room := by
  rw [(answer_eq_some h).2]
  exact log.lastChangeSeq_listMessages reads cursor limit

/-- An answer answers for the positions that the page read answers for. -/
theorem RoomLog.covers_answer {pos : ℕ} :
    page.covers cursor pos ↔ (log.listMessages reads cursor limit).covers cursor pos := by
  obtain ⟨hstamp, heq⟩ := answer_eq_some h
  rw [heq]
  cases cursor with
  | afterChange => rfl
  | _ => rw [MessagePage.covers, MessagePage.covers, admits_congr hstamp]

variable (hlimit : 3 ≤ messageLimit limit)
include hlimit

theorem RoomLog.tidy_answer (hcursor : ∀ n, cursor ≠ .afterChange n) : Tidy page.messages :=
  (log.tidy_listMessages reads hlimit hcursor).congr (answer_eq_some h).1

/-- **What an answer holds was committed when its rows were read.** -/
theorem RoomLog.le_shownAt_of_held (hcursor : ∀ n, cursor ≠ .afterChange n) (hp : held page.messages p v) :
    log.touch v p ∧ v ≤ log.shownAt reads cursor p.seq := by
  unfold held at hp
  rw [(answer_eq_some h).1] at hp
  obtain ⟨m, hm, rfl, rfl⟩ := exists_of_held hp
  obtain ⟨hmc, hle, -⟩ := log.mem_rowsAt.mp (log.mem_listMessages reads hlimit hcursor hm)
  exact ⟨log.touch_of_mem hmc, hle⟩

/-- **An answer is complete where it answers.** -/
theorem RoomLog.exists_held_answer (ht : log.touch k p)
    (hch : p.inChannel = true) (hcov : page.covers cursor p.seq)
    (hk : k ≤ log.shownAt reads cursor p.seq) : ∃ v, k ≤ v ∧ held page.messages p v := by
  obtain ⟨m, hm, rfl, hkm⟩ :=
    log.exists_mem_listMessages reads hlimit ht hch ((covers_answer h).mp hcov) hk
  refine ⟨m.changeSeq, hkm, ?_⟩
  unfold held
  rw [(answer_eq_some h).1]
  exact held_of_mem hm

end

/-- A page of older messages lies below the position it was asked for. -/
theorem RoomLog.lt_of_mem_before (h : log.answer reads (.before seq) limit messages = some page)
    (hm : m ∈ page.messages) : m.seq < seq := by
  have hv : held page.messages m.place m.changeSeq := held_of_mem hm
  unfold held at hv
  rw [(answer_eq_some h).1, listMessages_before] at hv
  obtain ⟨r, hr, hp, -⟩ := exists_of_held hv
  have hsel := ((part_messagesBefore seq (messageLimit_pos limit)).mem_rows r hr).2.2
  rw [show m.seq = r.seq from (congrArg Place.seq hp).symm]
  exact_mod_cast hsel

/-- A page of newer messages lies above the position it was asked for. -/
theorem RoomLog.lt_of_mem_after (h : log.answer reads (.after seq) limit messages = some page)
    (hm : m ∈ page.messages) : seq < m.seq := by
  have hv : held page.messages m.place m.changeSeq := held_of_mem hm
  unfold held at hv
  rw [(answer_eq_some h).1, listMessages_after] at hv
  obtain ⟨r, hr, hp, -⟩ := exists_of_held hv
  rw [show m.seq = r.seq from (congrArg Place.seq hp).symm]
  exact ((part_messagesAfter seq (messageLimit_pos limit)).mem_rows r hr).2.2

/-- A page of older messages that has more before it is not empty. -/
theorem RoomLog.ne_nil_of_hasMore_before
    (h : log.answer reads (.before seq) limit messages = some page) (hmore : page.hasMore = true) :
    page.messages ≠ [] := by
  obtain ⟨hstamp, heq⟩ := answer_eq_some h
  rw [heq, listMessages_before, messagesBefore_eq] at hmore
  rw [listMessages_before, messagesBefore_eq] at hstamp
  have hlen := congrArg List.length hstamp
  rw [length_map, length_map, length_reverse, length_take, length_reverse,
    Nat.min_eq_left (of_decide_eq_true hmore).le] at hlen
  exact ne_nil_of_length_pos (hlen ▸ messageLimit_pos limit)

/-- A page of newer messages that has more after it is not empty. -/
theorem RoomLog.ne_nil_of_hasMore_after
    (h : log.answer reads (.after seq) limit messages = some page) (hmore : page.hasMore = true) :
    page.messages ≠ [] := by
  obtain ⟨hstamp, heq⟩ := answer_eq_some h
  rw [heq, listMessages_after, messagesAfter_eq] at hmore
  rw [listMessages_after, messagesAfter_eq] at hstamp
  have hlen := congrArg List.length hstamp
  rw [length_map, length_map, length_take, Nat.min_eq_left (of_decide_eq_true hmore).le] at hlen
  exact ne_nil_of_length_pos (hlen ▸ messageLimit_pos limit)

section

variable (h : log.answer reads (.afterChange start) limit messages = some page)
include h

theorem RoomLog.touch_of_held_afterChange (hp : held page.messages p v) : log.touch v p := by
  unfold held at hp
  rw [(answer_eq_some h).1] at hp
  obtain ⟨m, hm, rfl, rfl⟩ := exists_of_held hp
  exact log.touch_of_mem (log.mem_rowsAt.mp (log.mem_listMessages_afterChange reads hm)).1

/-- The last page of changes holds every change past its start. -/
theorem RoomLog.exists_held_afterChange
    (hmore : page.hasMore = false) (ht : log.touch k p) (hstart : start < k)
    (hk : k ≤ reads.first) : ∃ v, k ≤ v ∧ held page.messages p v := by
  obtain ⟨hstamp, heq⟩ := answer_eq_some h
  rw [heq] at hmore
  obtain ⟨m, hm, rfl, hkm⟩ := log.exists_mem_listMessages_afterChange reads ht hstart hk hmore
  refine ⟨m.changeSeq, hkm, ?_⟩
  unfold held
  rw [hstamp]
  exact held_of_mem hm

end

end Answers

end Hibari
