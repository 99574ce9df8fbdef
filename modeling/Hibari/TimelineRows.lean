import Hibari.Outbox

/-!
# The rows of a timeline

`toTimelineItems` turns the messages of a room or a thread, and the user's own that are not
confirmed yet, into the rows of the screen: a separator where the day changes, one before the first
unread message, and messages of one sender in a group.

What the loop makes is the arrangement that is read off the entries one by one
(`timeline_faithful`). **The keys are distinct exactly when no day comes back after another**: the
key of a separator is its day, and the clocks of servers and of the client differ.
-/

namespace Hibari

open List

/-- A message with the number of replies of its thread, and whether it shows a huddle. -/
structure TimelineMessage extends Message where
  replyCount : ℕ
  huddle : Bool

structure TimelineOptions where
  unreadAfterSeq : Option ℕ
  outgoing : List OutgoingMessage
  me : Option UserProfile
  threadRootId : Option Ulid
  broadcastDoneLabel : Option String

/-- How a reply that was sent to the channel as well looks in either place. -/
inductive Broadcast
  | channel
  | thread (label : String)
  deriving DecidableEq

/-- A message of either sort, with what decides about its row. -/
structure TimelineEntry where
  key : Ulid
  seq : Option ℕ
  system : Bool
  sender : UserProfile
  createdAt : ℤ
  broadcast : Option Broadcast
  huddle : Bool
  deriving DecidableEq

inductive TimelineItem
  | date (day : String)
  | unread
  | huddle (entry : TimelineEntry)
  | system (entry : TimelineEntry)
  | message (entry : TimelineEntry) (grouped : Bool)
  deriving DecidableEq

/-- The key of a row: `date-` with the day, `unread`, or the id. -/
inductive TimelineKey
  | date (day : String)
  | unread
  | row (id : Ulid)
  deriving DecidableEq

namespace TimelineItem

def key : TimelineItem → TimelineKey
  | date day => .date day
  | unread => .unread
  | huddle entry | system entry | message entry _ => .row entry.key

def day? : TimelineItem → Option String
  | date day => some day
  | _ => none

def heldEntry : TimelineItem → Option TimelineEntry
  | huddle entry | system entry | message entry _ => some entry
  | _ => none

end TimelineItem

def broadcastView (isBroadcastReply inThread : Bool) (doneLabel : Option String) :
    Option Broadcast :=
  if !isBroadcastReply then none else if !inThread then some .channel else doneLabel.map .thread

section Timeline

variable {s : TimelineLoop} {e : TimelineEntry}

-- the day of a moment in the time zone of the screen, and the moment that a text names
variable (dayKey : ℤ → String) (parse : DateTime → ℤ)

def fromMessage (m : TimelineMessage) (broadcast : Option Broadcast) : TimelineEntry :=
  ⟨m.id, some m.seq, m.kind = .system, m.sender, parse m.createdAt, broadcast,
    m.system.any (·.type = .huddle) && m.huddle⟩

def fromOutgoing (m : OutgoingMessage) (me : UserProfile) (broadcast : Option Broadcast) :
    TimelineEntry :=
  ⟨m.clientMsgId, none, false, me, parse m.createdAt, broadcast, false⟩

/-- What is shown of the messages, and of the user's own that are not confirmed. -/
def timelineEntries (messages : List TimelineMessage) (o : TimelineOptions) : List TimelineEntry :=
  let inThread := o.threadRootId.isSome
  let shown := messages.filter fun m => (inThread || inChannel m.toMessage) &&
    (m.deletedAt.isNone || some m.id = o.threadRootId || 0 < m.replyCount)
  let mine := o.outgoing.filter fun m =>
    if inThread then m.threadRootId = o.threadRootId else m.threadRootId.isNone || m.alsoInChannel
  shown.map (fun m => fromMessage parse m
    (broadcastView (m.threadRootId.isSome && m.alsoInChannel) inThread o.broadcastDoneLabel)) ++
  match o.me with
  | none => []
  | some me => mine.map fun m => fromOutgoing parse m me
    (broadcastView (m.threadRootId.isSome && m.alsoInChannel) inThread o.broadcastDoneLabel)

/-- `GROUPING_WINDOW_MS`. -/
def groupingWindow : ℤ := 5 * 60 * 1000

/-- A confirmed message of a person after the position that was read. -/
def unreadEntry (unreadAfterSeq : Option ℕ) (e : TimelineEntry) : Bool :=
  !e.system && e.seq.any fun seq => unreadAfterSeq.any (· < seq)

/-- What the loop carries from entry to entry. -/
structure TimelineLoop where
  previous : Option TimelineEntry
  previousDay : Option String
  unreadInserted : Bool

/-- One turn of the loop: the items it adds, and what it carries on. -/
def pushEntry (unreadAfterSeq : Option ℕ) (s : TimelineLoop) (e : TimelineEntry) :
    List TimelineItem × TimelineLoop :=
  let day := dayKey e.createdAt
  let dated := decide (some day ≠ s.previousDay)
  let unread := !s.unreadInserted && unreadEntry unreadAfterSeq e
  let breakGroup := dated || unread || e.broadcast = some .channel
  let separators := (if dated then [.date day] else []) ++ if unread then [.unread] else []
  let carry (previous : Option TimelineEntry) : TimelineLoop :=
    ⟨previous, some day, s.unreadInserted || unread⟩
  if e.huddle then (separators ++ [.huddle e], carry none)
  else if e.system then (separators ++ [.system e], carry none)
  else
    let grouped := !breakGroup && s.previous.any fun p =>
      p.sender.id = e.sender.id && e.createdAt - p.createdAt < groupingWindow
    (separators ++ [.message e grouped],
      carry (if e.broadcast = some .channel then none else some e))

def timelineRows (unreadAfterSeq : Option ℕ) (s : TimelineLoop) :
    List TimelineEntry → List TimelineItem
  | [] => []
  | e :: entries =>
    let (items, s) := pushEntry dayKey unreadAfterSeq s e
    items ++ timelineRows unreadAfterSeq s entries

def toTimelineItems (messages : List TimelineMessage) (o : TimelineOptions) : List TimelineItem :=
  timelineRows dayKey o.unreadAfterSeq ⟨none, none, o.unreadAfterSeq.isNone⟩
    (timelineEntries parse messages o)

/-! ## The arrangement of entries -/

/-- A separator where the entry is not of the day of the one before it. -/
def daySeparator (before : List TimelineEntry) (e : TimelineEntry) : List TimelineItem :=
  if some (dayKey e.createdAt) ≠ before.getLast?.map (dayKey ·.createdAt) then
    [.date (dayKey e.createdAt)]
  else []

/-- A separator before the first unread message. -/
def unreadSeparator (unreadAfterSeq : Option ℕ) (before : List TimelineEntry) (e : TimelineEntry) :
    List TimelineItem :=
  if unreadEntry unreadAfterSeq e && !before.any (unreadEntry unreadAfterSeq) then [.unread] else []

/-- A row of a message that may be followed by one of its group. -/
def plain (e : TimelineEntry) : Bool := !e.huddle && !e.system && e.broadcast ≠ some .channel

/-- A message is grouped with the one right before it: of the same sender and day, less than the
window earlier, neither of them sent to the channel from a thread. -/
def grouped (unreadAfterSeq : Option ℕ) (before : List TimelineEntry) (e : TimelineEntry) : Bool :=
  (unreadSeparator unreadAfterSeq before e).isEmpty && e.broadcast ≠ some .channel &&
    before.getLast?.any fun p => plain p && p.sender.id = e.sender.id &&
      dayKey p.createdAt = dayKey e.createdAt && e.createdAt - p.createdAt < groupingWindow

def rowOf (unreadAfterSeq : Option ℕ) (before : List TimelineEntry) (e : TimelineEntry) :
    TimelineItem :=
  if e.huddle then .huddle e else if e.system then .system e
  else .message e (grouped dayKey unreadAfterSeq before e)

/-- **The timeline as it should be**: each entry, after those before it, is one row with its
separators. -/
def arrange (unreadAfterSeq : Option ℕ) (before : List TimelineEntry) :
    List TimelineEntry → List TimelineItem
  | [] => []
  | e :: entries => daySeparator dayKey before e ++ unreadSeparator unreadAfterSeq before e ++
    [rowOf dayKey unreadAfterSeq before e] ++ arrange unreadAfterSeq (before ++ [e]) entries

variable {dayKey parse} {unreadAfterSeq : Option ℕ} {before entries : List TimelineEntry}
  {items : List TimelineItem}

/-- One turn of the loop adds the row of the entry and its separators. -/
theorem pushEntry_eq
    (hprevious : s.previous = before.getLast?.filter plain)
    (hday : s.previousDay = before.getLast?.map (dayKey ·.createdAt))
    (hunread : s.unreadInserted =
      (unreadAfterSeq.isNone || before.any (unreadEntry unreadAfterSeq))) :
    pushEntry dayKey unreadAfterSeq s e =
      (daySeparator dayKey before e ++ unreadSeparator unreadAfterSeq before e ++
        [rowOf dayKey unreadAfterSeq before e],
        ⟨(some e).filter plain, some (dayKey e.createdAt),
          s.unreadInserted || unreadEntry unreadAfterSeq e⟩) := by
  have hdue : (!s.unreadInserted && unreadEntry unreadAfterSeq e) =
      (unreadEntry unreadAfterSeq e && !before.any (unreadEntry unreadAfterSeq)) := by
    rw [hunread]
    cases unreadAfterSeq with
    | none => simp [unreadEntry]
    | some u => exact Bool.and_comm ..
  have hinserted : (s.unreadInserted || !s.unreadInserted && unreadEntry unreadAfterSeq e) =
      (s.unreadInserted || unreadEntry unreadAfterSeq e) := by
    cases s.unreadInserted <;> rfl
  have hseparators : ((if decide (some (dayKey e.createdAt) ≠ s.previousDay) then
      [TimelineItem.date (dayKey e.createdAt)] else []) ++
        if !s.unreadInserted && unreadEntry unreadAfterSeq e then [.unread] else []) =
      daySeparator dayKey before e ++ unreadSeparator unreadAfterSeq before e := by
    simp only [hday, hdue, decide_eq_true_eq]
    rfl
  -- the day, the unread separator and the two rows decide about the group
  have hgrouped : (!(decide (some (dayKey e.createdAt) ≠ s.previousDay) ||
      !s.unreadInserted && unreadEntry unreadAfterSeq e || decide (e.broadcast = some .channel)) &&
        s.previous.any fun p =>
          p.sender.id = e.sender.id && e.createdAt - p.createdAt < groupingWindow) =
      grouped dayKey unreadAfterSeq before e := by
    rw [hdue, hday, hprevious, grouped, unreadSeparator]
    cases before.getLast? with
    | none => simp
    | some p =>
      by_cases hplain : plain p
      · by_cases hday : dayKey p.createdAt = dayKey e.createdAt
        · cases unreadEntry unreadAfterSeq e && !before.any (unreadEntry unreadAfterSeq) <;>
            simp [Option.filter, hplain, hday, Bool.and_assoc]
        · simp [hday, Ne.symm hday]
      · simp [Option.filter, hplain]
  unfold pushEntry rowOf
  dsimp only
  rw [hinserted, hseparators, hgrouped]
  cases hhuddle : e.huddle
  · cases hsystem : e.system
    · by_cases hchannel : e.broadcast = some .channel <;>
        simp [Option.filter, plain, hhuddle, hsystem, hchannel]
    · simp [Option.filter, plain, hhuddle, hsystem]
  · simp [Option.filter, plain, hhuddle]

/-- The loop carries what the arrangement reads off the entries before. -/
theorem timelineRows_eq (hprevious : s.previous = before.getLast?.filter plain)
    (hday : s.previousDay = before.getLast?.map (dayKey ·.createdAt))
    (hunread : s.unreadInserted =
      (unreadAfterSeq.isNone || before.any (unreadEntry unreadAfterSeq))) :
    timelineRows dayKey unreadAfterSeq s entries =
      arrange dayKey unreadAfterSeq before entries := by
  induction entries generalizing s before with
  | nil => rfl
  | cons e entries ih =>
    unfold timelineRows arrange
    rw [pushEntry_eq hprevious hday hunread]
    refine congrArg _ (ih ?_ ?_ ?_)
    · rw [getLast?_concat]
    · rw [getLast?_concat]
      rfl
    · dsimp only
      rw [hunread, any_append, any_cons, any_nil, Bool.or_false, Bool.or_assoc]

/-- Each entry has one row, in order. -/
theorem entries_arrange :
    (arrange dayKey unreadAfterSeq before entries).filterMap TimelineItem.heldEntry = entries := by
  induction entries generalizing before with
  | nil => rfl
  | cons e entries ih =>
    have hrow : (rowOf dayKey unreadAfterSeq before e).heldEntry = some e := by
      unfold rowOf
      split
      · rfl
      · split <;> rfl
    unfold arrange daySeparator unreadSeparator
    rw [filterMap_append, filterMap_append, filterMap_append, ih, filterMap_cons_some hrow]
    split <;> split <;> rfl

/-- The unread separator is there once if there is an unread message. -/
theorem count_unread_arrange : (arrange dayKey unreadAfterSeq before entries).count .unread =
    if before.any (unreadEntry unreadAfterSeq) then 0
    else if entries.any (unreadEntry unreadAfterSeq) then 1 else 0 := by
  induction entries generalizing before with
  | nil => split <;> rfl
  | cons e entries ih =>
    have hday : (daySeparator dayKey before e).count .unread = 0 := by
      unfold daySeparator
      split <;> rfl
    have hrow : [rowOf dayKey unreadAfterSeq before e].count .unread = 0 := by
      unfold rowOf
      split
      · rfl
      · split <;> rfl
    unfold arrange unreadSeparator
    rw [count_append, count_append, count_append, hday, hrow, ih, any_append, any_cons, any_cons,
      any_nil, Bool.or_false]
    cases before.any (unreadEntry unreadAfterSeq) <;> cases unreadEntry unreadAfterSeq e <;> simp

theorem days_arrange_cons :
    (arrange dayKey unreadAfterSeq before (e :: entries)).filterMap TimelineItem.day? =
      (daySeparator dayKey before e).filterMap TimelineItem.day? ++
        (arrange dayKey unreadAfterSeq (before ++ [e]) entries).filterMap TimelineItem.day? := by
  have hunread : (unreadSeparator unreadAfterSeq before e).filterMap TimelineItem.day? = [] := by
    unfold unreadSeparator
    split <;> rfl
  have hrow : [rowOf dayKey unreadAfterSeq before e].filterMap TimelineItem.day? = [] := by
    unfold rowOf
    split
    · rfl
    · split <;> rfl
  rw [arrange, filterMap_append, filterMap_append, filterMap_append, hunread, hrow, append_nil,
    append_nil]

/-- After an entry, a separator stands where the day changes. -/
theorem days_arrange {p : TimelineEntry} (hlast : before.getLast? = some p) : dayKey p.createdAt ::
        (arrange dayKey unreadAfterSeq before entries).filterMap TimelineItem.day? =
      (entries.map (dayKey ·.createdAt)).destutter' (· ≠ ·) (dayKey p.createdAt) := by
  induction entries generalizing before p with
  | nil => rfl
  | cons e entries ih =>
    have hnext := @ih (before ++ [e]) e getLast?_concat
    rw [days_arrange_cons, daySeparator, hlast, map_cons, destutter'_cons]
    by_cases heq : dayKey p.createdAt = dayKey e.createdAt
    · rw [if_neg (by simp [heq]), if_neg (not_not_intro heq), heq, ← hnext]
      rfl
    · rw [if_pos (by simpa [eq_comm] using heq), if_pos heq, ← hnext]
      rfl

theorem days_arrange_nil : (arrange dayKey unreadAfterSeq [] entries).filterMap TimelineItem.day? =
      (entries.map (dayKey ·.createdAt)).destutter (· ≠ ·) := by
  cases entries with
  | nil => rfl
  | cons e entries => exact days_arrange_cons.trans (days_arrange rfl)

/-- How often a key occurs is how often its day, its row or the unread separator does. -/
theorem count_key (k : TimelineKey) : (items.map TimelineItem.key).count k =
    match k with
    | .date day => (items.filterMap TimelineItem.day?).count day
    | .row id => ((items.filterMap TimelineItem.heldEntry).map (·.key)).count id
    | .unread => items.count .unread := by
  induction items with
  | nil => cases k <;> rfl
  | cons item items ih =>
    cases k <;> cases item <;>
      simp_all [count_cons, filterMap_cons, TimelineItem.key, TimelineItem.day?,
        TimelineItem.heldEntry]

/-- Keys are distinct if days are, rows are and there is one unread separator at most. -/
theorem nodup_keys_iff : (items.map TimelineItem.key).Nodup ↔
    (items.filterMap TimelineItem.day?).Nodup ∧
      ((items.filterMap TimelineItem.heldEntry).map (·.key)).Nodup ∧ items.count .unread ≤ 1 := by
  simp only [nodup_iff_count_le_one]
  refine ⟨fun h => ⟨fun day => (count_key (.date day)).ge.trans (h _),
    fun id => (count_key (.row id)).ge.trans (h _), (count_key .unread).ge.trans (h _)⟩,
    fun ⟨hday, hrow, hunread⟩ k => ?_⟩
  rw [count_key]
  cases k with
  | date day => exact hday day
  | unread => exact hunread
  | row id => exact hrow id

variable (dayKey parse)

/-- **The timeline is faithful**: it is the arrangement of its entries, each of which has one row;
the unread separator stands once if there is an unread message; and where ids are distinct, keys are
exactly when no day comes back after another one. -/
theorem timeline_faithful (messages : List TimelineMessage) (o : TimelineOptions) :
    let entries := timelineEntries parse messages o
    let items := toTimelineItems dayKey parse messages o
    items = arrange dayKey o.unreadAfterSeq [] entries ∧
      items.filterMap TimelineItem.heldEntry = entries ∧
      items.count .unread = (if entries.any (unreadEntry o.unreadAfterSeq) then 1 else 0) ∧
      ((messages.map (·.id) ++ o.outgoing.map (·.clientMsgId)).Nodup →
        ((items.map TimelineItem.key).Nodup ↔
          ((entries.map (dayKey ·.createdAt)).destutter (· ≠ ·)).Nodup)) := by
  intro entries items
  have hitems : items = arrange dayKey o.unreadAfterSeq [] entries :=
    timelineRows_eq rfl rfl (Bool.or_false _).symm
  have hentries : items.filterMap TimelineItem.heldEntry = entries := hitems ▸ entries_arrange
  have hcount : items.count .unread =
      if entries.any (unreadEntry o.unreadAfterSeq) then 1 else 0 := hitems ▸ count_unread_arrange
  refine ⟨hitems, hentries, hcount, fun hids => ?_⟩
  have hkeys : (entries.map (·.key)).Nodup := by
    refine hids.sublist ?_
    unfold entries timelineEntries
    rw [map_append, map_map]
    refine (filter_sublist.map _).append ?_
    cases o.me with
    | none => exact nil_sublist _
    | some me =>
      rw [map_map]
      exact filter_sublist.map _
  have hdays : items.filterMap TimelineItem.day? =
      (entries.map (dayKey ·.createdAt)).destutter (· ≠ ·) := hitems ▸ days_arrange_nil
  rw [nodup_keys_iff, hentries, hdays, hcount]
  refine ⟨And.left, fun h => ⟨h, hkeys, ?_⟩⟩
  split
  · exact le_rfl
  · exact zero_le_one

end Timeline

/-- A message of the next day between two of the day before: twice the same key. -/
theorem day_comes_back :
    let day (t : ℤ) : String := toString (t / 86400000)
    let parse (t : DateTime) : ℤ := if t = "2026-09-14T00:00:10Z" then 86410000 else 86390000
    let me : UserProfile := ⟨1, "me", "me"⟩
    let posted (id : Ulid) (at_ : DateTime) : TimelineMessage :=
      ⟨⟨id, 1, id, id, id, ⟨2, "you", "you"⟩, id, .user, none, "", none, false, [], [], none, none,
        at_, none⟩, 0, false⟩
    let messages := [posted 11 "2026-09-13T23:59:50Z", posted 12 "2026-09-14T00:00:10Z"]
    let o : TimelineOptions :=
      ⟨none, [⟨13, "", none, false, [], [], .pending, "2026-09-13T23:59:50Z"⟩], some me, none, none⟩
    (messages.map (·.id) ++ o.outgoing.map (·.clientMsgId)).Nodup ∧
      ¬ ((toTimelineItems day parse messages o).map TimelineItem.key).Nodup := by
  decide

end Hibari
