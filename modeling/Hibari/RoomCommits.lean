import Hibari.HeldRows
import Hibari.MessagePage
import Hibari.ThreadCounts

/-!
# Transactions of a room that run at once

The transactions of `RoomLedger` do not run one after another. Each locks rows one by one –
the sender's row as a member, the message that it is about – and reads what it has locked;
then it takes its numbers, and with them the room's row, and holds all of it until it
commits. Others see nothing of it before, and where it fails they never do.

A step here is one such lock with what is read under it, or an end. Beside the calls that
write messages there are transactions that take the room's row or a member's for themselves
alone (`envRows`); they are one step, at the moment at which they commit.

That all this comes to transactions that commit one after another is kept by every step
(`InOrder.act`): what a transaction has read under its locks still holds when it commits.
A client that polls for changes reads the room's row and the messages in two statements that
lock nothing, and anything may commit in between.
-/

namespace Hibari

open List Option

/-! ## Transactions step by step -/

/-- How a transaction ended: it returned a message, which it sent or which was there; it
wrote something else; or it wrote nothing. -/
inductive LedgerOutcome
  | sent (id : Ulid) (created : Bool)
  | wrote
  | ended
  deriving DecidableEq

/-- **A transaction**: it locks the rows it needs, then takes numbers, and has the room's row
from then on. -/
inductive LedgerTask
  | locking (w : LedgerWrite) (held todo : List RoomRow)
  | writing (w : LedgerWrite) (held todo : List RoomRow) (numbers : RoomRecord)
  | done (w : LedgerWrite) (outcome : LedgerOutcome)
  deriving DecidableEq

/-- What a transaction writes, or wrote. -/
def LedgerTask.write : LedgerTask → LedgerWrite
  | locking w _ _ | writing w _ _ _ | done w _ => w

/-- The rows that a transaction has locked. -/
def LedgerTask.held : LedgerTask → List RoomRow
  | locking _ held _ => held
  | writing _ held _ _ => .room :: held
  | done _ _ => []

/-- What is sent to the members of a room once a transaction has committed. -/
inductive LedgerEvent
  | messageCreated (m : LedgerMessage)
  | messageUpdated (m : LedgerMessage)
  | messageDeleted (m : LedgerMessage)
  | threadFollowed (tm : ThreadMember)
  deriving DecidableEq

/-- **A client that polls for changes**: where it is, the room's number that it was given if
it is about to read messages, and all the messages that it was given. -/
structure ChangePoller where
  cursor : ℕ
  lastChangeSeq : Option ℕ
  seen : List LedgerMessage
  deriving DecidableEq

/-- **A room, and what runs on it.** Also the versions of messages that were committed. -/
structure LedgerService where
  ledger : RoomLedger
  versions : List LedgerMessage
  delivered : List LedgerEvent
  tasks : List LedgerTask
  poller : ChangePoller
  deriving DecidableEq

/-- What happens: a transaction begins, goes on or fails; something else commits; the client
reads the room, or a page of messages. -/
inductive LedgerServiceAction
  | start (w : LedgerWrite)
  | step (i : ℕ)
  | fail (i : ℕ)
  | other (a : RoomRunAction)
  | ask
  | answer (limit : ℤ)
  deriving DecidableEq

namespace RoomLedger

variable (l : RoomLedger)

/-- The rows that a transaction locks before the room's. -/
def rowsFirst : LedgerWrite → List RoomRow
  | .sendMessage actor _ _ _ => [.roomMember actor]
  | .sendThreadReply actor _ _ root _ _ _ => [.roomMember actor, .message root]
  | .editMessage message _ | .touchMessage _ message => [.message message]
  | .deleteMessage message =>
    .message message ::
      (((l.getMessage message).bind (fun m => m.threadRootId)).toList.map RoomRow.message)
  | .writeHuddleMessage starter _ _ => [.roomMember starter]
  | .writeSystemMessage _ _ _ _ | .touchHuddleMessage _ => []

/-- The row that is locked when the numbers were taken already. -/
def rowsLast : LedgerWrite → List RoomRow
  | .touchHuddleMessage message => [.message message]
  | _ => []

/-- Whether a transaction begins. Whose message is deleted is read first; a huddle has a
message, and what is written as a log line is not a huddle's. -/
def begins : LedgerWrite → Bool
  | .deleteMessage message => (l.getMessage message).isSome
  | .writeSystemMessage subject clientMsgId id type =>
    l.admits (.writeSystemMessage subject clientMsgId id type)
  | .touchHuddleMessage message => l.admits (.touchHuddleMessage message)
  | _ => true

/-- What a sender is told with its own row locked: it may be no member, or the message may
have been sent before. -/
def readSender (actor clientMsgId : Ulid) : Option LedgerOutcome :=
  if l.isMember actor then
    (l.getMessageIDByClientMsgID actor clientMsgId).map fun id => .sent id false
  else some .ended

/-- **What a transaction reads** once it has locked a row, and how it ends because of it. -/
def read : LedgerWrite → RoomRow → Option LedgerOutcome
  | .sendMessage actor clientMsgId _ _, _ => l.readSender actor clientMsgId
  | .sendThreadReply actor clientMsgId _ _ _ _ _, .roomMember _ => l.readSender actor clientMsgId
  | .sendThreadReply _ _ _ root _ _ _, _ =>
    if (l.getMessage root).any (fun m => isThreadRoot m.toMessageRow) then none else some .ended
  | w, _ => if l.admits w then none else some .ended

/-- The rows that a transaction changed. -/
def changedRows (l l' : RoomLedger) : List LedgerMessage :=
  l'.messages.filter fun m => decide (m ∉ l.messages)

/-- What is sent about a message that was changed. -/
def messageEvent (deleted : Option Ulid) (m : LedgerMessage) : LedgerEvent :=
  if l.messages.any (fun x => decide (x.id = m.id)) then
    if deleted = some m.id then .messageDeleted m else .messageUpdated m
  else .messageCreated m

/-- What is sent when a transaction has committed: messages in the order of their numbers,
then who follows a thread. -/
def events (l l' : RoomLedger) (deleted : Option Ulid) : List LedgerEvent :=
  ((l.changedRows l').insertionSort (fun a b => a.changeSeq ≤ b.changeSeq)).map
      (l.messageEvent deleted) ++
    (l'.threadMembers.filter fun tm => !l.follows tm.threadRootId tm.userId).map .threadFollowed

/-- `ListMessagesChangedAfter`. -/
def listMessagesChangedAfter (after maxRows : ℕ) : List LedgerMessage :=
  ((l.messages.filter fun m => decide (after < m.changeSeq)).insertionSort
    (fun a b => a.changeSeq ≤ b.changeSeq)).take maxRows

/-- `ListMessages` with `after_change_seq`: the rows of a page, and whether there are more. -/
def changesPage (after : ℕ) (limit : ℤ) : List LedgerMessage × Bool :=
  let rows := l.listMessagesChangedAfter after (messageLimit limit + 1)
  let hasMore := decide (messageLimit limit < rows.length)
  (if hasMore then rows.take (messageLimit limit) else rows, hasMore)

end RoomLedger

open RoomLedger

/-- What a transaction returns that has committed. -/
def LedgerWrite.outcome : LedgerWrite → LedgerOutcome
  | .sendMessage _ _ id _ | .sendThreadReply _ _ id _ _ _ _ => .sent id true
  | _ => .wrote

/-- The message that a transaction deletes. -/
def LedgerWrite.deletes : LedgerWrite → Option Ulid
  | .deleteMessage message => some message
  | _ => none

/-- The rows that another transaction has locked when it commits; none, if it is one of those
above, or a statement of `MarkRoomRead`. -/
def envRows : RoomRunAction → Option (List RoomRow)
  | .joinRoom _ _ _ | .setArchived _ _ _ _ => some [.room]
  | .leaveRoom userId _ _ _ => some [.roomMember userId, .room]
  | .leaveWorkspace userId => some [.roomMember userId]
  | .markThreadRead _ _ _ | .followThread _ _ => some []
  | .write _ | .markRoomRead _ _ | .marked _ => none

/-- A client takes in a page. -/
def ChangePoller.receive (p : ChangePoller) (lastChangeSeq : ℕ) (page : List LedgerMessage × Bool) :
    ChangePoller where
  cursor := if page.2 then (page.1.getLast?.map LedgerMessage.changeSeq).getD p.cursor
    else max p.cursor lastChangeSeq
  lastChangeSeq := none
  seen := p.seen ++ page.1

namespace LedgerService

variable (kind : RoomKind) (s : LedgerService)

/-- No transaction holds a row. -/
abbrev FreeRow (r : RoomRow) : Prop := HeldRows.Free LedgerTask.held s.tasks r

/-- A transaction goes on, and has written nothing that others see. -/
def goes (i : ℕ) (t : LedgerTask) : LedgerService := { s with tasks := s.tasks.set i t }

/-- What others see changes. -/
def commits (deleted : Option Ulid) (l : RoomLedger) : LedgerService :=
  { s with
    ledger := l
    versions := s.versions ++ s.ledger.changedRows l
    delivered := s.delivered ++ s.ledger.events l deleted }

/-- **One step of a transaction.** -/
def next (i : ℕ) : LedgerTask → Option LedgerService
  | .locking w held (r :: todo) =>
    if s.FreeRow r then
      some (s.goes i (match s.ledger.read w r with
        | some outcome => .done w outcome
        | none => .locking w (held ++ [r]) todo))
    else none
  | .locking w held [] =>
    if s.FreeRow .room then
      some (s.goes i (match s.ledger.allocate kind w with
        | some numbers => .writing w held (RoomLedger.rowsLast w) numbers
        | none => .done w .ended))
    else none
  | .writing w held (r :: todo) numbers =>
    if s.FreeRow r then some (s.goes i (.writing w (held ++ [r]) todo numbers)) else none
  | .writing w _ [] numbers =>
    (s.ledger.written kind numbers w).map fun l => (s.commits w.deletes l).goes i (.done w w.outcome)
  | .done _ _ => none

/-- One step. -/
def act : LedgerServiceAction → Option LedgerService
  | .start w =>
    some { s with
      tasks := s.tasks ++
        [if s.ledger.begins w then .locking w [] (s.ledger.rowsFirst w) else .done w .ended] }
  | .step i => s.tasks[i]?.bind (next kind s i)
  | .fail i =>
    match s.tasks[i]? with
    | some (.locking w _ _) | some (.writing w _ _ _) => some (s.goes i (.done w .ended))
    | _ => none
  | .other a =>
    match envRows a with
    | some rows =>
      if ∀ r ∈ rows, s.FreeRow r then
        (RoomRun.act kind ⟨s.ledger, [], []⟩ a).map fun run => s.commits none run.ledger
      else none
    | none => none
  | .ask =>
    match s.poller.lastChangeSeq with
    | none => some { s with
        poller := { s.poller with lastChangeSeq := some s.ledger.room.lastChangeSeq } }
    | some _ => none
  | .answer limit =>
    match s.poller.lastChangeSeq with
    | some lastChangeSeq => some { s with
        poller := s.poller.receive lastChangeSeq (s.ledger.changesPage s.poller.cursor limit) }
    | none => none

/-- **The runs of a room** in which nothing has happened, with a client that has seen
nothing. -/
def system : TransitionSystem LedgerService LedgerServiceAction where
  init s := s = ⟨.empty, [], [], [], ⟨0, none, []⟩⟩
  step s a := act kind s a

end LedgerService

/-! ## What was read still holds -/

/-- The sender of a request to send, and what the sender named it. -/
def LedgerWrite.key : LedgerWrite → Option (Ulid × Ulid)
  | .sendMessage actor clientMsgId _ _ | .sendThreadReply actor clientMsgId _ _ _ _ _ =>
    some (actor, clientMsgId)
  | _ => none

namespace RoomLedger

variable {kind : RoomKind} {l l' : RoomLedger} {w : LedgerWrite} {numbers : RoomRecord}
  {rows : List RoomRow} {r : RoomRow} {clientMsgId id : Ulid}

/-- **What a transaction knows by a row that it has locked**, as long as it has it. -/
def Stays (l : RoomLedger) : LedgerWrite → RoomRow → Prop
  | .sendMessage actor _ _ _, _ | .writeHuddleMessage actor _ _, _
  | .sendThreadReply actor _ _ _ _ _ _, .roomMember _ => l.isMember actor = true
  | .sendThreadReply _ _ _ root _ _ _, .message _ =>
    (l.getMessage root).any (fun m => isThreadRoot m.toMessageRow) = true
  | .editMessage message body, .message x =>
    x = message → l.admits (.editMessage message body) = true
  | .deleteMessage message, .message x => x = message → l.admits (.deleteMessage message) = true
  | .touchMessage why message, .message x =>
    x = message → l.admits (.touchMessage why message) = true
  | _, _ => True

theorem isMember_iff {u : Ulid} : l.isMember u = true ↔ u ∈ l.members.map RoomMember.userId := by
  unfold isMember
  rw [List.any_eq_true, List.mem_map]
  exact exists_congr fun rm => and_congr_right fun _ => decide_eq_true_iff

theorem isMember_of_readSender {actor : Ulid}
    (h : l.readSender actor clientMsgId = none) : l.isMember actor = true := by
  unfold readSender at h
  split at h
  · assumption
  · cases h

/-- A transaction that goes on knows what it has read. -/
theorem stays_of_read (h : l.read w r = none) : l.Stays w r := by
  have hpassed : ∀ b : Bool, (if b then none else some LedgerOutcome.ended) = none → b = true := by
    intro b hif
    cases b
    · cases hif
    · rfl
  cases w with
  | sendMessage => exact isMember_of_readSender h
  | sendThreadReply =>
    cases r with
    | roomMember => exact isMember_of_readSender h
    | message => exact hpassed _ h
    | _ => trivial
  | writeHuddleMessage => exact hpassed _ h
  | writeSystemMessage | touchHuddleMessage => trivial
  | _ =>
    cases r with
    | message => exact fun _ => hpassed _ h
    | _ => trivial

/-- Nothing is sent where something is only read. -/
theorem read_ne_created {outcome : LedgerOutcome} (h : l.read w r = some outcome) :
    outcome ≠ .sent id true := by
  have hsender : ∀ actor clientMsgId, l.readSender actor clientMsgId = some outcome →
      outcome ≠ .sent id true := by
    intro actor clientMsgId hread
    unfold readSender at hread
    split at hread
    · obtain ⟨x, -, rfl⟩ := map_eq_some_iff.mp hread
      simp
    · rw [← some.inj hread]
      simp
  have hended : ∀ b : Bool, (if b then none else some LedgerOutcome.ended) = some outcome →
      outcome ≠ .sent id true := by
    intro b hif
    cases b
    · rw [← some.inj hif]
      simp
    · cases hif
  cases w with
  | sendMessage => exact hsender _ _ h
  | sendThreadReply =>
    cases r with
    | roomMember => exact hsender _ _ h
    | _ => exact hended _ h
  | _ => exact hended _ h

/-- **What the locks give together**: all that a transaction reads before it takes numbers,
if what is sent is new. -/
theorem admits_of_stays (hbegins : l.begins w = true) (h : ∀ r ∈ l.rowsFirst w, l.Stays w r)
    (hfresh : ∀ key ∈ w.key, l.getMessageIDByClientMsgID key.1 key.2 = none) :
    l.admits w = true := by
  cases w with
  | sendMessage actor clientMsgId =>
    have hmember : l.isMember actor = true := h (.roomMember actor) (.head _)
    have hnew := hfresh (actor, clientMsgId) rfl
    simp only [admits, hmember, hnew, isNone_none, Bool.and_self]
  | sendThreadReply actor clientMsgId _ root =>
    have hmember : l.isMember actor = true := h (.roomMember actor) (.head _)
    have hroot : (l.getMessage root).any (fun m => isThreadRoot m.toMessageRow) = true :=
      h (.message root) (.tail _ (.head _))
    have hnew := hfresh (actor, clientMsgId) rfl
    simp only [admits, hmember, hnew, hroot, isNone_none, Bool.and_self]
  | writeHuddleMessage starter =>
    exact h (.roomMember starter) (.head _)
  | editMessage message => exact h (.message message) (.head _) rfl
  | deleteMessage message => exact h (.message message) (.head _) rfl
  | touchMessage _ message => exact h (.message message) (.head _) rfl
  | writeSystemMessage => exact hbegins
  | touchHuddleMessage => exact hbegins

/-- What is sent is new, where it could be written. -/
theorem fresh_of_written (h : l.written kind numbers w = some l') :
    ∀ key ∈ w.key, l.getMessageIDByClientMsgID key.1 key.2 = none := by
  intro key hkey
  have hleaves := written_leaves h
  have hnew : ∃ p ∈ posted kind l numbers w, p.senderId = key.1 ∧ p.clientMsgId = key.2 := by
    cases w with
    | sendMessage =>
      cases hkey
      exact ⟨_, rfl, rfl, rfl⟩
    | sendThreadReply actor clientMsgId id root body alsoInChannel =>
      cases hkey
      unfold written at h
      cases hroot : l.getMessage root with
      | none => simp [hroot] at h
      | some m =>
        refine ⟨userMessage numbers (numbers.lastChangeSeq - 1) actor clientMsgId id body
          (some root) (some (m.lastThreadSeq + 1)) alsoInChannel, ?_, rfl, rfl⟩
        rw [posted, hroot]
        rfl
    | _ => exact absurd hkey (by simp [LedgerWrite.key])
  obtain ⟨p, hp, hsender, hclient⟩ := hnew
  unfold getMessageIDByClientMsgID
  rw [map_eq_none_iff, find?_eq_none]
  intro m hm hif
  obtain ⟨hmsender, hmclient⟩ := of_decide_eq_true hif
  have hf := (hleaves.fresh p hp m.frame (List.mem_map_of_mem hm)).2
  exact hf (hmsender.trans hsender.symm) (hmclient.trans hclient.symm)

/-! ### What a commit leaves of the others' rows -/

/-- **What a transaction that has these rows leaves to the others**: members whose row it
does not have, the messages and what does not change about them, and all of a message whose
row it does not have. -/
structure Spares (rows : List RoomRow) (l l' : RoomLedger) : Prop where
  member : ∀ u, .roomMember u ∉ rows → l.isMember u = true → l'.isMember u = true
  message : ∀ id m, l.getMessage id = some m → ∃ m', l'.getMessage id = some m' ∧
    m'.frame = m.frame ∧ (.message id ∉ rows → m'.deleted = m.deleted ∧ m'.body = m.body)

theorem Spares.refl : Spares rows l l where
  member _ _ h := h
  message _ m h := ⟨m, h, rfl, fun _ => ⟨rfl, rfl⟩⟩

theorem Spares.trans {l'' : RoomLedger} (h : Spares rows l l') (h' : Spares rows l' l'') :
    Spares rows l l'' where
  member u hu hm := h'.member u hu (h.member u hu hm)
  message id m hm := by
    obtain ⟨m', hm', hframe, hsame⟩ := h.message id m hm
    obtain ⟨m'', hm'', hframe', hsame'⟩ := h'.message id m' hm'
    refine ⟨m'', hm'', hframe'.trans hframe, fun hrow => ?_⟩
    obtain ⟨hdeleted, hbody⟩ := hsame hrow
    obtain ⟨hdeleted', hbody'⟩ := hsame' hrow
    exact ⟨hdeleted'.trans hdeleted, hbody'.trans hbody⟩

theorem Spares.mono {rows' : List RoomRow} (h : Spares rows l l') (hrows : rows ⊆ rows') :
    Spares rows' l l' where
  member u hu := h.member u fun hmem => hu (hrows hmem)
  message id m hm := by
    obtain ⟨m', hm', hframe, hsame⟩ := h.message id m hm
    exact ⟨m', hm', hframe, fun hrow => hsame fun hmem => hrow (hrows hmem)⟩

/-- Neither members nor messages are touched. -/
theorem Spares.of_eq (hmembers : l'.members.map RoomMember.userId = l.members.map RoomMember.userId)
    (hmessages : l'.messages = l.messages) : Spares rows l l' where
  member u _ h := by
    rw [isMember_iff] at h ⊢
    rw [hmembers]
    exact h
  message id m h := by
    refine ⟨m, ?_, rfl, fun _ => ⟨rfl, rfl⟩⟩
    unfold getMessage at h ⊢
    rw [hmessages]
    exact h

theorem Spares.append (l : RoomLedger) (p : LedgerMessage) :
    Spares rows l { l with messages := l.messages ++ [p] } where
  member _ _ h := h
  message id m h := by
    refine ⟨m, ?_, rfl, fun _ => ⟨rfl, rfl⟩⟩
    show (l.messages ++ [p]).find? _ = some m
    rw [find?_append, show l.messages.find? _ = some m from h, some_or]

/-- A message is written, by who has its row or by who changes neither text nor flag. -/
theorem Spares.updateMessage (l : RoomLedger) (id : Ulid) {f : LedgerMessage → LedgerMessage}
    (hf : ∀ m, (f m).frame = m.frame)
    (hrow : .message id ∈ rows ∨ ∀ m, (f m).deleted = m.deleted ∧ (f m).body = m.body) :
    Spares rows l (l.updateMessage id f) where
  member _ _ h := h
  message x m h := by
    refine ⟨if m.id = id then f m else m, ?_, ?_, fun hx => ?_⟩
    · have hid : ∀ m, (if m.id = id then f m else m : LedgerMessage).id = m.id := fun m => by
        split
        · exact congrArg MessageFrame.id (hf m)
        · rfl
      show (l.messages.map fun m => if m.id = id then f m else m).find? _ = _
      rw [find?_map]
      have hsame : ((fun m : LedgerMessage => decide (m.id = x)) ∘ fun m => if m.id = id then f m else m)
          = fun m => decide (m.id = x) := by
        funext m
        show decide ((if m.id = id then f m else m : LedgerMessage).id = x) = _
        rw [hid]
      rw [hsame, show l.messages.find? _ = some m from h]
      rfl
    · split
      · exact hf m
      · rfl
    · split
      · next heq =>
        rcases hrow with hmem | hsame
        · have hxid : x = id := (mem_of_getMessage h).2.symm.trans heq
          exact absurd (hxid ▸ hmem) hx
        · exact hsame m
      · exact ⟨rfl, rfl⟩

theorem spares_deleteRoomMember {userId : Ulid} (hrow : .roomMember userId ∈ rows) :
    Spares rows l (l.deleteRoomMember userId) where
  member u hu h := by
    have hne : u ≠ userId := fun heq => hu (heq ▸ hrow)
    rw [isMember_iff] at h ⊢
    obtain ⟨rm, hrm, rfl⟩ := List.mem_map.mp h
    exact List.mem_map_of_mem (mem_filter.mpr ⟨hrm, decide_eq_true hne⟩)
  message id m h := ⟨m, h, rfl, fun _ => ⟨rfl, rfl⟩⟩

/-- **A transaction that writes messages spares the others**, which do not have its rows. -/
theorem spares_written (h : l.written kind numbers w = some l') : Spares (l.rowsFirst w) l l' := by
  have hroom : ∀ rows, Spares rows l { l with room := numbers } := fun rows => .of_eq rfl rfl
  have hread : ∀ (l : RoomLedger) (rows : List RoomRow) (u : Ulid) (n : ℕ),
      Spares rows l (l.advanceLastReadSeq u n) := by
    intro l rows u n
    refine .of_eq ?_ rfl
    unfold advanceLastReadSeq
    rw [List.map_map]
    refine map_congr_left fun rm _ => ?_
    show (if rm.userId = u then l.advanced rm n else rm).userId = rm.userId
    split <;> rfl
  cases w with
  | sendMessage =>
    obtain ⟨l₁, hl₁, rfl⟩ := map_eq_some_iff.mp h
    obtain ⟨rfl, -, -⟩ := createMessage_eq_some hl₁
    exact ((hroom _).trans (.append _ _)).trans (hread _ _ _ _)
  | sendThreadReply actor clientMsgId id root body alsoInChannel mentions =>
    unfold written at h
    cases hroot : l.getMessage root with
    | none => simp [hroot] at h
    | some m =>
      simp only [hroot] at h
      obtain ⟨l₁, hl₁, rfl⟩ := map_eq_some_iff.mp h
      obtain ⟨rfl, -, -⟩ := createMessage_eq_some hl₁
      set l₂ : RoomLedger := { l with room := numbers }.updateMessage root fun m => { m with
        lastThreadSeq := m.lastThreadSeq + 1
        threadReplyCount := m.threadReplyCount + 1
        changeSeq := numbers.lastChangeSeq } with hl₂
      set p := userMessage numbers (numbers.lastChangeSeq - 1) actor clientMsgId id body (some root)
        (some (m.lastThreadSeq + 1)) alsoInChannel with hp
      have hupdate : ∀ rows, Spares rows { l with room := numbers } l₂ := fun rows =>
        .updateMessage _ root (fun _ => rfl) (.inr fun _ => ⟨rfl, rfl⟩)
      have hposted : ∀ rows, Spares rows l { l₂ with messages := l₂.messages ++ [p] } := fun rows =>
        ((hroom rows).trans (hupdate rows)).trans (.append l₂ p)
      rw [sameButThreads_followReply actor root m.senderId (m.lastThreadSeq + 1) mentions]
      cases alsoInChannel with
      | false => exact (hposted _).trans (.of_eq rfl rfl)
      | true => exact ((hposted _).trans (hread _ _ _ _)).trans (.of_eq rfl rfl)
  | editMessage =>
    cases h
    exact (hroom _).trans (.updateMessage _ _ (fun _ => rfl) (.inl (.head _)))
  | deleteMessage message =>
    cases hroot : (l.getMessage message).bind (fun m => m.threadRootId) with
    | none =>
      simp only [written, hroot] at h
      cases h
      exact (hroom _).trans (.updateMessage _ _ (fun _ => rfl) (.inl (.head _)))
    | some root =>
      simp only [written, hroot] at h
      cases h
      set l₂ : RoomLedger := { l with room := numbers }.updateMessage message fun m => { m with
        body := ""
        deleted := true
        changeSeq := numbers.lastChangeSeq - 1 } with hl₂
      have hmessage : Spares (l.rowsFirst (.deleteMessage message)) { l with room := numbers } l₂ :=
        .updateMessage _ message (fun _ => rfl) (.inl (.head _))
      exact ((hroom _).trans hmessage).trans
        (.updateMessage l₂ root (fun _ => rfl) (.inr fun _ => ⟨rfl, rfl⟩))
  | writeSystemMessage =>
    obtain ⟨rfl, -, -⟩ := createMessage_eq_some h
    exact (hroom _).trans (.append _ _)
  | writeHuddleMessage starter clientMsgId id =>
    obtain ⟨l₁, hl₁, rfl⟩ := map_eq_some_iff.mp h
    obtain ⟨rfl, -, -⟩ := createMessage_eq_some hl₁
    have hposted := (hroom (l.rowsFirst (.writeHuddleMessage starter clientMsgId id))).trans
      (.append _ (systemMessage numbers starter clientMsgId id .huddle))
    split
    · exact hposted.trans (hread _ _ _ _)
    · exact hposted
  | _ =>
    cases h
    exact (hroom _).trans (.updateMessage _ _ (fun _ => rfl) (.inr fun _ => ⟨rfl, rfl⟩))

theorem spares_logged {subject : Ulid} {type : SystemEventType}
    (h : l.logged kind subject clientMsgId id type = some l') : Spares rows l l' :=
  (spares_written h).mono (nil_subset _)

/-- So does every other transaction. -/
theorem spares_env {a : RoomRunAction} {run : RoomRun} (hrows : envRows a = some rows)
    (h : RoomRun.act kind ⟨l, [], []⟩ a = some run) : Spares rows l run.ledger := by
  cases a with
  | joinRoom userId clientMsgId id =>
    obtain ⟨l', hl', rfl⟩ := map_eq_some_iff.mp h
    have hadd : Spares rows l (l.addRoomMember userId) := by
      unfold addRoomMember
      split
      · exact .refl
      · refine ⟨fun u _ hu => ?_, fun id m hm => ⟨m, hm, rfl, fun _ => ⟨rfl, rfl⟩⟩⟩
        rw [isMember_iff] at hu ⊢
        rw [map_append]
        exact mem_append_left _ hu
    have hjoin : l.joinRoom kind userId clientMsgId id = some l' := hl'
    unfold joinRoom at hjoin
    split at hjoin
    · cases hjoin
    · split at hjoin
      · rw [← some.inj hjoin]
        exact hadd
      · exact hadd.trans (spares_logged hjoin)
  | leaveRoom userId clientMsgId id removed =>
    obtain ⟨l', hl', rfl⟩ := map_eq_some_iff.mp h
    cases hrows
    have hleave : l.leaveRoom kind userId clientMsgId id removed = some l' := hl'
    unfold leaveRoom at hleave
    by_cases hif : (l.isMember userId && decide (kind ≠ .roomDM)) = true
    · rw [if_pos hif] at hleave
      exact (spares_deleteRoomMember (.head _)).trans (spares_logged hleave)
    · rw [if_neg hif] at hleave
      cases hleave
  | leaveWorkspace =>
    cases hrows
    cases h
    exact spares_deleteRoomMember (.head _)
  | setArchived archived actor clientMsgId id =>
    obtain ⟨l', hl', rfl⟩ := map_eq_some_iff.mp h
    have hset : l.setArchived kind archived actor clientMsgId id = some l' := hl'
    unfold setArchived at hset
    split at hset
    · cases hset
    · obtain ⟨l₁, hlogged, rfl⟩ := map_eq_some_iff.mp hset
      exact (spares_logged hlogged).trans (.of_eq rfl rfl)
  | markThreadRead =>
    cases h
    exact .of_eq rfl rfl
  | followThread =>
    obtain ⟨l', hl', rfl⟩ := map_eq_some_iff.mp h
    have hsame := sameButThreads_followFromNow hl'
    show Spares rows l l'
    rw [hsame]
    exact .of_eq rfl rfl
  | _ => exact absurd hrows (by simp [envRows])

/-- What is read of a message that is spared stays so. -/
theorem Spares.any {rows : List RoomRow} (hs : Spares rows l l') {P : LedgerMessage → Bool}
    (hP : ∀ m m' : LedgerMessage, m'.frame = m.frame →
      (.message id ∉ rows → m'.deleted = m.deleted ∧ m'.body = m.body) → P m = true → P m' = true)
    (h : (l.getMessage id).any P = true) : (l'.getMessage id).any P = true := by
  obtain ⟨m, hm, hPm⟩ := (Option.any_eq_true _ _).mp h
  obtain ⟨m', hm', hframe, hsame⟩ := hs.message id m hm
  exact (Option.any_eq_true _ _).mpr ⟨m', hm', hP m m' hframe hsame hPm⟩

theorem kind_of_frame {m m' : LedgerMessage} (h : m'.frame = m.frame) : m'.kind = m.kind :=
  congrArg (fun f : MessageFrame => f.kind) h

/-- **What a transaction knows by its locks stays true** as long as others spare its rows. -/
theorem Stays.spares (h : l.Stays w r) (hr : r ∈ l.rowsFirst w) (hs : Spares rows l l')
    (hrow : r ∉ rows) : l'.Stays w r := by
  cases w with
  | sendMessage actor =>
    rw [mem_singleton.mp hr] at hrow
    exact hs.member actor hrow h
  | writeHuddleMessage starter =>
    rw [mem_singleton.mp hr] at hrow
    exact hs.member starter hrow h
  | sendThreadReply actor =>
    rcases mem_cons.mp hr with rfl | hr
    · exact hs.member actor hrow h
    · obtain rfl := mem_singleton.mp hr
      refine hs.any (fun m m' hframe _ hroot => ?_) h
      have hmessage : m'.toMessageRow = m.toMessageRow := congrArg MessageFrame.toMessageRow hframe
      rw [hmessage]
      exact hroot
  | editMessage =>
    obtain rfl := mem_singleton.mp hr
    refine fun _ => hs.any (fun m m' hframe hsame hm => ?_) (h rfl)
    obtain ⟨hdeleted, hbody⟩ := hsame hrow
    rw [kind_of_frame hframe, hdeleted, hbody]
    exact hm
  | deleteMessage message =>
    cases r with
    | message =>
      intro hx
      rw [hx] at hrow
      refine hs.any (fun m m' hframe hsame hm => ?_) (h hx)
      rw [kind_of_frame hframe, (hsame hrow).1]
      exact hm
    | _ => trivial
  | touchMessage =>
    obtain rfl := mem_singleton.mp hr
    refine fun _ => hs.any (fun m m' hframe hsame hm => ?_) (h rfl)
    rw [kind_of_frame hframe, (hsame hrow).1]
    exact hm
  | _ => cases hr

theorem begins_spares (h : l.begins w = true) (hs : Spares rows l l') : l'.begins w = true := by
  cases w with
  | deleteMessage message =>
    obtain ⟨m, hm⟩ := isSome_iff_exists.mp h
    obtain ⟨m', hm', -⟩ := hs.message message m hm
    exact isSome_iff_exists.mpr ⟨m', hm'⟩
  | touchHuddleMessage =>
    refine hs.any (fun m m' hframe _ hm => ?_) h
    rw [show m'.systemType = m.systemType from
      congrArg (fun f : MessageFrame => f.systemType) hframe]
    exact hm
  | writeSystemMessage => exact h
  | _ => rfl

/-- The thread of a message is always the same. -/
theorem threadRootId_spares {message : Ulid} (h : (l.getMessage message).isSome = true)
    (hs : Spares rows l l') :
    (l'.getMessage message).map (fun m => m.threadRootId)
      = (l.getMessage message).map fun m => m.threadRootId := by
  obtain ⟨m, hm⟩ := isSome_iff_exists.mp h
  obtain ⟨m', hm', hframe, -⟩ := hs.message message m hm
  rw [hm, hm', map_some, map_some,
    show m'.threadRootId = m.threadRootId from
      congrArg (fun f : MessageFrame => f.threadRootId) hframe]

theorem rowsFirst_spares (h : l.begins w = true) (hs : Spares rows l l') :
    l'.rowsFirst w = l.rowsFirst w := by
  cases w with
  | deleteMessage =>
    have hroot := threadRootId_spares h hs
    have hbind : ∀ o : Option LedgerMessage, o.bind (fun m => m.threadRootId)
        = (o.map fun m => m.threadRootId).join := fun o => by
      cases o <;> rfl
    show _ :: _ = _ :: _
    rw [hbind, hbind, hroot]
  | _ => rfl

theorem allocate_spares (h : l.begins w = true) (hs : Spares rows l l') (hroom : l'.room = l.room) :
    l'.allocate kind w = l.allocate kind w := by
  cases w with
  | deleteMessage =>
    have hroot := threadRootId_spares h hs
    have hany : ∀ o : Option LedgerMessage, o.any (fun m => m.threadRootId.isSome)
        = (o.map fun m => m.threadRootId).any Option.isSome := fun o => by
      cases o <;> rfl
    show l'.room.allocateChangeSeq _ = l.room.allocateChangeSeq _
    rw [hany, hany, hroot, hroom]
  | _ =>
    unfold allocate
    rw [hroom]

end RoomLedger

/-! ## One after another -/

/-- **What a transaction has done so far**: it has its rows in order, and what it has read
with each of them holds; with its numbers taken, they are still the next ones. -/
def LedgerTask.Fits (kind : RoomKind) (l : RoomLedger) : LedgerTask → Prop
  | .locking w held todo => held ++ todo = l.rowsFirst w ∧ l.begins w = true ∧
      ∀ r ∈ held, l.Stays w r
  | .writing w held _ numbers => (∀ r ∈ l.rowsFirst w, r ∈ held) ∧ l.begins w = true ∧
      (∀ r ∈ l.rowsFirst w, l.Stays w r) ∧ l.allocate kind w = some numbers
  | .done _ _ => True

/-- Others spare a transaction that does not hold the room's row. -/
theorem LedgerTask.Fits.spares {kind : RoomKind} {l l' : RoomLedger} {t : LedgerTask}
    {rows : List RoomRow} (h : t.Fits kind l) (hs : l.Spares rows l')
    (hrows : ∀ r ∈ t.held, r ∉ rows) (hroom : RoomRow.room ∈ t.held → l'.room = l.room) :
    t.Fits kind l' := by
  cases t with
  | locking w _ todo =>
    obtain ⟨hheld, hbegins, hstays⟩ := h
    refine ⟨?_, begins_spares hbegins hs, fun r hr => ?_⟩
    · rw [rowsFirst_spares hbegins hs]
      exact hheld
    · have hmem : r ∈ l.rowsFirst w := hheld ▸ mem_append_left todo hr
      exact (hstays r hr).spares hmem hs (hrows r hr)
  | writing =>
    obtain ⟨hheld, hbegins, hstays, hnumbers⟩ := h
    have hsame := rowsFirst_spares hbegins hs
    refine ⟨?_, begins_spares hbegins hs, fun r hr => ?_, ?_⟩
    · rw [hsame]
      exact hheld
    · rw [hsame] at hr
      exact (hstays r hr).spares hr hs (hrows r (.tail _ (hheld r hr)))
    · rw [allocate_spares hbegins hs (hroom mem_cons_self)]
      exact hnumbers
  | done => trivial

namespace LedgerService

variable {kind : RoomKind} {s s' : LedgerService} {a : LedgerServiceAction} {i : ℕ} {t : LedgerTask}
  {held todo : List RoomRow} {run : RoomRun}

/-- Something commits: one of the transactions that write messages, or another one. -/
inductive Commits (kind : RoomKind) (s : LedgerService) : LedgerServiceAction → LedgerService → Prop
  | write {i : ℕ} {w : LedgerWrite} {held : List RoomRow} {numbers : RoomRecord} {l : RoomLedger} :
      s.tasks[i]? = some (.writing w held [] numbers) → s.ledger.written kind numbers w = some l →
      Commits kind s (.step i) ((s.commits w.deletes l).goes i (.done w w.outcome))
  | other {a : RoomRunAction} {rows : List RoomRow} {run : RoomRun} :
      envRows a = some rows → (∀ r ∈ rows, s.FreeRow r) →
      RoomRun.act kind ⟨s.ledger, [], []⟩ a = some run →
      Commits kind s (.other a) (s.commits none run.ledger)

/-- The client reads the room, or takes in a page. -/
inductive Reads (s : LedgerService) : LedgerServiceAction → LedgerService → Prop
  | ask : s.poller.lastChangeSeq = none → Reads s .ask { s with
      poller := { s.poller with lastChangeSeq := some s.ledger.room.lastChangeSeq } }
  | answer {limit : ℤ} {last : ℕ} : s.poller.lastChangeSeq = some last →
      Reads s (.answer limit) { s with
        poller := s.poller.receive last (s.ledger.changesPage s.poller.cursor limit) }

/-- What a transaction does in a step in which it does not commit: it takes a row that is
free, or ends. -/
structure Goes (kind : RoomKind) (s : LedgerService) (t t' : LedgerTask) : Prop where
  rows : ∀ r ∈ t'.held, r ∈ t.held ∨ s.FreeRow r
  fits : t.Fits kind s.ledger → t'.Fits kind s.ledger
  write : t'.write = t.write
  told : ∀ w id created, t' = .done w (.sent id created) →
    ∃ r, s.ledger.read w r = some (.sent id created)

/-- A transaction locks its next row. -/
theorem next_lock {w : LedgerWrite} {r : RoomRow}
    (h : next kind s i (.locking w held (r :: todo)) = some s') :
    ∃ t', s' = s.goes i t' ∧ Goes kind s (.locking w held (r :: todo)) t' ∧
      ∀ w id, t' ≠ .done w (.sent id true) := by
  simp only [next] at h
  by_cases hfree : s.FreeRow r
  · rw [if_pos hfree] at h
    refine ⟨_, (some.inj h).symm, ?_⟩
    cases hread : s.ledger.read w r with
    | some =>
      refine ⟨⟨fun r hr => absurd hr not_mem_nil, fun _ => trivial, rfl,
        fun w' id created heq => ?_⟩, fun w' id heq => ?_⟩
      · obtain ⟨rfl, rfl⟩ := LedgerTask.done.inj heq
        exact ⟨r, hread⟩
      · exact read_ne_created hread (LedgerTask.done.inj heq).2
    | none =>
      refine ⟨⟨fun x hx => ?_, fun hfits => ?_, rfl, by simp⟩, by simp⟩
      · rcases mem_append.mp hx with hx | hx
        · exact .inl hx
        · rw [mem_singleton.mp hx]
          exact .inr hfree
      · obtain ⟨hheld, hbegins, hstays⟩ := hfits
        refine ⟨?_, hbegins, fun x hx => ?_⟩
        · rw [append_assoc]
          exact hheld
        · rcases mem_append.mp hx with hx | hx
          · exact hstays x hx
          · rw [mem_singleton.mp hx]
            exact stays_of_read hread
  · rw [if_neg hfree] at h
    cases h

/-- A transaction takes its numbers. -/
theorem next_allocate {w : LedgerWrite} (h : next kind s i (.locking w held []) = some s') :
    ∃ t', s' = s.goes i t' ∧ Goes kind s (.locking w held []) t' ∧
      ∀ w id, t' ≠ .done w (.sent id true) := by
  simp only [next] at h
  by_cases hfree : s.FreeRow .room
  · rw [if_pos hfree] at h
    refine ⟨_, (some_inj.mp h).symm, ?_⟩
    cases hnumbers : s.ledger.allocate kind w with
    | none =>
      exact ⟨⟨fun r hr => absurd hr not_mem_nil, fun _ => trivial, rfl, by simp⟩, by simp⟩
    | some =>
      refine ⟨⟨fun x hx => ?_, fun hfits => ?_, rfl, by simp⟩, by simp⟩
      · rcases mem_cons.mp hx with rfl | hx
        · exact .inr hfree
        · exact .inl hx
      · obtain ⟨hheld, hbegins, hstays⟩ := hfits
        rw [append_nil] at hheld
        rw [hheld] at hstays
        exact ⟨fun r hr => hheld ▸ hr, hbegins, hstays, hnumbers⟩
  · rw [if_neg hfree] at h
    cases h

/-- A transaction that has its numbers locks one more row. -/
theorem next_lockLast {w : LedgerWrite} {r : RoomRow}
    {numbers : RoomRecord} (h : next kind s i (.writing w held (r :: todo) numbers) = some s') :
    ∃ t', s' = s.goes i t' ∧ Goes kind s (.writing w held (r :: todo) numbers) t' ∧
      ∀ w id, t' ≠ .done w (.sent id true) := by
  simp only [next] at h
  by_cases hfree : s.FreeRow r
  · rw [if_pos hfree] at h
    refine ⟨_, (some.inj h).symm, ⟨fun x hx => ?_, fun hfits => ?_, rfl, by simp⟩, by simp⟩
    · rcases mem_cons.mp hx with rfl | hx
      · exact .inl (.head _)
      · rcases mem_append.mp hx with hx | hx
        · exact .inl (.tail _ hx)
        · rw [mem_singleton.mp hx]
          exact .inr hfree
    · obtain ⟨hheld, hrest⟩ := hfits
      exact ⟨fun r hr => mem_append_left _ (hheld r hr), hrest⟩
  · rw [if_neg hfree] at h
    cases h

/-- **A step of a transaction**: it commits, or goes on. -/
theorem next_cases (hi : s.tasks[i]? = some t) (h : next kind s i t = some s') :
    Commits kind s (.step i) s' ∨ ∃ t', s' = s.goes i t' ∧ Goes kind s t t' ∧
      ∀ w id, t' ≠ .done w (.sent id true) := by
  cases t with
  | locking _ _ todo =>
    cases todo with
    | nil => exact .inr (next_allocate h)
    | cons => exact .inr (next_lock h)
  | writing _ _ todo =>
    cases todo with
    | nil =>
      obtain ⟨l, hl, rfl⟩ := map_eq_some_iff.mp h
      exact .inl (.write hi hl)
    | cons => exact .inr (next_lockLast h)
  | done => exact absurd h (by simp [next])

/-- The client takes in the page that it has asked for. -/
theorem act_answer {limit : ℤ} (h : act kind s (.answer limit) = some s') :
    ∃ last, s.poller.lastChangeSeq = some last ∧ s' = { s with
      poller := s.poller.receive last (s.ledger.changesPage s.poller.cursor limit) } := by
  simp only [act] at h
  split at h
  · next last hlast => exact ⟨last, hlast, (some.inj h).symm⟩
  · cases h

/-- **What a step is**: a commit; a transaction that begins, goes on or fails; or the client
reads. -/
theorem act_cases (h : act kind s a = some s') : Commits kind s a s' ∨
    (∃ t, s' = { s with tasks := s.tasks ++ [t] } ∧ t.held = [] ∧ t.Fits kind s.ledger ∧
      ∀ w id created, t ≠ .done w (.sent id created)) ∨
    (∃ i t t', s.tasks[i]? = some t ∧ (∀ w o, t ≠ .done w o) ∧ s' = s.goes i t' ∧
      Goes kind s t t' ∧ ∀ w id, t' ≠ .done w (.sent id true)) ∨
    Reads s a s' := by
  cases a with
  | start w =>
    refine .inr (.inl ⟨_, (some.inj h).symm, ?_⟩)
    by_cases hbegins : s.ledger.begins w = true
    · rw [if_pos hbegins]
      exact ⟨rfl, ⟨nil_append _, hbegins, nofun⟩, by simp⟩
    · rw [if_neg hbegins]
      exact ⟨rfl, trivial, by simp⟩
  | step i =>
    obtain ⟨t, hi, hnext⟩ := bind_eq_some_iff.mp h
    rcases next_cases hi hnext with hcommits | ⟨t', rfl, hgoes, hnot⟩
    · exact .inl hcommits
    · refine Or.inr (Or.inr (Or.inl ⟨i, t, t', hi, fun w o heq => ?_, rfl, hgoes, hnot⟩))
      rw [heq] at hnext
      exact absurd hnext (by simp [next])
  | fail i =>
    have hfail : ∀ t, s.tasks[i]? = some t → (∀ w o, t ≠ .done w o) →
        s.goes i (.done t.write .ended) = s' → ∃ i t t', s.tasks[i]? = some t ∧
          (∀ w o, t ≠ .done w o) ∧ s' = s.goes i t' ∧ Goes kind s t t' ∧
            ∀ w id, t' ≠ .done w (.sent id true) :=
      fun t hi hnot heq => ⟨i, t, .done t.write .ended, hi, hnot, heq.symm,
        ⟨fun r hr => absurd hr not_mem_nil, fun _ => trivial, rfl, by simp⟩, by simp⟩
    simp only [act] at h
    split at h
    · next w held todo hi =>
      exact .inr (.inr (.inl (hfail _ hi (by simp) (some.inj h))))
    · next w held todo numbers hi =>
      exact .inr (.inr (.inl (hfail _ hi (by simp) (some.inj h))))
    · cases h
  | other =>
    simp only [act] at h
    split at h
    · next rows hrows =>
      by_cases hfree : ∀ r ∈ rows, s.FreeRow r
      · rw [if_pos hfree] at h
        obtain ⟨run, hrun, rfl⟩ := map_eq_some_iff.mp h
        exact .inl (.other hrows hfree hrun)
      · rw [if_neg hfree] at h
        cases h
    · cases h
  | ask =>
    simp only [act] at h
    split at h
    · next hnone =>
      cases h
      exact .inr (.inr (.inr (.ask hnone)))
    · cases h
  | answer =>
    obtain ⟨last, hlast, rfl⟩ := act_answer h
    exact .inr (.inr (.inr (.answer hlast)))

/-- **Transactions that run at once**: no row is held twice, what each of them has read
holds, and so far it has been one transaction after another. -/
structure InOrder (kind : RoomKind) (s : LedgerService) : Prop where
  apart : HeldRows.Apart LedgerTask.held s.tasks
  fits : ∀ t ∈ s.tasks, t.Fits kind s.ledger
  run : (RoomRun.system kind).Reachable ⟨s.ledger, [], []⟩

variable (hs : s.InOrder kind)
include hs

/-- **A transaction that commits could as well have run alone**, then. -/
theorem perform_of_commit {w : LedgerWrite} {numbers : RoomRecord}
    {l : RoomLedger} (hi : s.tasks[i]? = some (.writing w held [] numbers))
    (h : s.ledger.written kind numbers w = some l) :
    s.ledger.admits w = true ∧ s.ledger.allocate kind w = some numbers ∧
      s.ledger.perform kind w = some l := by
  obtain ⟨-, hbegins, hstays, hnumbers⟩ := hs.fits _ (mem_of_getElem? hi)
  have hadmits := admits_of_stays hbegins hstays (fresh_of_written h)
  refine ⟨hadmits, hnumbers, ?_⟩
  unfold RoomLedger.perform
  rw [if_pos hadmits, hnumbers]
  exact h

theorem fits_commit {w : LedgerWrite} {numbers : RoomRecord} {l : RoomLedger} (hi : s.tasks[i]? = some (.writing w held [] numbers))
    (h : s.ledger.written kind numbers w = some l) {j : ℕ} (hj : s.tasks[j]? = some t) (hne : i ≠ j) :
    t.Fits kind l := by
  have hheld := (hs.fits _ (mem_of_getElem? hi)).1
  refine (hs.fits t (mem_of_getElem? hj)).spares (spares_written h)
    (fun r hr hrow => ?_) fun hroom => ?_
  · exact hs.apart.notMem hi hj hne (.tail _ (hheld r hrow)) hr
  · exact absurd hroom (hs.apart.notMem hi hj hne (.head _))

omit hs

/-- The room's row is changed by who has it. -/
theorem room_of_env {a : RoomRunAction} {rows : List RoomRow} {l : RoomLedger}
    (hrows : envRows a = some rows) (h : RoomRun.act kind ⟨l, [], []⟩ a = some run)
    (hroom : .room ∉ rows) : run.ledger.room = l.room := by
  cases a with
  | leaveRoom =>
    cases hrows
    exact absurd (.tail _ (.head _)) hroom
  | leaveWorkspace | markThreadRead =>
    cases h
    rfl
  | followThread =>
    obtain ⟨l', hl', rfl⟩ := map_eq_some_iff.mp h
    have hsame := sameButThreads_followFromNow hl'
    show l'.room = l.room
    rw [hsame]
  | write | markRoomRead | marked => exact absurd hrows (by simp [envRows])
  | _ =>
    cases hrows
    exact absurd (.head _) hroom

/-- `MarkRoomRead` has no part in it. -/
theorem run_of_env {a : RoomRunAction} {rows : List RoomRow} {l : RoomLedger}
    (hrows : envRows a = some rows) (h : RoomRun.act kind ⟨l, [], []⟩ a = some run) :
    run = ⟨run.ledger, [], []⟩ := by
  cases a with
  | leaveWorkspace | markThreadRead =>
    cases h
    rfl
  | write | markRoomRead | marked => exact absurd hrows (by simp [envRows])
  | _ =>
    obtain ⟨l', -, rfl⟩ := map_eq_some_iff.mp h
    rfl

include hs

theorem InOrder.act (h : act kind s a = some s') : s'.InOrder kind := by
  rcases act_cases h with hcommit | ⟨t, rfl, hheld, hfits, -⟩ |
    ⟨i, t, t', hi, -, rfl, hgoes, -⟩ | hreads
  · cases hcommit with
    | @write i w held numbers l hi hl =>
      obtain ⟨-, -, hperform⟩ := perform_of_commit hs hi hl
      refine ⟨hs.apart.set hi fun r hr => absurd hr not_mem_nil, fun t ht => ?_, ?_⟩
      · obtain ⟨j, hj⟩ := mem_iff_getElem?.mp ht
        rcases HeldRows.getElem?_set_cases hj with ⟨-, rfl⟩ | ⟨hne, hj⟩
        · trivial
        · exact fits_commit hs hi hl hj (Ne.symm hne)
      · refine hs.run.tail (a := .write w) trivial ?_
        show (s.ledger.perform kind w).map _ = _
        rw [hperform]
        rfl
    | @other a rows run hrows hfree hrun =>
      refine ⟨hs.apart, fun t ht => ?_, ?_⟩
      · refine (hs.fits t ht).spares (spares_env hrows hrun)
          (fun r hr hrow => hfree r hrow t ht hr) fun hroom => ?_
        exact room_of_env hrows hrun fun hrow => hfree _ hrow t ht hroom
      · refine hs.run.tail (a := a) trivial ?_
        show RoomRun.act kind _ a = some ⟨run.ledger, [], []⟩
        rw [hrun]
        exact congrArg some (run_of_env hrows hrun)
  · refine ⟨hs.apart.concat hheld, fun u hu => ?_, hs.run⟩
    rcases mem_append.mp hu with hu | hu
    · exact hs.fits u hu
    · rw [mem_singleton.mp hu]
      exact hfits
  · refine ⟨hs.apart.set hi hgoes.rows, fun u hu => ?_, hs.run⟩
    rcases mem_or_eq_of_mem_set hu with hu | rfl
    · exact hs.fits u hu
    · exact hgoes.fits (hs.fits t (mem_of_getElem? hi))
  · cases hreads with
    | _ => exact ⟨hs.apart, hs.fits, hs.run⟩

omit hs

theorem inOrder_of_init (h : (system kind).init s) : s.InOrder kind := by
  rw [show s = ⟨.empty, [], [], [], ⟨0, none, []⟩⟩ from h]
  exact ⟨HeldRows.apart_nil, fun t ht => absurd ht not_mem_nil, .start rfl⟩

include hs

theorem InOrder.sound : s.ledger.Sound kind :=
  (hs.run.invariant (I := RoomRun.Sound kind) (fun _ hinit => RoomRun.sound_of_init hinit)
    fun _ _ _ hr _ hstep => hr.act hstep).ledger

theorem InOrder.threadSound : s.ledger.ThreadSound :=
  hs.run.invariant (I := fun r => r.ledger.ThreadSound)
    (fun _ hinit => RoomRun.threadSound_of_init hinit)
    fun _ _ _ hr _ hstep => (RoomRun.keepsThreads_act hr hstep).sound

end LedgerService

end Hibari
