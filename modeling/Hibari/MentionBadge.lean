import Hibari.RoomSummary
import Hibari.TransitionSystem

/-!
# The badge of mentions

The server writes a row for each mention of a message when it is sent, and counts the rows that are
beyond the read position. A client has a number in its summary of the room: one more for each message
that is for the user, and what a read notice says, when one arrives that reads further. The read
position moves by one statement and the rows are counted by another, and notices arrive in any order and
more than once.

Here the client is that of `applyMessageToRoom` and `applyReadToRoom`. What a notice counted is written
down beside it, and so is how often the client has counted an `@here` that was not for the user; nothing
reads these. Apart from `@here` the two numbers agree as long as each notice comes in turn (`InTurn`);
what happens otherwise is shown by a run.
-/

namespace Hibari

/-! ## Rows -/

/-- `message_mentions`. A row for the whole room has no user. -/
structure MentionRow where
  messageId : Ulid
  userId : Option Ulid
  kind : MentionKind
  deriving DecidableEq

/-- `CreateUserMentions`: a row for each member that is named and has none. -/
def createUserMentions (members ids : List Ulid) (kind : MentionKind) (messageId : Ulid)
    (rows : List MentionRow) : List MentionRow :=
  rows ++ (members.filter fun u => u ∈ ids ∧ some u ∉ rows.map MentionRow.userId).map fun u =>
    ⟨messageId, some u, kind⟩

/-- `resolveHere`: the members that are active, if the body has `@here`. -/
def resolveHere (active members : List Ulid) (m : Message) : List Ulid :=
  if m.mentions.any fun x => x.kind = .here then members.filter fun u => u ∈ active else []

/-- `createMessageMentions`. -/
def createMessageMentions (members : List Ulid) (m : Message) (here : List Ulid) :
    List MentionRow :=
  let ids := m.mentions.filterMap fun x => if x.kind = .user then x.user.map UserProfile.id else none
  let rows := createUserMentions members ids .user m.id []
  let rows := if m.mentions.any fun x => x.kind = .channel then rows ++ [⟨m.id, none, .channel⟩]
    else rows
  if (m.mentions.any fun x => x.kind = .here) && here ≠ [] then
    createUserMentions members here .here m.id rows
  else rows

/-- A message of the room, with its rows. -/
structure MentionPost where
  message : Message
  rows : List MentionRow
  deriving DecidableEq

/-- The rows of a message that are for a user. -/
def MentionPost.count (userId : Ulid) (p : MentionPost) : ℕ :=
  p.rows.countP fun r => r.userId = none ∨ r.userId = some userId

/-- The rows that are for a user, of messages of some kind. -/
def countMentions (userId : Ulid) (posts : List MentionPost) (p : MentionPost → Prop)
    [DecidablePred p] : ℕ := (posts.map fun x => if p x then x.count userId else 0).sum

/-! ## The system -/

/-- **The server, what it has sent, and a client.** -/
structure BadgeState where
  posts : List MentionPost
  lastMessageSeq : ℕ
  lastUserSeq : ℕ
  lastReadSeq : ℕ
  lastReadUserSeq : ℕ
  /-- Read positions that moved, whose rows are to be counted. -/
  reading : List (ℕ × ℕ)
  /-- The notices, and what was counted for each. -/
  log : List (RoomNotice × List MentionPost)
  delivered : List ℕ
  room : Room
  /-- What the client has counted for `@here` while the user was not active. -/
  extra : ℕ

/-- **What happens.** -/
inductive BadgeAction
  | post (m : Message) (members active : List Ulid)
  /-- `MarkRoomRead` moves the read position. -/
  | advance (seq : ℕ)
  /-- It counts, or fails to. -/
  | count (i : ℕ) (ok : Bool)
  | deliver (i : ℕ)
  deriving DecidableEq

namespace BadgeState

variable (userId : Ulid) (s : BadgeState)

/-- `CountRoomMentions`. -/
def countRoomMentions : ℕ :=
  countMentions userId s.posts fun p => s.lastReadUserSeq < p.message.userSeq

/-- How much was said up to a place. -/
def userSeqAt (seq : ℕ) : ℕ :=
  ((s.posts.filter fun p => p.message.seq ≤ seq).getLast?.map fun p => p.message.userSeq).getD 0

/-- A message that fits what was given out. -/
def Posts (m : Message) (members : List Ulid) : Prop :=
  inChannel m = true ∧ s.lastMessageSeq < m.seq ∧ s.lastUserSeq ≤ m.userSeq ∧
    (m.kind = .user → s.lastUserSeq < m.userSeq) ∧ (m.kind = .system → m.mentions = []) ∧
    userId ∈ members ∧ members.Nodup

instance (m : Message) (members : List Ulid) : Decidable (s.Posts userId m members) := by
  unfold Posts
  infer_instance

/-- A message is sent, and read by its sender. -/
def post (m : Message) (members active : List Ulid) : BadgeState :=
  let mine := isMine userId m
  { s with
    posts := s.posts ++ [⟨m, createMessageMentions members m (resolveHere active members m)⟩]
    lastMessageSeq := m.seq
    lastUserSeq := m.userSeq
    lastReadSeq := if mine then max s.lastReadSeq m.seq else s.lastReadSeq
    lastReadUserSeq := if mine then max s.lastReadUserSeq m.userSeq else s.lastReadUserSeq
    log := s.log ++ [(.message m, [])] }

/-- `AdvanceLastReadSeq`. -/
def advance (seq : ℕ) : BadgeState :=
  let read := max s.lastReadSeq (min seq s.lastMessageSeq)
  let readUser := max s.lastReadUserSeq (s.userSeqAt (min seq s.lastMessageSeq))
  { s with
    lastReadSeq := read
    lastReadUserSeq := readUser
    reading := s.reading ++ [(read, readUser)] }

/-- Whether a message adds to the number of the client. -/
def adds (m : Message) : ℕ := if mentionsUser m.mentions userId then 1 else 0

/-- How many rows it has for the user. -/
def rowsOf (m : Message) : ℕ :=
  ((s.posts.find? fun p => p.message = m).map (MentionPost.count userId)).getD 0

/-- How far the client has read. -/
def readUserSeq : ℕ := s.room.lastReadUserSeq.getD 0

/-- A read notice that reads further. -/
def Reads (r : ReadNotice) : Prop :=
  s.room.lastReadSeq.getD 0 < r.lastReadSeq ∨ s.readUserSeq < r.lastReadUserSeq

instance (r : ReadNotice) : Decidable (s.Reads r) := by
  unfold Reads
  infer_instance

/-- What the client then has counted beyond the rows. -/
def extraAfter : RoomNotice → ℕ
  | .message m => if s.room.lastMessageSeq < m.seq ∧ isMine userId m = false then
      s.extra + (adds userId m - s.rowsOf userId m) else s.extra
  | .read r => if s.Reads r then 0 else s.extra

/-- What a count counts. -/
def counted (ok : Bool) : List MentionPost :=
  if ok then s.posts.filter fun p => s.lastReadUserSeq < p.message.userSeq else []

/-- One step. -/
def act : BadgeAction → Option BadgeState
  | .post m members active => if s.Posts userId m members then some (s.post userId m members active)
    else none
  | .advance seq => some (s.advance seq)
  | .count i ok => s.reading[i]?.map fun read => { s with
      reading := s.reading.eraseIdx i
      log := s.log ++ [(.read ⟨read.1, read.2, if ok then s.countRoomMentions userId else 0⟩,
        s.counted ok)] }
  | .deliver i => s.log[i]?.map fun notice => { s with
      delivered := i :: s.delivered
      room := applyNotice userId s.room notice.1
      extra := s.extraAfter userId notice.1 }

/-- The room as the server gives it. -/
structure Loaded : Prop where
  lastMessageSeq : s.room.lastMessageSeq = s.lastMessageSeq
  lastReadSeq : s.room.lastReadSeq = some s.lastReadSeq
  lastReadUserSeq : s.room.lastReadUserSeq = some s.lastReadUserSeq
  mentionCount : s.room.mentionCount = s.countRoomMentions userId

/-- Messages that are in order: numbers grow, and what was sent by the user is read. -/
structure Ordered : Prop where
  seq : s.posts.Pairwise fun p q => p.message.seq < q.message.seq ∧
    p.message.userSeq ≤ q.message.userSeq
  last : ∀ p ∈ s.posts, p.message.seq ≤ s.lastMessageSeq ∧ p.message.userSeq ≤ s.lastUserSeq
  mine : ∀ p ∈ s.posts, isMine userId p.message = true → p.message.userSeq ≤ s.lastReadUserSeq

/-- **The runs** from a room that was just loaded. -/
def system : TransitionSystem BadgeState BadgeAction where
  init s := s.Ordered userId ∧ s.Loaded userId ∧ s.reading = [] ∧ s.log = [] ∧ s.delivered = [] ∧
    s.extra = 0
  step s a := act userId s a

/-! ## In turn -/

/-- **A notice comes in turn.** A message is old, or: what comes between is not for the user, and not of
the user; a message of the user comes when nothing for the user is unread, and further than what was
read; one of somebody else has no more rows for the user than the client counts, and if it has one it is
not read. A read notice reads no further, or has counted the mentions that have come and are not read
then. -/
def NoticeInTurn (notice : RoomNotice × List MentionPost) : Prop :=
  match notice.1 with
  | .message m => s.room.lastMessageSeq < m.seq →
    (∀ p ∈ s.posts, s.room.lastMessageSeq < p.message.seq → p.message.seq < m.seq →
      p.count userId = 0 ∧ isMine userId p.message = false) ∧
    if isMine userId m then s.readUserSeq ≤ m.userSeq ∧
      ∀ p ∈ s.posts, p.message.seq ≤ s.room.lastMessageSeq → 0 < p.count userId →
        p.message.userSeq ≤ s.readUserSeq
    else ∀ p ∈ s.posts, p.message = m → p.count userId ≤ adds userId m ∧
      (0 < p.count userId → s.readUserSeq < m.userSeq)
  | .read r => s.Reads r → ∀ p ∈ s.posts, 0 < p.count userId → (p ∈ notice.2 ↔
      p.message.seq ≤ s.room.lastMessageSeq ∧
        max s.readUserSeq r.lastReadUserSeq < p.message.userSeq)

instance (notice : RoomNotice × List MentionPost) : Decidable (s.NoticeInTurn userId notice) := by
  unfold NoticeInTurn
  split <;> infer_instance

/-- **The condition** on steps. -/
def InTurn : BadgeAction → Prop
  | .deliver i => ∀ notice ∈ s.log[i]?, s.NoticeInTurn userId notice
  | _ => True

instance (a : BadgeAction) : Decidable (s.InTurn userId a) := by
  cases a <;> unfold InTurn <;> infer_instance

end BadgeState

end Hibari
