import Hibari.Message
import Hibari.Delivery

/-!
# The summary of a room in the sidebar

What the sidebar shows of a room – its last message, how far it was read and
how much is unread – is kept up to date by two rules of `rules/messages.ts`:
one for a message that was posted, edited or deleted, and one for a read
position. They arrive on different channels and may overtake each other.

The summary should not depend on the order. It does, and
`summary_settled_iff` says exactly when: a read position must not overtake a
message it covers, since the rule for messages takes the message's own
position whatever was read; and an own message that a later one of somebody
else overtakes must be covered by a read position, since an overtaken message
is ignored together with the read position that it carries.
-/

namespace Hibari

open List

/-- The last message, as the sidebar shows it. -/
structure LastMessage where
  id : Ulid
  sender : UserProfile
  kind : MessageKind
  system : Option SystemEvent
  body : String
  createdAt : DateTime
  deleted : Bool
  deriving DecidableEq

/-- What the client keeps of a room's summary. The read position is absent for
a room the user is not a member of. -/
structure Room where
  lastMessageSeq : ℕ
  lastUserSeq : ℕ
  lastMessageAt : Option DateTime
  lastMessage : Option LastMessage
  lastReadSeq : Option ℕ
  lastReadUserSeq : Option ℕ
  unreadCount : ℤ
  mentionCount : ℕ
  deriving DecidableEq

/-- A read position, from the answer to a request or from an event. -/
structure ReadNotice where
  lastReadSeq : ℕ
  lastReadUserSeq : ℕ
  mentionCount : ℕ
  deriving DecidableEq

/-- Whether a mention is for the user: by name, or for everybody. -/
def mentionsUser (mentions : List Mention) (userId : Ulid) : Bool :=
  mentions.any (fun m =>
    if m.kind = .user then m.user.any (fun u => decide (u.id = userId)) else true)

/-- A message as the sidebar shows it. -/
def toLastMessage (message : Message) : LastMessage where
  id := message.id
  sender := message.sender
  kind := message.kind
  system := message.system
  body := message.body
  createdAt := message.createdAt
  deleted := message.deletedAt.isSome

/-- Whether a message is something the user said. -/
def isMine (userId : Ulid) (message : Message) : Bool :=
  decide (message.sender.id = userId ∧ message.kind = .user)

/-- Reflect a message in the summary of its room. An edit or a deletion
matters to the last message only; a new message matters when it is newer than
the last one. -/
def applyMessageToRoom (room : Room) (message : Message) (userId : Ulid) (created : Bool) : Room :=
  if !inChannel message then room
  else if !created then
    if room.lastMessage.map (·.id) ≠ some message.id then room
    else if message.deletedAt.isSome then { room with lastMessage := none }
    else { room with lastMessage := some (toLastMessage message) }
  else if message.seq ≤ room.lastMessageSeq then room
  else
    let mine := isMine userId message
    let lastReadSeq :=
      if room.lastReadSeq.isSome ∧ mine then some message.seq else room.lastReadSeq
    let lastReadUserSeq :=
      if room.lastReadUserSeq.isSome ∧ mine then some message.userSeq else room.lastReadUserSeq
    { room with
      lastMessageSeq := message.seq
      lastUserSeq := message.userSeq
      lastMessageAt := some message.createdAt
      lastMessage := some (toLastMessage message)
      lastReadSeq := lastReadSeq
      lastReadUserSeq := lastReadUserSeq
      unreadCount :=
        match lastReadUserSeq with
        | none => room.unreadCount
        | some read => (message.userSeq : ℤ) - read
      mentionCount :=
        if !mine && mentionsUser message.mentions userId then room.mentionCount + 1
        else room.mentionCount }

/-- Move the read position on, never back, and count what is unread again. -/
def applyReadToRoom (room : Room) (read : ReadNotice) : Room :=
  match room.lastReadSeq, room.lastReadUserSeq with
  | some lastReadSeq, some lastReadUserSeq =>
    let next := max lastReadSeq read.lastReadSeq
    let nextUser := max lastReadUserSeq read.lastReadUserSeq
    let unread := max 0 ((room.lastUserSeq : ℤ) - nextUser)
    let advanced := lastReadSeq < next ∨ lastReadUserSeq < nextUser
    let mention := if advanced then read.mentionCount else room.mentionCount
    { room with
      lastReadSeq := some next
      lastReadUserSeq := some nextUser
      unreadCount := unread
      mentionCount := mention }
  | _, _ => room

/-! ## Notices in any order -/

/-- What arrives about a room: a message that was posted, or a read
position. -/
inductive RoomNotice
  | message (message : Message)
  | read (read : ReadNotice)
  deriving DecidableEq

/-- What a notice does to the summary. -/
def applyNotice (userId : Ulid) (room : Room) : RoomNotice → Room
  | .message message => applyMessageToRoom room message userId true
  | .read read => applyReadToRoom room read

/-- The part of the summary that is counted. -/
def Room.counters (room : Room) : ℕ × ℕ × Option ℕ × Option ℕ × ℤ :=
  (room.lastMessageSeq, room.lastUserSeq, room.lastReadSeq, room.lastReadUserSeq, room.unreadCount)

/-- The unread count is what was said less what was read, and never below
zero. -/
def Room.Counted (room : Room) : Prop :=
  ∃ read, room.lastReadUserSeq = some read ∧
    room.unreadCount = max 0 ((room.lastUserSeq : ℤ) - read)

/-- The read position does not move back. -/
def Room.ReadAdvances (room next : Room) : Prop :=
  ∃ a b c d, room.lastReadSeq = some a ∧ room.lastReadUserSeq = some b ∧
    next.lastReadSeq = some c ∧ next.lastReadUserSeq = some d ∧ a ≤ c ∧ b ≤ d

/-- **A settled summary**: however the notices are ordered and repeated, the
counters come out the same, the read position never moves back on the way, and
the unread count is right at every moment. -/
structure Settles (userId : Ulid) (room : Room) (notices : List RoomNotice) : Prop where
  same : ∀ l l', Delivery.Delivers notices l → Delivery.Delivers notices l' →
    (l.foldl (applyNotice userId) room).counters = (l'.foldl (applyNotice userId) room).counters
  advances : ∀ p n q, Delivery.Delivers notices (p ++ n :: q) →
    (p.foldl (applyNotice userId) room).ReadAdvances ((p ++ [n]).foldl (applyNotice userId) room)
  counted : ∀ p q, Delivery.Delivers notices (p ++ q) → (p.foldl (applyNotice userId) room).Counted

/-- **Notices of one server history**, for a room that the user is a member
of: a position in the room names one message, what was said counts up along
the positions, a read position counts what it covers, and the summary starts
at some moment of the same history. -/
structure OfHistory (room : Room) (notices : List RoomNotice) : Prop where
  read_le : ∃ a b, room.lastReadSeq = some a ∧ room.lastReadUserSeq = some b ∧
    a ≤ room.lastMessageSeq ∧ b ≤ room.lastUserSeq ∧
    room.unreadCount = (room.lastUserSeq : ℤ) - b
  seq_inj : ∀ m m', .message m ∈ notices → .message m' ∈ notices → m.seq = m'.seq → m = m'
  userSeq_mono : ∀ m m', .message m ∈ notices → .message m' ∈ notices → m.seq ≤ m'.seq →
    m.userSeq ≤ m'.userSeq
  userSeq_room : ∀ m, .message m ∈ notices → room.lastMessageSeq < m.seq →
    room.lastUserSeq ≤ m.userSeq
  userSeq_read : ∀ m r, .message m ∈ notices → .read r ∈ notices → m.seq ≤ r.lastReadSeq →
    m.userSeq ≤ r.lastReadUserSeq

/-- A message that is news to the summary. -/
def IsNews (room : Room) (notices : List RoomNotice) (m : Message) : Prop :=
  RoomNotice.message m ∈ notices ∧ inChannel m = true ∧ room.lastMessageSeq < m.seq

/-- **Nothing that matters is overtaken**: no read position is past a message
that is news, and an own message that is news is either followed by nothing of
somebody else, or covered by a read position. -/
structure NotOvertaken (userId : Ulid) (room : Room) (notices : List RoomNotice) : Prop where
  read_le : ∀ m r, IsNews room notices m → .read r ∈ notices →
    r.lastReadUserSeq ≤ m.userSeq ∧ (isMine userId m = true → r.lastReadSeq ≤ m.seq)
  mine : ∀ m, IsNews room notices m → isMine userId m = true →
    (∃ n, IsNews room notices n ∧ isMine userId n = true ∧
      ∀ m', IsNews room notices m' → m'.seq ≤ n.seq) ∨
    ∃ r, .read r ∈ notices ∧ m.seq ≤ r.lastReadSeq

/-! ## What one notice does -/

section Steps

variable {userId : Ulid} {room room₀ : Room} {m : Message} {r : ReadNotice} {a b : ℕ}
  {notices p : List RoomNotice}

/-- A message that is no news leaves the summary as it is. -/
theorem applyNotice_message_of_old (h : inChannel m = true → m.seq ≤ room.lastMessageSeq) :
    applyNotice userId room (.message m) = room := by
  show applyMessageToRoom room m userId true = room
  unfold applyMessageToRoom
  cases hch : inChannel m with
  | false => rfl
  | true =>
    simp only [Bool.not_true, Bool.false_eq_true, if_false]
    rw [if_pos (h hch)]

/-- The counters after a message that is news, in a room that is read up to
`a`. -/
theorem applyNotice_message_of_news (userId : Ulid) (hch : inChannel m = true)
    (hlt : room.lastMessageSeq < m.seq) (ha : room.lastReadSeq = some a)
    (hb : room.lastReadUserSeq = some b) :
    (applyNotice userId room (.message m)).counters =
      if isMine userId m = true then (m.seq, m.userSeq, some m.seq, some m.userSeq, 0)
      else (m.seq, m.userSeq, some a, some b, (m.userSeq : ℤ) - b) := by
  show (applyMessageToRoom room m userId true).counters = _
  unfold applyMessageToRoom
  rw [hch, if_neg (by simp), if_neg (by simp), if_neg hlt.not_ge]
  cases hmine : isMine userId m <;> simp [Room.counters, ha, hb]

theorem applyNotice_read (userId : Ulid) (r : ReadNotice) (ha : room.lastReadSeq = some a) (hb : room.lastReadUserSeq = some b) :
    (applyNotice userId room (.read r)).counters =
      (room.lastMessageSeq, room.lastUserSeq, some (max a r.lastReadSeq),
        some (max b r.lastReadUserSeq),
        max 0 ((room.lastUserSeq : ℤ) - (max b r.lastReadUserSeq : ℕ))) := by
  show (applyReadToRoom room r).counters = _
  unfold applyReadToRoom
  rw [ha, hb]
  rfl

theorem isNews_concat_message {x : Message} : IsNews room₀ (p ++ [.message m]) x ↔
      IsNews room₀ p x ∨ (x = m ∧ inChannel m = true ∧ room₀.lastMessageSeq < m.seq) := by
  unfold IsNews
  rw [mem_append, mem_singleton, RoomNotice.message.injEq]
  constructor
  · rintro ⟨hx | rfl, hrest⟩
    · exact .inl ⟨hx, hrest⟩
    · exact .inr ⟨rfl, hrest⟩
  · rintro (⟨hx, hrest⟩ | ⟨rfl, hrest⟩)
    · exact ⟨.inl hx, hrest⟩
    · exact ⟨.inr rfl, hrest⟩

theorem isNews_concat_read {x : Message} : IsNews room₀ (p ++ [.read r]) x ↔ IsNews room₀ p x := by
  unfold IsNews
  rw [mem_append, mem_singleton]
  simp

theorem read_mem_concat_message {x : ReadNotice} :
    RoomNotice.read x ∈ p ++ [.message m] ↔ RoomNotice.read x ∈ p := by
  rw [mem_append, mem_singleton]
  simp

/-- Where the read position can come from: the start, a read position that
arrived, or an own message. -/
def ReadSource (userId : Ulid) (room₀ : Room) (p : List RoomNotice) (a : ℕ) : Prop :=
  room₀.lastReadSeq = some a ∨ (∃ r, RoomNotice.read r ∈ p ∧ a = r.lastReadSeq) ∨
    ∃ m, IsNews room₀ p m ∧ isMine userId m = true ∧ a = m.seq

/-- The same for what was read of what people said. -/
def ReadUserSource (userId : Ulid) (room₀ : Room) (p : List RoomNotice) (b : ℕ) : Prop :=
  room₀.lastReadUserSeq = some b ∨ (∃ r, RoomNotice.read r ∈ p ∧ b = r.lastReadUserSeq) ∨
    ∃ m, IsNews room₀ p m ∧ isMine userId m = true ∧ b = m.userSeq

/-- **The summary after some notices**: the last message is the newest that
arrived, and the read position covers the start, every read position that
arrived, and the last message if it is an own one. -/
structure Upheld (userId : Ulid) (room₀ room : Room) (p : List RoomNotice) (a b : ℕ) : Prop where
  lastReadSeq : room.lastReadSeq = some a
  lastReadUserSeq : room.lastReadUserSeq = some b
  lastMessageSeq : IsGreatest
    {x | x = room₀.lastMessageSeq ∨ ∃ m, IsNews room₀ p m ∧ x = m.seq} room.lastMessageSeq
  lastUserSeq : IsGreatest
    {x | x = room₀.lastUserSeq ∨ ∃ m, IsNews room₀ p m ∧ x = m.userSeq} room.lastUserSeq
  source : ReadSource userId room₀ p a
  userSource : ReadUserSource userId room₀ p b
  start_le : ∀ x, room₀.lastReadSeq = some x → x ≤ a
  startUser_le : ∀ x, room₀.lastReadUserSeq = some x → x ≤ b
  read_le : ∀ r, RoomNotice.read r ∈ p → r.lastReadSeq ≤ a ∧ r.lastReadUserSeq ≤ b
  mine_le : ∀ m, IsNews room₀ p m → isMine userId m = true → m.seq = room.lastMessageSeq →
    m.seq ≤ a ∧ m.userSeq ≤ b
  counted : room.unreadCount = max 0 ((room.lastUserSeq : ℤ) - b)

variable (h : Upheld userId room₀ room p a b)
include h

theorem Upheld.start_lt (hlt : room.lastMessageSeq < m.seq) : room₀.lastMessageSeq < m.seq :=
  (h.lastMessageSeq.2 (.inl rfl)).trans_lt hlt

omit h

theorem counters_ext {room' : Room} {x y : ℕ} {c d : Option ℕ} {u : ℤ}
    (h : room'.counters = (x, y, c, d, u)) :
    room'.lastMessageSeq = x ∧ room'.lastUserSeq = y ∧ room'.lastReadSeq = c ∧
      room'.lastReadUserSeq = d ∧ room'.unreadCount = u := by
  simpa [Room.counters] using h

variable (hof : OfHistory room₀ notices)
include hof

/-- At the start nothing has arrived. -/
theorem upheld_start : ∃ a b, Upheld userId room₀ room₀ [] a b := by
  obtain ⟨a, b, ha, hb, -, hble, hunread⟩ := hof.read_le
  have hnone : ∀ x, ¬ IsNews room₀ [] x := fun x hx => absurd hx.1 not_mem_nil
  refine ⟨a, b, ha, hb, ⟨Or.inl rfl, ?_⟩, ⟨Or.inl rfl, ?_⟩, Or.inl ha, Or.inl hb, ?_, ?_,
    fun r hr => absurd hr not_mem_nil, fun x hx => absurd hx (hnone x), ?_⟩
  · rintro x (rfl | ⟨y, hy, -⟩)
    · exact le_rfl
    · exact absurd hy (hnone y)
  · rintro x (rfl | ⟨y, hy, -⟩)
    · exact le_rfl
    · exact absurd hy (hnone y)
  · exact fun x hx => (Option.some.inj (hx.symm.trans ha)).le
  · exact fun x hx => (Option.some.inj (hx.symm.trans hb)).le
  · rw [hunread, max_eq_right (sub_nonneg.mpr (by exact_mod_cast hble))]

omit hof

include h

include hof

/-- What was said up to a message that arrived is counted. -/
theorem Upheld.userSeq_le (hp : ∀ n ∈ p, n ∈ notices) (hm : RoomNotice.message m ∈ notices)
    (hstart : room₀.lastMessageSeq < m.seq) (hle : m.seq ≤ room.lastMessageSeq) :
    m.userSeq ≤ room.lastUserSeq := by
  rcases h.lastMessageSeq.1 with heq | ⟨m₁, hm₁, heq⟩
  · exact absurd hle (heq ▸ hstart.not_ge)
  · exact (hof.userSeq_mono m m₁ hm (hp _ hm₁.1) (heq ▸ hle)).trans
      (h.lastUserSeq.2 (.inr ⟨m₁, hm₁, rfl⟩))

/-- A message that is no news is taken in by being ignored. -/
theorem Upheld.old (hp : ∀ n ∈ p, n ∈ notices) (hm : RoomNotice.message m ∈ notices)
    (hold : inChannel m = true → m.seq ≤ room.lastMessageSeq) :
    Upheld userId room₀ room (p ++ [.message m]) a b where
  lastReadSeq := h.lastReadSeq
  lastReadUserSeq := h.lastReadUserSeq
  lastMessageSeq := by
    refine ⟨h.lastMessageSeq.1.imp id fun ⟨x, hx, he⟩ =>
      ⟨x, isNews_concat_message.mpr (.inl hx), he⟩, ?_⟩
    rintro x (rfl | ⟨y, hy, rfl⟩)
    · exact h.lastMessageSeq.2 (.inl rfl)
    · rcases isNews_concat_message.mp hy with hy | ⟨rfl, hch, -⟩
      · exact h.lastMessageSeq.2 (.inr ⟨y, hy, rfl⟩)
      · exact hold hch
  lastUserSeq := by
    refine ⟨h.lastUserSeq.1.imp id fun ⟨x, hx, he⟩ =>
      ⟨x, isNews_concat_message.mpr (.inl hx), he⟩, ?_⟩
    rintro x (rfl | ⟨y, hy, rfl⟩)
    · exact h.lastUserSeq.2 (.inl rfl)
    · rcases isNews_concat_message.mp hy with hy | ⟨rfl, hch, hlt⟩
      · exact h.lastUserSeq.2 (.inr ⟨y, hy, rfl⟩)
      · exact h.userSeq_le hof hp hm hlt (hold hch)
  source := h.source.imp id (Or.imp (fun ⟨r, hr, he⟩ => ⟨r, read_mem_concat_message.mpr hr, he⟩)
    (fun ⟨x, hx, he⟩ => ⟨x, isNews_concat_message.mpr (.inl hx), he⟩))
  userSource := h.userSource.imp id (Or.imp
    (fun ⟨r, hr, he⟩ => ⟨r, read_mem_concat_message.mpr hr, he⟩)
    (fun ⟨x, hx, he⟩ => ⟨x, isNews_concat_message.mpr (.inl hx), he⟩))
  start_le := h.start_le
  startUser_le := h.startUser_le
  read_le r hr := h.read_le r (read_mem_concat_message.mp hr)
  mine_le x hx hmine hseq := by
    rcases isNews_concat_message.mp hx with hx | ⟨rfl, hch, hlt⟩
    · exact h.mine_le x hx hmine hseq
    · -- the newest that arrived has the position of `x`, so it is `x`
      rcases h.lastMessageSeq.1 with heq | ⟨y, hy, heq⟩
      · exact absurd hlt (by rw [hseq, heq]; exact lt_irrefl _)
      · obtain rfl := hof.seq_inj x y hm (hp _ hy.1) (hseq.trans heq)
        exact h.mine_le x hy hmine hseq
  counted := h.counted

/-- The read position is not past a message that is news. -/
theorem Upheld.le_news (hno : NotOvertaken userId room₀ notices) (hp : ∀ n ∈ p, n ∈ notices)
    (hm : RoomNotice.message m ∈ notices) (hch : inChannel m = true)
    (hlt : room.lastMessageSeq < m.seq) :
    b ≤ m.userSeq ∧ (isMine userId m = true → a ≤ m.seq) := by
  have hnews : IsNews room₀ notices m := ⟨hm, hch, h.start_lt hlt⟩
  obtain ⟨a₀, b₀, ha₀, hb₀, hale, hble, -⟩ := hof.read_le
  have hbefore : ∀ x, IsNews room₀ p x → x.seq < m.seq :=
    fun x hx => (h.lastMessageSeq.2 (.inr ⟨x, hx, rfl⟩)).trans_lt hlt
  constructor
  · rcases h.userSource with hb | ⟨r, hr, rfl⟩ | ⟨x, hx, -, rfl⟩
    · obtain rfl : b₀ = b := Option.some.inj (hb₀.symm.trans hb)
      exact hble.trans (hof.userSeq_room m hm hnews.2.2)
    · exact (hno.read_le m r hnews (hp _ hr)).1
    · exact hof.userSeq_mono x m (hp _ hx.1) hm (hbefore x hx).le
  · intro hmine
    rcases h.source with ha | ⟨r, hr, rfl⟩ | ⟨x, hx, -, rfl⟩
    · obtain rfl : a₀ = a := Option.some.inj (ha₀.symm.trans ha)
      exact hale.trans hnews.2.2.le
    · exact (hno.read_le m r hnews (hp _ hr)).2 hmine
    · exact (hbefore x hx).le

omit hof

omit h

/-- The last message after one that is news. -/
theorem isGreatest_concat_news {start : ℕ} {f : Message → ℕ} {c : ℕ}
    (h : IsGreatest {x | x = start ∨ ∃ m, IsNews room₀ p m ∧ x = f m} c) (hle : c ≤ f m)
    (hch : inChannel m = true) (hlt : room₀.lastMessageSeq < m.seq) :
    IsGreatest {x | x = start ∨ ∃ y, IsNews room₀ (p ++ [.message m]) y ∧ x = f y} (f m) := by
  refine ⟨.inr ⟨m, isNews_concat_message.mpr (.inr ⟨rfl, hch, hlt⟩), rfl⟩, ?_⟩
  rintro x (rfl | ⟨y, hy, rfl⟩)
  · exact (h.2 (.inl rfl)).trans hle
  · rcases isNews_concat_message.mp hy with hy | ⟨rfl, -, -⟩
    · exact (h.2 (.inr ⟨y, hy, rfl⟩)).trans hle
    · exact le_rfl

include h

include hof

/-- What was said before a message that is news counts less. -/
theorem Upheld.lastUserSeq_le (hp : ∀ n ∈ p, n ∈ notices) (hm : RoomNotice.message m ∈ notices)
    (hlt : room.lastMessageSeq < m.seq) : room.lastUserSeq ≤ m.userSeq := by
  rcases h.lastUserSeq.1 with heq | ⟨x, hx, heq⟩
  · rw [heq]
    exact hof.userSeq_room m hm (h.start_lt hlt)
  · rw [heq]
    have hxm := (h.lastMessageSeq.2 (.inr ⟨x, hx, rfl⟩)).trans_lt hlt
    exact hof.userSeq_mono x m (hp _ hx.1) hm hxm.le

/-- A message that is news. An own one carries the read position along. -/
theorem Upheld.news (hno : NotOvertaken userId room₀ notices) (hp : ∀ n ∈ p, n ∈ notices)
    (hm : RoomNotice.message m ∈ notices) (hch : inChannel m = true)
    (hlt : room.lastMessageSeq < m.seq) :
    ∃ a' b', a ≤ a' ∧ b ≤ b' ∧
      Upheld userId room₀ (applyNotice userId room (.message m)) (p ++ [.message m]) a' b' := by
  have hcounters := applyNotice_message_of_news userId hch hlt h.lastReadSeq h.lastReadUserSeq
  obtain ⟨hble, hale⟩ := h.le_news hof hno hp hm hch hlt
  have hstart := h.start_lt hlt
  have hseqs := isGreatest_concat_news (f := Message.seq) h.lastMessageSeq hlt.le hch hstart
  have husers := isGreatest_concat_news (f := Message.userSeq) h.lastUserSeq
    (h.lastUserSeq_le hof hp hm hlt) hch hstart
  have hself : IsNews room₀ (p ++ [.message m]) m :=
    isNews_concat_message.mpr (.inr ⟨rfl, hch, hstart⟩)
  have hreads : ∀ r, RoomNotice.read r ∈ p ++ [.message m] →
      r.lastReadSeq ≤ a ∧ r.lastReadUserSeq ≤ b :=
    fun r hr => h.read_le r (read_mem_concat_message.mp hr)
  -- only `m` itself has its position
  have honly : ∀ x, IsNews room₀ (p ++ [.message m]) x → x.seq = m.seq → x = m := by
    intro x hx hseq
    rcases isNews_concat_message.mp hx with hx | ⟨rfl, -, -⟩
    · exact hof.seq_inj x m (hp _ hx.1) hm hseq
    · rfl
  cases hmine : isMine userId m with
  | true =>
    rw [hmine, if_pos rfl] at hcounters
    obtain ⟨hl, hu, hr, hru, hun⟩ := counters_ext hcounters
    refine ⟨m.seq, m.userSeq, hale hmine, hble, hr, hru, hl ▸ hseqs, hu ▸ husers,
      .inr (.inr ⟨m, hself, hmine, rfl⟩), .inr (.inr ⟨m, hself, hmine, rfl⟩),
      fun x hx => (h.start_le x hx).trans (hale hmine), fun x hx => (h.startUser_le x hx).trans hble,
      fun r hr => ⟨(hreads r hr).1.trans (hale hmine), (hreads r hr).2.trans hble⟩,
      fun x hx _ hseq => ?_, ?_⟩
    · obtain rfl := honly x hx (hseq.trans hl)
      exact ⟨le_rfl, le_rfl⟩
    · rw [hun, hu, sub_self, max_self]
  | false =>
    rw [hmine, if_neg Bool.false_ne_true] at hcounters
    obtain ⟨hl, hu, hr, hru, hun⟩ := counters_ext hcounters
    refine ⟨a, b, le_rfl, le_rfl, hr, hru, hl ▸ hseqs, hu ▸ husers, ?_, ?_, h.start_le,
      h.startUser_le, hreads, fun x hx hxmine hseq => ?_, ?_⟩
    · exact h.source.imp id (Or.imp (fun ⟨r, hr, he⟩ => ⟨r, read_mem_concat_message.mpr hr, he⟩)
        (fun ⟨x, hx, he⟩ => ⟨x, isNews_concat_message.mpr (.inl hx), he⟩))
    · exact h.userSource.imp id (Or.imp (fun ⟨r, hr, he⟩ => ⟨r, read_mem_concat_message.mpr hr, he⟩)
        (fun ⟨x, hx, he⟩ => ⟨x, isNews_concat_message.mpr (.inl hx), he⟩))
    · obtain rfl := honly x hx (hseq.trans hl)
      exact absurd (hmine.symm.trans hxmine) Bool.false_ne_true
    · rw [hun, hu, max_eq_right (sub_nonneg.mpr (by exact_mod_cast hble))]

omit hof

/-- A read position moves what was read on, to itself at least. -/
theorem Upheld.read (r : ReadNotice) :
    Upheld userId room₀ (applyNotice userId room (.read r)) (p ++ [.read r])
      (max a r.lastReadSeq) (max b r.lastReadUserSeq) := by
  obtain ⟨hl, hu, hr, hru, hun⟩ :=
    counters_ext (applyNotice_read userId r h.lastReadSeq h.lastReadUserSeq)
  have hmem : RoomNotice.read r ∈ p ++ [.read r] :=
    mem_append_right _ (.head _)
  refine ⟨hr, hru, ?_, ?_, ?_, ?_, fun x hx => (h.start_le x hx).trans (le_max_left _ _),
    fun x hx => (h.startUser_le x hx).trans (le_max_left _ _), fun x hx => ?_,
    fun x hx hmine hseq => ?_, ?_⟩
  · simpa only [isNews_concat_read, hl] using h.lastMessageSeq
  · simpa only [isNews_concat_read, hu] using h.lastUserSeq
  · rcases max_choice a r.lastReadSeq with hmax | hmax
    · rw [hmax]
      exact h.source.imp id (Or.imp (fun ⟨y, hy, he⟩ => ⟨y, mem_append_left _ hy, he⟩)
        (fun ⟨y, hy, he⟩ => ⟨y, isNews_concat_read.mpr hy, he⟩))
    · exact .inr (.inl ⟨r, hmem, hmax⟩)
  · rcases max_choice b r.lastReadUserSeq with hmax | hmax
    · rw [hmax]
      exact h.userSource.imp id (Or.imp (fun ⟨y, hy, he⟩ => ⟨y, mem_append_left _ hy, he⟩)
        (fun ⟨y, hy, he⟩ => ⟨y, isNews_concat_read.mpr hy, he⟩))
    · exact .inr (.inl ⟨r, hmem, hmax⟩)
  · cases mem_append.mp hx with
    | inl hx =>
      exact ⟨(h.read_le x hx).1.trans (le_max_left _ _), (h.read_le x hx).2.trans (le_max_left _ _)⟩
    | inr hx =>
      obtain rfl : x = r := RoomNotice.read.inj (mem_singleton.mp hx)
      exact ⟨le_max_right _ _, le_max_right _ _⟩
  · obtain ⟨hxa, hxb⟩ := h.mine_le x (isNews_concat_read.mp hx) hmine (hseq.trans hl)
    exact ⟨hxa.trans (le_max_left _ _), hxb.trans (le_max_left _ _)⟩
  · rw [hun, hu]

include hof

/-- **Each notice is taken in**, where nothing that matters is overtaken. -/
theorem Upheld.step
    (hno : NotOvertaken userId room₀ notices) (hp : ∀ n ∈ p, n ∈ notices) {n : RoomNotice}
    (hn : n ∈ notices) :
    ∃ a' b', a ≤ a' ∧ b ≤ b' ∧
      Upheld userId room₀ (applyNotice userId room n) (p ++ [n]) a' b' := by
  cases n with
  | read r => exact ⟨_, _, le_max_left _ _, le_max_left _ _, h.read r⟩
  | message m =>
    by_cases hnews : inChannel m = true ∧ room.lastMessageSeq < m.seq
    · exact h.news hof hno hp hn hnews.1 hnews.2
    · have hold : inChannel m = true → m.seq ≤ room.lastMessageSeq :=
        fun hch => not_lt.mp fun hlt => hnews ⟨hch, hlt⟩
      refine ⟨a, b, le_rfl, le_rfl, ?_⟩
      rw [applyNotice_message_of_old hold]
      exact h.old hof hp hn hold

end Steps

/-! ## When the summary settles -/

section Settles

variable {userId : Ulid} {room : Room} {notices l p q : List RoomNotice} {a b : ℕ} {c n sender : ℕ}

theorem foldl_concat (f : Room → RoomNotice → Room) (room : Room) (p : List RoomNotice)
    (n : RoomNotice) : (p ++ [n]).foldl f room = f (p.foldl f room) n := by
  rw [foldl_append, foldl_cons, foldl_nil]

/-- The summary is upheld at every moment of a delivery. -/
theorem upheld_of_delivers (hof : OfHistory room notices)
    (hno : NotOvertaken userId room notices) (hl : Delivery.Delivers notices (p ++ q)) :
    ∃ a b, Upheld userId room (p.foldl (applyNotice userId) room) p a b := by
  have hinv := Delivery.foldl_prefix_invariant (f := applyNotice userId) (l := p ++ q)
    (I := fun s done => (∀ n ∈ done, n ∈ notices) ∧ ∃ a b, Upheld userId room s done a b)
    ⟨fun n hn => absurd hn not_mem_nil, upheld_start hof⟩ ?_ (p := p) (q := q) rfl
  · exact hinv.2
  · rintro s done n hn ⟨hdone, a, b, h⟩
    have hn' := (hl n).mp hn
    refine ⟨fun x hx => ?_, ?_⟩
    · cases mem_append.mp hx with
      | inl hx => exact hdone x hx
      | inr hx => exact mem_singleton.mp hx ▸ hn'
    · obtain ⟨a', b', -, -, h'⟩ := h.step hof hno hdone hn'
      exact ⟨a', b', h'⟩

theorem isNews_congr (hl : Delivery.Delivers notices l) {m : Message} :
    IsNews room l m ↔ IsNews room notices m := by
  unfold IsNews
  rw [hl]

/-- **The read position at the end is the greatest there is**: an own message
that was ignored is covered by something that was not. -/
theorem Upheld.isGreatest (h : Upheld userId room (l.foldl (applyNotice userId) room) l a b)
    (hof : OfHistory room notices) (hno : NotOvertaken userId room notices)
    (hl : Delivery.Delivers notices l) :
    IsGreatest {x | ReadSource userId room notices x} a ∧
      IsGreatest {x | ReadUserSource userId room notices x} b := by
  have hcovered : ∀ m, IsNews room notices m → isMine userId m = true →
      m.seq ≤ a ∧ m.userSeq ≤ b := by
    intro m hm hmine
    rcases hno.mine m hm hmine with ⟨n, hn, hnmine, hmax⟩ | ⟨r, hr, hle⟩
    · -- the newest message is an own one, and it was not ignored
      have hlast : n.seq = (l.foldl (applyNotice userId) room).lastMessageSeq := by
        refine le_antisymm (h.lastMessageSeq.2 (.inr ⟨n, (isNews_congr hl).mpr hn, rfl⟩)) ?_
        rcases h.lastMessageSeq.1 with heq | ⟨x, hx, heq⟩
        · exact heq.le.trans hn.2.2.le
        · exact heq.le.trans (hmax x ((isNews_congr hl).mp hx))
      obtain ⟨hna, hnb⟩ := h.mine_le n ((isNews_congr hl).mpr hn) hnmine hlast
      exact ⟨(hmax m hm).trans hna, (hof.userSeq_mono m n hm.1 hn.1 (hmax m hm)).trans hnb⟩
    · obtain ⟨hra, hrb⟩ := h.read_le r ((hl _).mpr hr)
      exact ⟨hle.trans hra, (hof.userSeq_read m r hm.1 hr hle).trans hrb⟩
  constructor
  · refine ⟨h.source.imp id (Or.imp (fun ⟨r, hr, he⟩ => ⟨r, (hl _).mp hr, he⟩)
      (fun ⟨m, hm, he⟩ => ⟨m, (isNews_congr hl).mp hm, he⟩)), ?_⟩
    rintro x (hx | ⟨r, hr, rfl⟩ | ⟨m, hm, hmine, rfl⟩)
    · exact h.start_le x hx
    · exact (h.read_le r ((hl _).mpr hr)).1
    · exact (hcovered m hm hmine).1
  · refine ⟨h.userSource.imp id (Or.imp (fun ⟨r, hr, he⟩ => ⟨r, (hl _).mp hr, he⟩)
      (fun ⟨m, hm, he⟩ => ⟨m, (isNews_congr hl).mp hm, he⟩)), ?_⟩
    rintro x (hx | ⟨r, hr, rfl⟩ | ⟨m, hm, hmine, rfl⟩)
    · exact h.startUser_le x hx
    · exact (h.read_le r ((hl _).mpr hr)).2
    · exact (hcovered m hm hmine).2

/-- Two deliveries of the same notices end with the same counters. -/
theorem counters_eq_of_delivers (hof : OfHistory room notices)
    (hno : NotOvertaken userId room notices) {l' : List RoomNotice}
    (hl : Delivery.Delivers notices l) (hl' : Delivery.Delivers notices l') :
    (l.foldl (applyNotice userId) room).counters
      = (l'.foldl (applyNotice userId) room).counters := by
  have hlnil : Delivery.Delivers notices (l ++ []) := by rwa [append_nil]
  have hlnil' : Delivery.Delivers notices (l' ++ []) := by rwa [append_nil]
  obtain ⟨a, b, h⟩ := upheld_of_delivers hof hno hlnil
  obtain ⟨a', b', h'⟩ := upheld_of_delivers hof hno hlnil'
  obtain ⟨ha, hb⟩ := h.isGreatest hof hno hl
  obtain ⟨ha', hb'⟩ := h'.isGreatest hof hno hl'
  obtain rfl : a = a' := ha.unique ha'
  obtain rfl : b = b' := hb.unique hb'
  have hseq := h.lastMessageSeq
  have huser := h.lastUserSeq
  simp only [isNews_congr hl] at hseq huser
  have hseq' := h'.lastMessageSeq
  have huser' := h'.lastUserSeq
  simp only [isNews_congr hl'] at hseq' huser'
  unfold Room.counters
  rw [hseq.unique hseq', huser.unique huser', h.lastReadSeq, h'.lastReadSeq, h.lastReadUserSeq,
    h'.lastReadUserSeq, h.counted, h'.counted, huser.unique huser']

/-- Notices of which none that matters is overtaken settle. -/
theorem settles_of_notOvertaken (hof : OfHistory room notices)
    (hno : NotOvertaken userId room notices) : Settles userId room notices where
  same _ _ hl hl' := counters_eq_of_delivers hof hno hl hl'
  advances p n q hl := by
    obtain ⟨a, b, h⟩ := upheld_of_delivers hof hno hl
    have hp : ∀ x ∈ p, x ∈ notices := fun x hx => hl.mem_of_append hx
    have hn : n ∈ notices := (hl n).mp (mem_append_right _ (.head _))
    obtain ⟨a', b', ha, hb, h'⟩ := h.step hof hno hp hn
    rw [foldl_concat]
    exact ⟨a, b, a', b', h.lastReadSeq, h.lastReadUserSeq, h'.lastReadSeq, h'.lastReadUserSeq, ha, hb⟩
  counted p q hl := by
    obtain ⟨a, b, h⟩ := upheld_of_delivers hof hno hl
    exact ⟨b, h.lastReadUserSeq, h.counted⟩

/-- Once the newest message arrived, only read positions matter. -/
theorem lastReadSeq_lt_of_newest
    (hold : ∀ m, RoomNotice.message m ∈ l → inChannel m = true → m.seq ≤ room.lastMessageSeq)
    (hreads : ∀ r, RoomNotice.read r ∈ l → r.lastReadSeq < c) (ha : room.lastReadSeq = some a)
    (hb : room.lastReadUserSeq = some b) (hac : a < c) :
    ∃ a', (l.foldl (applyNotice userId) room).lastReadSeq = some a' ∧ a' < c := by
  induction l generalizing room a b with
  | nil => exact ⟨a, ha, hac⟩
  | cons n _ ih =>
    rw [foldl_cons]
    cases n with
    | message m =>
      rw [applyNotice_message_of_old (hold m mem_cons_self)]
      exact ih (fun x hx => hold x (.tail _ hx)) (fun r hr => hreads r (.tail _ hr)) ha hb hac
    | read r =>
      obtain ⟨hl, -, hr, hru, -⟩ := counters_ext (applyNotice_read userId r ha hb)
      exact ih (fun x hx hch => (hold x (.tail _ hx) hch).trans hl.ge)
        (fun x hx => hreads x (.tail _ hx)) hr hru
        (max_lt hac (hreads r (.head _)))

/-- Along a delivery whose every step moves the read position on, the end is
past each moment. -/
theorem le_lastReadSeq_of_advances (hadv : ∀ p n q, l = p ++ n :: q →
      (p.foldl (applyNotice userId) room).ReadAdvances ((p ++ [n]).foldl (applyNotice userId) room))
    (ha : room.lastReadSeq = some a) (hc : c ≤ a) :
    ∃ a', (l.foldl (applyNotice userId) room).lastReadSeq = some a' ∧ c ≤ a' := by
  induction l using List.reverseRecOn with
  | nil => exact ⟨a, ha, hc⟩
  | append_singleton l n ih =>
    obtain ⟨x, hx, hcx⟩ := ih fun p n' q hl => hadv p n' (q ++ [n]) (by rw [hl, append_assoc]; rfl)
    obtain ⟨y, -, z, -, hy, -, hz, -, hyz, -⟩ := hadv l n [] rfl
    obtain rfl : x = y := Option.some.inj (hx.symm.trans hy)
    exact ⟨z, hz, hcx.trans hyz⟩

/-- A settled summary lets no read position overtake a message that is news. -/
theorem Settles.read_le (h : Settles userId room notices) (hof : OfHistory room notices)
    {m : Message} {r : ReadNotice} (hm : IsNews room notices m)
    (hr : RoomNotice.read r ∈ notices) :
    r.lastReadUserSeq ≤ m.userSeq ∧ (isMine userId m = true → r.lastReadSeq ≤ m.seq) := by
  obtain ⟨a, b, ha, hb, -, -, -⟩ := hof.read_le
  have hl : Delivery.Delivers notices ([.read r] ++ .message m :: notices) :=
    ((Delivery.delivers_self notices).cons hm.1).cons hr
  -- the read position first, and then the message
  obtain ⟨hseq, -, hread, hreadUser, -⟩ := counters_ext (applyNotice_read userId r ha hb)
  have hcounters := applyNotice_message_of_news userId hm.2.1 (hseq ▸ hm.2.2) hread hreadUser
  have hadvances := h.advances _ _ _ hl
  have hcounted := h.counted ([.read r] ++ [.message m]) notices (by simpa using hl)
  rw [foldl_concat, foldl_cons, foldl_nil] at hadvances hcounted
  cases hmine : isMine userId m with
  | true =>
    rw [hmine, if_pos rfl] at hcounters
    obtain ⟨-, -, hc, hd, -⟩ := counters_ext hcounters
    obtain ⟨a₁, b₁, c₁, d₁, ha₁, hb₁, hc₁, hd₁, hac, hbd⟩ := hadvances
    rw [hread, Option.some.injEq] at ha₁
    rw [hreadUser, Option.some.injEq] at hb₁
    rw [hc, Option.some.injEq] at hc₁
    rw [hd, Option.some.injEq] at hd₁
    subst ha₁ hb₁ hc₁ hd₁
    exact ⟨(le_max_right _ _).trans hbd, fun _ => (le_max_right _ _).trans hac⟩
  | false =>
    rw [hmine, if_neg Bool.false_ne_true] at hcounters
    obtain ⟨-, hu, -, hd, hunread⟩ := counters_ext hcounters
    refine ⟨?_, nofun⟩
    obtain ⟨read, -, hcounted⟩ := hcounted
    have hnonneg : (0 : ℤ) ≤ (m.userSeq : ℤ) - (max b r.lastReadUserSeq : ℕ) := by
      rw [← hunread, hcounted]
      exact le_max_left _ _
    exact (le_max_right b _).trans (by exact_mod_cast sub_nonneg.mp hnonneg)

/-- Among the messages that are news there is a newest one. -/
theorem exists_newest {m : Message} (hm : IsNews room notices m) :
    ∃ n, IsNews room notices n ∧ ∀ x, IsNews room notices x → x.seq ≤ n.seq := by
  -- positions of what was delivered are bounded, so a greatest one exists
  have hfinite : {x | IsNews room notices x}.Finite := by
    refine (notices.toFinset.finite_toSet.preimage (f := RoomNotice.message) ?_).subset ?_
    · exact fun x _ y _ hxy => RoomNotice.message.inj hxy
    · exact fun x hx => mem_toFinset.mpr hx.1
  obtain ⟨n, hn, hmax⟩ := hfinite.exists_maximalFor Message.seq _ ⟨m, hm⟩
  exact ⟨n, hn, fun x hx => le_of_not_gt fun hlt => hlt.not_ge (hmax hx hlt.le)⟩

/-- A settled summary loses no read position with an own message that is
ignored. -/
theorem Settles.mine (h : Settles userId room notices) (hof : OfHistory room notices)
    {m : Message} (hm : IsNews room notices m) (hmine : isMine userId m = true) :
    (∃ n, IsNews room notices n ∧ isMine userId n = true ∧
      ∀ m', IsNews room notices m' → m'.seq ≤ n.seq) ∨
    ∃ r, RoomNotice.read r ∈ notices ∧ m.seq ≤ r.lastReadSeq := by
  by_contra! hnone
  obtain ⟨hnewest, hreads⟩ := hnone
  obtain ⟨a, b, ha, hb, hale, -, -⟩ := hof.read_le
  obtain ⟨n, hn, hmax⟩ := exists_newest hm
  have hnmine : isMine userId n = false := by
    refine Bool.eq_false_iff.mpr fun hnmine => ?_
    obtain ⟨x, hx, hlt⟩ := hnewest n hn hnmine
    exact (hmax x hx).not_gt hlt
  have hself := Delivery.delivers_self notices
  -- with `m` first, what was read covers it from then on
  have hfirst : ∃ a', ((RoomNotice.message m :: notices).foldl (applyNotice userId) room).lastReadSeq
      = some a' ∧ m.seq ≤ a' := by
    have hcounters := applyNotice_message_of_news userId hm.2.1 hm.2.2 ha hb
    rw [hmine, if_pos rfl] at hcounters
    obtain ⟨-, -, hread, -, -⟩ := counters_ext hcounters
    rw [foldl_cons]
    refine le_lastReadSeq_of_advances (fun p x q hl => ?_) hread le_rfl
    exact h.advances (.message m :: p) x q (by simpa [← hl] using hself.cons hm.1)
  -- with the newest first, `m` is ignored
  have hlast : ∃ a', ((RoomNotice.message n :: notices).foldl (applyNotice userId) room).lastReadSeq
      = some a' ∧ a' < m.seq := by
    have hcounters := applyNotice_message_of_news userId hn.2.1 hn.2.2 ha hb
    rw [hnmine, if_neg Bool.false_ne_true] at hcounters
    obtain ⟨hseq, -, hread, hreadUser, -⟩ := counters_ext hcounters
    rw [foldl_cons]
    refine lastReadSeq_lt_of_newest (fun x hx hch => ?_) hreads hread hreadUser
      (hale.trans_lt hm.2.2)
    rw [hseq]
    by_cases hlt : room.lastMessageSeq < x.seq
    · exact hmax x ⟨hx, hch, hlt⟩
    · exact (not_lt.mp hlt).trans hn.2.2.le
  obtain ⟨a₁, ha₁, hle⟩ := hfirst
  obtain ⟨a₂, ha₂, hlt⟩ := hlast
  have hsame := h.same _ _ (hself.cons hm.1) (hself.cons hn.1)
  have hread := (counters_ext hsame).2.2.1
  rw [ha₁, ha₂, Option.some.injEq] at hread
  exact (hread ▸ hle).not_gt hlt

/-- **When the summary settles**: whatever the order in which the notices of
one server history arrive and however often they repeat, the counters come out
the same, the read position never moves back and the unread count is right
throughout – if and only if nothing that matters can be overtaken. -/
theorem summary_settled_iff (hof : OfHistory room notices) :
    Settles userId room notices ↔ NotOvertaken userId room notices :=
  ⟨fun h => ⟨fun _ _ hm hr => h.read_le hof hm hr, fun _ hm hmine => h.mine hof hm hmine⟩,
    settles_of_notOvertaken hof⟩

/-! ## A room to try things on -/

/-- A room with five messages, all of them read. -/
def readUp : Room := ⟨5, 5, none, none, some 5, some 5, 0, 0⟩

/-- After them user 2 says something, then user `sender` does, and the viewer
has read up to `n`. -/
def twoMore (sender n : ℕ) : List RoomNotice :=
  [.message (.said 2 6 6), .message (.said sender 7 7), .read ⟨n, n, 0⟩]

theorem message_mem_twoMore {m : Message}
    (hm : RoomNotice.message m ∈ twoMore sender n) : m = .said 2 6 6 ∨ m = .said sender 7 7 := by
  simpa [twoMore] using hm

theorem read_mem_twoMore {r : ReadNotice}
    (hr : RoomNotice.read r ∈ twoMore sender n) : r = ⟨n, n, 0⟩ := by
  simpa [twoMore] using hr

theorem userSeq_twoMore {m : Message}
    (hm : RoomNotice.message m ∈ twoMore sender n) : m.userSeq = m.seq := by
  cases message_mem_twoMore hm with
  | inl h => rw [h]; rfl
  | inr h => rw [h]; rfl

theorem ofHistory_twoMore (sender n : ℕ) : OfHistory readUp (twoMore sender n) where
  read_le := ⟨5, 5, rfl, rfl, le_rfl, le_rfl, rfl⟩
  seq_inj m m' hm hm' hseq := by
    rcases message_mem_twoMore hm with rfl | rfl <;>
      rcases message_mem_twoMore hm' with rfl | rfl
    · rfl
    · exact absurd hseq (by simp [Message.said])
    · exact absurd hseq (by simp [Message.said])
    · rfl
  userSeq_mono m m' hm hm' hle := by rwa [userSeq_twoMore hm, userSeq_twoMore hm']
  userSeq_room m hm hlt := by
    rw [userSeq_twoMore hm]
    exact hlt.le
  userSeq_read m r hm hr hle := by
    obtain rfl := read_mem_twoMore hr
    rwa [userSeq_twoMore hm]

/-- An own message at the end, and a read position up to what comes before it,
settle. -/
theorem settles_readUp : Settles 1 readUp (twoMore 1 6) := by
  refine (summary_settled_iff (ofHistory_twoMore 1 6)).mpr ⟨fun m r hm hr => ?_, fun m hm _ => ?_⟩
  · obtain rfl := read_mem_twoMore hr
    have hle : 6 ≤ m.seq := hm.2.2
    exact ⟨(userSeq_twoMore hm.1).symm ▸ hle, fun _ => hle⟩
  · refine .inl ⟨.said 1 7 7, ⟨by decide, rfl, by decide⟩, rfl, fun x hx => ?_⟩
    rcases message_mem_twoMore hx.1 with rfl | rfl <;> decide

/-- **The unread count goes below zero**: the viewer reads up to message 7, and
the read position overtakes message 6, which then counts as minus one. -/
theorem negative_unread : OfHistory readUp (twoMore 2 7) ∧ ¬ Settles 1 readUp (twoMore 2 7) ∧
    ([RoomNotice.read ⟨7, 7, 0⟩, .message (.said 2 6 6)].foldl (applyNotice 1) readUp).unreadCount
      = -1 := by
  refine ⟨ofHistory_twoMore 2 7, fun h => ?_, by decide⟩
  have hl : Delivery.Delivers (twoMore 2 7)
      ([.read ⟨7, 7, 0⟩, .message (.said 2 6 6)] ++ [.message (.said 2 7 7)]) := by
    intro n
    simp only [twoMore, cons_append, nil_append, mem_cons, not_mem_nil, or_false]
    tauto
  obtain ⟨read, hread, hunread⟩ := h.counted _ _ hl
  obtain rfl : 7 = read := Option.some.inj hread
  exact nomatch hunread

end Settles

end Hibari
