import Hibari.ActivityTables

/-!
# What a message writes

The rows of one message decide whether it is a candidate, and why (`mem_candidates`). A message that
is sent adds its own rows; the rows of the others stay, but the sender has read it, and it may make
somebody follow its thread (`sends_send`, `roomMember_send`, `threadMember_send`).
-/

namespace Hibari

open List Option Bool

theorem find?_map_of_iff {α : Type*} {p : α → Bool} {f g : α → α} (hp : ∀ a, p (f a) = p a)
    (hg : ∀ a, p a = true → f a = g a) (rows : List α) :
    (rows.map f).find? p = (rows.find? p).map g := by
  rw [find?_map, show p ∘ f = p from funext hp]
  exact Option.map_congr fun a ha => hg a (find?_some ha)

namespace ActivityDb

variable {userId workspaceId : Ulid} {now : ℕ} {db : ActivityDb} {m : ActivityMessage} {mr : MyRoom}
  {reason : ActivityReason}

/-! ## The rows of one message -/

/-- **What the tables have of a message**: it is there once, its mentions and its thread are in its
room. -/
structure Has (userId : Ulid) (db : ActivityDb) (m : ActivityMessage) : Prop where
  mem : m ∈ db.messages
  only : ∀ x ∈ db.messages, x.id = m.id → x = m
  mentionRoom : ∀ mm ∈ db.messageMentions, mm.messageId = m.id → mm.roomId = m.roomId
  threadRoom : ∀ rootId tm, m.threadRootId = some rootId → db.threadMember rootId userId = some tm →
    tm.roomId = m.roomId

/-- A row of mentions of a message is for the user. -/
def Mentioned (userId : Ulid) (db : ActivityDb) (m : ActivityMessage) : Prop :=
  ∃ mm ∈ db.messageMentions, mm.messageId = m.id ∧ (mm.userId = none ∨ mm.userId = some userId)

/-- The user follows the thread of a message, and is notified. -/
def follows (userId : Ulid) (db : ActivityDb) (m : ActivityMessage) : Bool :=
  m.threadRootId.any fun rootId => (db.threadMember rootId userId).any ThreadFollower.notifyReplies

/-- What a reason says of a message in a room. -/
def Says (userId : Ulid) (db : ActivityDb) (m : ActivityMessage) (mr : MyRoom) :
    ActivityReason → Prop
  | .channel => inChannel m.toMessage = true ∧ mr.roomKind ≠ .roomDM ∧ mr.effectiveLevel = .all
  | .dm => mr.roomKind = .roomDM
  | .mention => db.Mentioned userId m
  | .reaction => False
  | .thread => db.follows userId m = true

/-- **The candidates of a message.** -/
theorem mem_candidates (h : db.Has userId m) :
    (m.id, reason) ∈ db.candidates userId workspaceId now ↔
    ∃ mr, db.myRoom userId workspaceId now m.roomId = some mr ∧ db.Says userId m mr reason := by
  have honly : ∀ (p : ActivityMessage → Bool) (r : ActivityReason),
      (m.id, reason) ∈ (db.messages.filter p).map (fun x => (x.id, r)) ↔ reason = r ∧
        p m = true := by
    intro p r
    rw [List.mem_map]
    constructor
    · rintro ⟨x, hx, heq⟩
      obtain ⟨hid, hr⟩ := Prod.mk.inj heq
      obtain ⟨hmem, hp⟩ := mem_filter.mp hx
      exact ⟨hr.symm, h.only x hmem hid ▸ hp⟩
    · rintro ⟨rfl, hp⟩
      exact ⟨m, mem_filter.mpr ⟨h.mem, hp⟩, rfl⟩
  unfold candidates
  rw [mem_append, mem_append, mem_append, honly, honly, honly, List.mem_map]
  cases hroom : db.myRoom userId workspaceId now m.roomId with
  | none =>
    refine iff_of_false ?_ fun ⟨mr, hnever, _⟩ => nomatch hnever
    rintro (((⟨mm, hmm, heq⟩ | ⟨-, hany⟩) | ⟨-, hany⟩) | ⟨-, hany⟩)
    · obtain ⟨hid, -⟩ := Prod.mk.inj heq
      obtain ⟨hmem, hp⟩ := mem_filter.mp hmm
      rw [h.mentionRoom mm hmem hid, hroom] at hp
      cases hp
    · cases hany
    · obtain ⟨rootId, hroot, hany⟩ := Option.any_eq_true _ _ |>.mp hany
      obtain ⟨tm, htm, hp⟩ := Option.any_eq_true _ _ |>.mp hany
      rw [h.threadRoom rootId tm hroot htm, hroom, isSome_none, Bool.and_false] at hp
      cases hp
    · rw [any_none, Bool.and_false] at hany
      cases hany
  | some mr =>
    have hthread : (m.threadRootId.any fun rootId => (db.threadMember rootId userId).any fun tm =>
        tm.notifyReplies && (db.myRoom userId workspaceId now tm.roomId).isSome) = true ↔
          db.follows userId m = true := by
      unfold follows
      rw [Option.any_eq_true, Option.any_eq_true]
      refine exists_congr fun rootId => and_congr_right fun hroot => ?_
      rw [Option.any_eq_true, Option.any_eq_true]
      refine exists_congr fun tm => and_congr_right fun htm => ?_
      rw [h.threadRoom rootId tm hroot htm, hroom, isSome_some, Bool.and_true]
    have hmention : (∃ mm ∈ db.messageMentions.filter fun mm =>
        (db.myRoom userId workspaceId now mm.roomId).isSome &&
          (mm.userId.isNone || decide (mm.userId = some userId)),
        (mm.messageId, ActivityReason.mention) = (m.id, reason)) ↔
          reason = .mention ∧ db.Mentioned userId m := by
      constructor
      · rintro ⟨mm, hmm, heq⟩
        obtain ⟨hid, hr⟩ := Prod.mk.inj heq
        obtain ⟨hmem, hp⟩ := mem_filter.mp hmm
        obtain ⟨-, hfor⟩ := and_eq_true_iff.mp hp
        exact ⟨hr.symm, mm, hmem, hid, (or_eq_true_iff.mp hfor).imp isNone_iff_eq_none.mp
          of_decide_eq_true⟩
      · rintro ⟨rfl, mm, hmem, hid, hfor⟩
        refine ⟨mm, mem_filter.mpr ⟨hmem, and_eq_true_iff.mpr ⟨?_, ?_⟩⟩, by rw [hid]⟩
        · rw [h.mentionRoom mm hmem hid, hroom, isSome_some]
        · exact or_eq_true_iff.mpr (hfor.imp isNone_iff_eq_none.mpr decide_eq_true)
    rw [hmention, hthread]
    have hsome : (∃ mr', some mr = some mr' ∧ db.Says userId m mr' reason) ↔
        db.Says userId m mr reason :=
      ⟨fun ⟨mr', heq, hsays⟩ => some.inj heq ▸ hsays, fun hsays => ⟨mr, rfl, hsays⟩⟩
    rw [hsome, any_some, any_some]
    cases reason <;> simp [Says]

theorem mem_reasonsOf (h : db.Has userId m)
    (hroom : db.myRoom userId workspaceId now m.roomId = some mr) :
    reason ∈ db.reasonsOf userId workspaceId now m.id ↔ db.Says userId m mr reason := by
  unfold reasonsOf
  rw [mem_filter, decide_eq_true_iff, mem_candidates h, hroom]
  cases reason <;> simp [Says]

/-! ## What is written when a message is sent -/

section Send

variable {active : List Ulid} {roomId rootId u k : Ulid} {ids : List Ulid} {tm : ThreadFollower}

/-- A read position that is moved to a place, unless it is beyond it. -/
def readTo (k : ℕ) (rm : ActivityMember) : ActivityMember :=
  { rm with lastReadUserSeq := max rm.lastReadUserSeq k }

/-- The same in a thread. -/
def threadReadTo (k : ℕ) (tm : ThreadFollower) : ThreadFollower :=
  { tm with lastReadThreadSeq := max tm.lastReadThreadSeq k }

theorem readTo_zero (rm : ActivityMember) : readTo 0 rm = rm := by
  show { rm with lastReadUserSeq := max rm.lastReadUserSeq 0 } = rm
  rw [Nat.max_zero]

theorem threadReadTo_zero (tm : ThreadFollower) : threadReadTo 0 tm = tm := by
  show { tm with lastReadThreadSeq := max tm.lastReadThreadSeq 0 } = tm
  rw [Nat.max_zero]

theorem threadMember_followThread (h : db.threadMember rootId u = some tm) (k' : ℕ) (r' : Ulid) :
    (db.followThread roomId r' k' ids).threadMember rootId u = some tm := by
  unfold threadMember at h
  unfold threadMember followThread
  rw [find?_append, h, some_or]

/-- Nobody follows another thread for it. -/
theorem threadMember_followThread_none (h : db.threadMember rootId u = none) {r' : Ulid}
    (hne : rootId ≠ r')
    (k' : ℕ) : (db.followThread roomId r' k' ids).threadMember rootId u = none := by
  unfold threadMember at h
  unfold threadMember followThread
  rw [find?_append, h, none_or, find?_eq_none]
  intro tm htm hp
  obtain ⟨x, -, rfl⟩ := List.mem_map.mp htm
  exact hne (of_decide_eq_true hp).1.symm

/-- A position in another room or of another user stays. -/
theorem roomMember_advanceRead (r' u' k' : ℕ) : (db.advanceRead r' u' k').roomMember roomId u =
      (db.roomMember roomId u).map (readTo (if roomId = r' ∧ u = u' then k' else 0)) := by
  refine find?_map_of_iff (fun rm => ?_) (fun rm hrm => ?_) _
  · split
    · rfl
    · rfl
  · obtain ⟨hroom, huser⟩ := of_decide_eq_true hrm
    rw [← hroom, ← huser]
    split
    · rfl
    · exact (readTo_zero rm).symm

/-- One position is moved. -/
theorem threadMember_advanceThreadRead (r' u' k' : ℕ) :
    (db.advanceThreadRead r' u' k').threadMember rootId u =
      (db.threadMember rootId u).map (threadReadTo (if rootId = r' ∧ u = u' then k' else 0)) := by
  refine find?_map_of_iff (fun tm => ?_) (fun tm htm => ?_) _
  · split
    · rfl
    · rfl
  · obtain ⟨hroot, huser⟩ := of_decide_eq_true htm
    rw [← hroot, ← huser]
    split
    · rfl
    · exact (threadReadTo_zero tm).symm

/-- What is so once the sender has read a reply, and stays so when somebody follows its thread, is
so after it. -/
theorem followReply_of {P : ActivityDb → Prop} {r' k' : ℕ}
    (hsent : P ((db.followThread m.roomId r' k' [m.sender.id]).advanceThreadRead r' m.sender.id k'))
    (hfollow : ∀ db k' ids, P db → P (db.followThread m.roomId r' k' ids)) :
    P (db.followReply m r' k' active) := by
  unfold followReply
  dsimp only
  split
  · refine hfollow _ _ _ ?_
    split
    · refine hfollow _ _ _ ?_
      split
      · exact hfollow _ _ _ hsent
      · exact hsent
    · split
      · exact hfollow _ _ _ hsent
      · exact hsent
  · refine hfollow _ _ _ ?_
    split
    · refine hfollow _ _ _ ?_
      split
      · exact hfollow _ _ _ hsent
      · exact hsent
    · split
      · exact hfollow _ _ _ hsent
      · exact hsent

/-- **Followers keep their rows when a reply is sent**; the sender has read it. -/
theorem threadMember_followReply (h : db.threadMember rootId u = some tm) (r' k' : ℕ) :
    (db.followReply m r' k' active).threadMember rootId u =
      some (threadReadTo (if rootId = r' ∧ u = m.sender.id then k' else 0) tm) := by
  refine followReply_of (P := fun d => d.threadMember rootId u = _) ?_
    fun db _ _ hkept => threadMember_followThread hkept _ _
  rw [threadMember_advanceThreadRead, threadMember_followThread h, map_some]

theorem threadMember_followReply_none (h : db.threadMember rootId u = none) {r' : Ulid}
    (hne : rootId ≠ r') (k' : ℕ) :
    (db.followReply m r' k' active).threadMember rootId u = none := by
  refine followReply_of (P := fun d => d.threadMember rootId u = _) ?_
    fun db _ _ hkept => threadMember_followThread_none hkept hne _
  rw [threadMember_advanceThreadRead, threadMember_followThread_none h hne, map_none]

/-- **What a message leaves as it is**, and the rows that it adds. -/
structure Sends (m : ActivityMessage) (active : List Ulid) (db db' : ActivityDb) : Prop where
  rooms : db'.rooms = db.rooms
  workspaceMembers : db'.workspaceMembers = db.workspaceMembers
  messages : db'.messages = db.messages ++ [m]
  messageMentions : db'.messageMentions = db.messageMentions ++
    (createMessageMentions (db.memberIds m.roomId) m.toMessage
      (resolveHere active (db.memberIds m.roomId) m.toMessage)).map fun row => ⟨row, m.roomId⟩

theorem sends_send : Sends m active db (db.send m active) := by
  have hread : Sends m active db (if inChannel m.toMessage ∧ m.kind = .user then
      (db.createMessage m active).advanceRead m.roomId m.sender.id m.userSeq
      else db.createMessage m active) := by
    split
    · exact ⟨rfl, rfl, rfl, rfl⟩
    · exact ⟨rfl, rfl, rfl, rfl⟩
  unfold send
  dsimp only
  split
  · exact hread
  · exact followReply_of ⟨hread.rooms, hread.workspaceMembers, hread.messages,
      hread.messageMentions⟩
      fun _ _ _ h => ⟨h.rooms, h.workspaceMembers, h.messages, h.messageMentions⟩

/-- The member after a message: only the sender has read it. -/
theorem roomMember_send : ∃ k', (m.sender.id ≠ u → k' = 0) ∧
    (db.send m active).roomMember roomId u = (db.roomMember roomId u).map (readTo k') := by
  have hzero : (db.roomMember roomId u) = (db.roomMember roomId u).map (readTo 0) := by
    rw [show readTo 0 = id from funext readTo_zero, Option.map_id, id_eq]
  have hread : ∃ k', (m.sender.id ≠ u → k' = 0) ∧ (if inChannel m.toMessage ∧ m.kind = .user then
      (db.createMessage m active).advanceRead m.roomId m.sender.id m.userSeq
      else db.createMessage m active).roomMember roomId u =
        (db.roomMember roomId u).map (readTo k') := by
    split
    · exact ⟨if roomId = m.roomId ∧ u = m.sender.id then m.userSeq else 0,
        fun hne => if_neg fun hand => hne hand.2.symm, roomMember_advanceRead _ _ _⟩
    · exact ⟨0, fun _ => rfl, hzero⟩
  obtain ⟨k', hk, hread⟩ := hread
  refine ⟨k', hk, ?_⟩
  unfold send
  dsimp only
  split
  · exact hread
  · refine followReply_of (P := fun d => d.roomMember roomId u = _) hread fun _ _ _ h => h

/-- The followers after a message. -/
theorem threadMember_send (h : db.threadMember rootId u = some tm) :
    ∃ k', (m.sender.id ≠ u → k' = 0) ∧ (db.send m active).threadMember rootId u = some (threadReadTo k' tm) := by
  have hread : (if inChannel m.toMessage ∧ m.kind = .user then
      (db.createMessage m active).advanceRead m.roomId m.sender.id m.userSeq
      else db.createMessage m active).threadMember rootId u = some tm := by
    split
    · exact h
    · exact h
  unfold send
  dsimp only
  split
  · exact ⟨0, fun _ => rfl, by rw [hread, threadReadTo_zero]⟩
  · exact ⟨_, fun hne => if_neg fun hand => hne hand.2.symm, threadMember_followReply hread _ _⟩

/-- A message makes nobody follow another thread. -/
theorem threadMember_send_none (h : db.threadMember rootId u = none)
    (hne : m.threadRootId ≠ some rootId) : (db.send m active).threadMember rootId u = none := by
  have hread : (if inChannel m.toMessage ∧ m.kind = .user then
      (db.createMessage m active).advanceRead m.roomId m.sender.id m.userSeq
      else db.createMessage m active).threadMember rootId u = none := by
    split
    · exact h
    · exact h
  unfold send
  dsimp only
  split
  · exact hread
  · next r' hr' => exact threadMember_followReply_none hread (fun heq => hne (heq ▸ hr')) _

end Send

end ActivityDb

open ActivityDb

variable {x : ActivityMessage} {id : Ulid}

/-! ## The rows of a message that was sent -/

variable {userId workspaceId : Ulid} {now : ℕ} {db : ActivityDb} {m : ActivityMessage}
  {active : List Ulid}

/-- **The rows of the server**, when a message is to be sent: it is new, a mention is of a message
that is there, and the rows of its thread are in its room. -/
structure ActivityDb.Admits (db : ActivityDb) (m : ActivityMessage) : Prop where
  members : (db.memberIds m.roomId).Nodup
  fresh : ∀ x ∈ db.messages, x.id ≠ m.id
  mentioned : ∀ mm ∈ db.messageMentions, ∃ x ∈ db.messages, x.id = mm.messageId
  thread : ∀ tm ∈ db.threadMembers, m.threadRootId = some tm.threadRootId → tm.roomId = m.roomId
  threadSeq : m.threadSeq.isSome = m.threadRootId.isSome

/-- A message makes a user follow its thread. -/
def ActivityDb.MakesFollow (db : ActivityDb) (userId : Ulid) (m : ActivityMessage)
    (active : List Ulid) :
    Prop :=
  ∃ rootId, m.threadRootId = some rootId ∧ db.threadMember rootId userId = none ∧
    ((db.send m active).threadMember rootId userId).isSome = true

/-- The rows of a message after it was sent. -/
theorem ActivityDb.Admits.has (h : db.Admits m) : (db.send m active).Has userId m := by
  have hsends : ActivityDb.Sends m active db (db.send m active) := sends_send
  refine ⟨?_, fun x hx hid => ?_, fun mm hmm hid => ?_, fun rootId tm hroot htm => ?_⟩
  · rw [hsends.messages]
    exact mem_append_right _ (.head _)
  · rw [hsends.messages, mem_append, mem_singleton] at hx
    exact hx.resolve_left fun hold => h.fresh x hold hid
  · rw [hsends.messageMentions, mem_append] at hmm
    obtain hold | hnew := hmm
    · obtain ⟨x, hx, hxid⟩ := h.mentioned mm hold
      exact absurd (hxid.trans hid) (h.fresh x hx)
    · obtain ⟨row, -, rfl⟩ := List.mem_map.mp hnew
      rfl
  · have hrows : ∀ tm ∈ (db.send m active).threadMembers, tm.threadRootId = rootId →
        tm.roomId = m.roomId := by
      have hread : ∀ tm ∈ (if inChannel m.toMessage ∧ m.kind = .user then
          (db.createMessage m active).advanceRead m.roomId m.sender.id m.userSeq
          else db.createMessage m active).threadMembers, tm.threadRootId = rootId →
          tm.roomId = m.roomId := by
        intro tm htm hid
        refine h.thread tm ?_ (hid ▸ hroot)
        split at htm
        · exact htm
        · exact htm
      have hfollow : ∀ (d : ActivityDb) k' r' ids,
        (∀ tm ∈ d.threadMembers, tm.threadRootId = rootId →
          tm.roomId = m.roomId) → ∀ tm ∈ (d.followThread m.roomId r' k' ids).threadMembers,
          tm.threadRootId = rootId → tm.roomId = m.roomId := by
        intro d k' r' ids hd tm htm hid
        obtain hold | hnew := mem_append.mp htm
        · exact hd tm hold hid
        · obtain ⟨u, -, rfl⟩ := List.mem_map.mp hnew
          rfl
      unfold ActivityDb.send
      dsimp only
      split
      · exact hread
      · refine followReply_of (P := fun d => ∀ tm ∈ d.threadMembers, _ → _) ?_
          fun d k' ids hd => hfollow d k' _ ids hd
        intro tm htm hid
        obtain ⟨x, hx, rfl⟩ := List.mem_map.mp htm
        have hroom := hfollow _ _ _ _ hread x hx
        split at hid
        · next hif =>
          rw [if_pos hif]
          exact hroom hid
        · next hif =>
          rw [if_neg hif]
          exact hroom hid
    unfold ActivityDb.threadMember at htm
    have hp := find?_some htm
    exact hrows tm (mem_of_find?_eq_some htm) (decide_eq_true_iff.mp hp).1

/-- The rows of a message are of that message. -/
theorem messageId_of_mem_createMessageMentions {members here : List Ulid} {x : Message}
    {row : MentionRow}
    (h : row ∈ createMessageMentions members x here) : row.messageId = x.id := by
  have hmore : ∀ ids kind (rows : List MentionRow), (∀ r ∈ rows, r.messageId = x.id) →
      ∀ r ∈ createUserMentions members ids kind x.id rows, r.messageId = x.id := by
    intro ids kind rows hrows r hr
    obtain hold | hnew := mem_append.mp hr
    · exact hrows r hold
    · obtain ⟨u, -, rfl⟩ := List.mem_map.mp hnew
      rfl
  have hrows : ∀ r ∈ (if x.mentions.any fun y => y.kind = .channel then createUserMentions members
      (x.mentions.filterMap fun y => if y.kind = .user then y.user.map
        UserProfile.id else none) .user
      x.id [] ++ [⟨x.id, none, .channel⟩] else createUserMentions members
      (x.mentions.filterMap fun y => if y.kind = .user then y.user.map
        UserProfile.id else none) .user
      x.id []), r.messageId = x.id := by
    have hfirst := hmore (x.mentions.filterMap fun y =>
      if y.kind = .user then y.user.map UserProfile.id else none) .user []
      nofun
    intro r hr
    split at hr
    · obtain hold | hnew := mem_append.mp hr
      · exact hfirst r hold
      · rw [mem_singleton.mp hnew]
    · exact hfirst r hr
  unfold createMessageMentions at h
  dsimp only at h
  split at h
  · exact hmore _ _ _ hrows row h
  · exact hrows row h

/-- **Whom a message mentions**, by its rows. -/
theorem mentioned_send (h : db.Admits m) (hmember : userId ∈ db.memberIds m.roomId) :
    (db.send m active).Mentioned userId m ↔ (∃ x ∈ m.mentions, x.kind = .channel) ∨
      m.names userId ∨ (∃ x ∈ m.mentions, x.kind = .here) ∧ userId ∈ active := by
  have hsends : ActivityDb.Sends m active db (db.send m active) := sends_send
  set members := db.memberIds m.roomId
  set rows := createMessageMentions members m.toMessage (resolveHere active members m.toMessage)
  have hrows : (db.send m active).Mentioned userId m ↔
      0 < MentionPost.count userId ⟨m.toMessage, rows⟩ := by
    rw [MentionPost.count, countP_pos_iff]
    unfold ActivityDb.Mentioned
    rw [hsends.messageMentions]
    constructor
    · rintro ⟨mm, hmm, hid, hfor⟩
      obtain hold | hnew := mem_append.mp hmm
      · obtain ⟨x, hx, hxid⟩ := h.mentioned mm hold
        exact absurd (hxid.trans hid) (h.fresh x hx)
      · obtain ⟨row, hrow, rfl⟩ := List.mem_map.mp hnew
        exact ⟨row, hrow, decide_eq_true hfor⟩
    · rintro ⟨row, hrow, hfor⟩
      exact ⟨⟨row, m.roomId⟩, mem_append_right _ (List.mem_map_of_mem hrow),
        messageId_of_mem_createMessageMentions hrow, of_decide_eq_true hfor⟩
  rw [hrows, createMessageMentions_count hmember h.members]
  simp only [List.any_eq_true, decide_eq_true_eq]
  split
  · next hchannel => exact iff_of_true (Nat.add_pos_left Nat.one_pos _) (.inl hchannel)
  · next hchannel =>
    rw [Nat.zero_add, or_iff_right hchannel]
    split
    · next hnamed => exact iff_of_true Nat.one_pos hnamed
    · next hnamed => exact iff_of_false (Nat.lt_irrefl 0) hnamed

/-! ## What else is counted -/

/-- What is picked from rows to which others were added. -/
theorem mem_map_filter_append {α β : Type*} {old new : List α} {p p' : α → Bool} {f : α → β} {b : β}
    (hnew : ∀ x ∈ new, f x ≠ b) (hold : ∀ x ∈ old, p' x = p x) :
    b ∈ ((old ++ new).filter p').map f ↔ b ∈ (old.filter p).map f := by
  rw [filter_append, map_append, mem_append, filter_congr hold]
  refine or_iff_left fun hmem => ?_
  obtain ⟨x, hx, heq⟩ := List.mem_map.mp hmem
  exact hnew x (mem_filter.mp hx).1 heq

/-- A room of the user, read to some place. -/
def MyRoom.readTo (k : ℕ) (mr : MyRoom) : MyRoom :=
  { mr with lastReadUserSeq := max mr.lastReadUserSeq k }

/-- The rooms of a user after a message: only the sender has read more. -/
theorem myRoom_send (roomId : Ulid) : ∃ k', (m.sender.id ≠ userId → k' = 0) ∧
    (db.send m active).myRoom userId workspaceId now roomId =
      (db.myRoom userId workspaceId now roomId).map (MyRoom.readTo k') := by
  have hsends : ActivityDb.Sends m active db (db.send m active) := sends_send
  obtain ⟨k', hk, hmember⟩ : ∃ k', (m.sender.id ≠ userId → k' = 0) ∧
    (db.send m active).roomMember roomId userId = _ := roomMember_send
  refine ⟨k', hk, ?_⟩
  unfold ActivityDb.myRoom
  rw [hmember, hsends.rooms, hsends.workspaceMembers]
  cases db.roomMember roomId userId with
  | none => rfl
  | some rm =>
    rw [map_some, bind_some, bind_some]
    cases db.rooms roomId with
    | none => rfl
    | some room =>
      rw [bind_some, bind_some]
      cases db.workspaceMembers room.1 userId with
      | none => rfl
      | some level =>
        rw [bind_some, bind_some]
        show (if room.1 = workspaceId ∧ ActivityDb.admitsRoom now rm level
          room.2 = true then _ else _) = _
        split
        · rfl
        · rfl

/-- Who is a member after a message was one before it. -/
theorem memberIds_of_send (h : ((db.send m active).roomMember m.roomId userId).isSome) :
    userId ∈ db.memberIds m.roomId := by
  obtain ⟨k', -, heq⟩ : ∃ k', (m.sender.id ≠ userId → k' = 0) ∧
    (db.send m active).roomMember m.roomId userId = _ := roomMember_send
  rw [heq, isSome_map] at h
  obtain ⟨rm, hrm⟩ := isSome_iff_exists.mp h
  unfold ActivityDb.roomMember at hrm
  have hp := find?_some hrm
  obtain ⟨hroom, huser⟩ := decide_eq_true_iff.mp hp
  refine List.mem_map.mpr ⟨rm, mem_filter.mpr ⟨mem_of_find?_eq_some hrm, ?_⟩, huser⟩
  exact decide_eq_true hroom

variable (hfollow : ¬db.MakesFollow userId m active)
include hfollow

/-- The threads that a user follows after a message that makes the user follow none. -/
theorem threads_send (rootId : Ulid) :
    ∃ k', (m.sender.id ≠ userId → k' = 0) ∧ (db.send m active).threadMember rootId userId =
      (db.threadMember rootId userId).map (ActivityDb.threadReadTo k') := by
  cases htm : db.threadMember rootId userId with
  | some => exact threadMember_send htm
  | none =>
    refine ⟨0, fun _ => rfl, ?_⟩
    rw [map_none]
    by_cases hroot : m.threadRootId = some rootId
    · by_contra hsome
      exact hfollow ⟨rootId, hroot, htm, isSome_iff_ne_none.mpr hsome⟩
    · exact threadMember_send_none htm hroot

/-- **The other messages are candidates as before.** -/
theorem mem_candidates_send (hid : m.id ≠ id) (reason : ActivityReason) :
    (id, reason) ∈ (db.send m active).candidates userId workspaceId now ↔
      (id, reason) ∈ db.candidates userId workspaceId now := by
  have hsends : ActivityDb.Sends m active db (db.send m active) := sends_send
  have hany : ∀ (p : MyRoom → Bool) (_ : ∀ k mr, p (mr.readTo k) = p mr) roomId,
      ((db.send m active).myRoom userId workspaceId now roomId).any p =
        (db.myRoom userId workspaceId now roomId).any p := by
    intro p hp roomId
    obtain ⟨k', -, heq⟩ : ∃ k', (m.sender.id ≠ userId → k' = 0) ∧
      (db.send m active).myRoom userId workspaceId now roomId = _ := myRoom_send roomId
    rw [heq, Option.any_map]
    exact congrArg (fun q => Option.any q _) (funext (hp k'))
  have hsome : ∀ roomId, ((db.send m active).myRoom userId workspaceId now roomId).isSome =
      (db.myRoom userId workspaceId now roomId).isSome := by
    intro roomId
    obtain ⟨k', -, heq⟩ : ∃ k', (m.sender.id ≠ userId → k' = 0) ∧
      (db.send m active).myRoom userId workspaceId now roomId = _ := myRoom_send roomId
    rw [heq, isSome_map]
  have hone : ∀ r : ActivityReason, ∀ x ∈ [m], (x.id, r) ≠ (id, reason) := by
    intro r x hx heq
    rw [mem_singleton.mp hx] at heq
    exact hid (Prod.mk.inj heq).1
  unfold ActivityDb.candidates
  dsimp only
  rw [mem_append, mem_append, mem_append, mem_append, mem_append, mem_append,
    hsends.messages, hsends.messageMentions]
  refine or_congr (or_congr (or_congr ?_ ?_) ?_) ?_
  · refine mem_map_filter_append (fun x hx heq => ?_) fun x _ => ?_
    · obtain ⟨row, hrow, rfl⟩ := List.mem_map.mp hx
      exact hid ((messageId_of_mem_createMessageMentions hrow).symm.trans (Prod.mk.inj heq).1)
    · rw [hsome]
  · exact mem_map_filter_append (hone _) fun x _ => hany _ (fun _ _ => rfl) _
  · refine mem_map_filter_append (hone _) fun x _ => ?_
    refine congrArg (fun q => Option.any q x.threadRootId) (funext fun rootId => ?_)
    obtain ⟨k', -, heq⟩ := threads_send hfollow rootId
    rw [heq, Option.any_map]
    refine congrArg (fun q => Option.any q _) (funext fun tm => ?_)
    show (tm.notifyReplies &&
      ((db.send m active).myRoom userId workspaceId now tm.roomId).isSome) = _
    rw [hsome]
  · refine mem_map_filter_append (hone _) fun x _ => ?_
    rw [hany _ (fun _ _ => rfl)]

omit hfollow

/-- A message is counted as unread. -/
def ActivityDb.counts (userId workspaceId : Ulid) (now : ℕ) (db : ActivityDb)
    (m : ActivityMessage) : Bool :=
  decide (m.id ∈ (db.candidates userId workspaceId now).map Prod.fst) &&
    (db.myRoom userId workspaceId now m.roomId).any fun mr =>
      ActivityDb.isListed userId m && db.isUnread userId mr m

theorem countUnreadActivity_eq : db.countUnreadActivity userId workspaceId now =
    min maxUnreadActivity (db.messages.countP (db.counts userId workspaceId now)) := by
  rw [countP_eq_length_filter]
  rfl

include hfollow

/-- The other messages are candidates for some reason as before. -/
theorem mem_candidates_fst_send (hid : m.id ≠ id) :
    id ∈ ((db.send m active).candidates userId workspaceId now).map Prod.fst ↔
      id ∈ (db.candidates userId workspaceId now).map Prod.fst := by
  rw [List.mem_map, List.mem_map]
  constructor
  · rintro ⟨⟨x, reason⟩, hmem, rfl⟩
    exact ⟨(x, reason), (mem_candidates_send hfollow hid reason).mp hmem, rfl⟩
  · rintro ⟨⟨x, reason⟩, hmem, rfl⟩
    exact ⟨(x, reason), (mem_candidates_send hfollow hid reason).mpr hmem, rfl⟩

/-- What the user has not read after a message was not read before it. -/
theorem isUnread_of_send {mr : MyRoom}
    {k : ℕ} (h : (db.send m active).isUnread userId (mr.readTo k) x = true) :
    db.isUnread userId mr x = true := by
  unfold ActivityDb.isUnread at h ⊢
  split at h
  · next hchannel =>
    rw [if_pos hchannel]
    exact decide_eq_true (lt_of_le_of_lt (le_max_left _ _) (of_decide_eq_true h))
  · next hthread =>
    rw [if_neg hthread]
    cases hroot : x.threadRootId with
    | none =>
      rw [hroot] at h
      cases h
    | some rootId =>
      rw [hroot, bind_some] at h
      obtain ⟨k', -, heq⟩ := threads_send hfollow rootId
      rw [heq, Option.any_map] at h
      obtain ⟨tm, htm, hp⟩ := Option.any_eq_true _ _ |>.mp h
      obtain ⟨threadSeq, hseq, hlt⟩ := Option.any_eq_true _ _ |>.mp hp
      refine (Option.any_eq_true _ _).mpr ⟨tm, htm,
        (Option.any_eq_true _ _).mpr ⟨threadSeq, hseq, ?_⟩⟩
      exact decide_eq_true (lt_of_le_of_lt (le_max_left _ _) (of_decide_eq_true hlt))

/-- **No other message is counted for it**, unless the user follows another thread now. -/
theorem counts_of_send (hid : m.id ≠ x.id)
    (h : (db.send m active).counts userId workspaceId now x = true) :
    db.counts userId workspaceId now x = true := by
  obtain ⟨hcandidate, hany⟩ := and_eq_true_iff.mp h
  obtain ⟨k', -, heq⟩ : ∃ k', (m.sender.id ≠ userId → k' = 0) ∧
    (db.send m active).myRoom userId workspaceId now x.roomId = _ := myRoom_send x.roomId
  rw [heq, Option.any_map] at hany
  obtain ⟨mr, hmr, hp⟩ := Option.any_eq_true _ _ |>.mp hany
  obtain ⟨hlisted, hunread⟩ := and_eq_true_iff.mp hp
  refine and_eq_true_iff.mpr ⟨?_, (Option.any_eq_true _ _).mpr ⟨mr, hmr, ?_⟩⟩
  · exact decide_eq_true ((mem_candidates_fst_send hfollow hid).mp (of_decide_eq_true hcandidate))
  · exact and_eq_true_iff.mpr ⟨hlisted, isUnread_of_send hfollow hunread⟩

/-- **The others are counted as before**, if somebody else sent it. -/
theorem counts_send (hsender : m.sender.id ≠ userId) (hid : m.id ≠ x.id) :
    (db.send m active).counts userId workspaceId now x = db.counts userId workspaceId now x := by
  obtain ⟨k, hk, hroom⟩ : ∃ k', (m.sender.id ≠ userId → k' = 0) ∧
    (db.send m active).myRoom userId workspaceId now x.roomId = _ := myRoom_send x.roomId
  have hthread : ∀ rootId, (db.send m active).threadMember rootId userId =
      db.threadMember rootId userId := by
    intro rootId
    obtain ⟨k', hk', heq⟩ := threads_send hfollow rootId
    rw [heq, hk' hsender, funext threadReadTo_zero]
    exact Option.map_id'
  unfold ActivityDb.counts
  rw [decide_eq_decide.mpr (mem_candidates_fst_send hfollow hid), hroom, hk hsender, Option.any_map]
  refine congrArg (fun q => _ && Option.any q _) (funext fun mr => congrArg (and _) ?_)
  rw [show mr.readTo 0 = mr from
    congrArg (fun n => { mr with lastReadUserSeq := n }) (Nat.max_zero _)]
  unfold ActivityDb.isUnread
  rw [funext hthread]

omit hfollow

/-- The number that is not read, before and after. -/
theorem countP_send (userId workspaceId : Ulid) (now : ℕ) (h : db.Admits m)
    (hfollow : ¬db.MakesFollow userId m active) :
    (m.sender.id ≠ userId →
      (db.send m active).messages.countP ((db.send m active).counts userId workspaceId now) =
        db.messages.countP (db.counts userId workspaceId now) +
          if (db.send m active).counts userId workspaceId now m then 1 else 0) ∧
    (m.sender.id = userId →
      (db.send m active).messages.countP ((db.send m active).counts userId workspaceId now) ≤
        db.messages.countP (db.counts userId workspaceId now)) := by
  have hsends : ActivityDb.Sends m active db (db.send m active) := sends_send
  rw [hsends.messages, countP_append, countP_singleton]
  constructor
  · intro hsender
    refine congrArg (· + _) (countP_congr fun x hx => ?_)
    rw [counts_send hfollow hsender (h.fresh x hx).symm]
  · intro hsender
    have hown : (db.send m active).counts userId workspaceId now m = false := by
      rw [eq_false_iff]
      intro htrue
      obtain ⟨mr, -, hp⟩ := Option.any_eq_true _ _ |>.mp (and_eq_true_iff.mp htrue).2
      have hlisted := (and_eq_true_iff.mp hp).1
      unfold ActivityDb.isListed at hlisted
      simp [hsender] at hlisted
    rw [hown, if_neg Bool.false_ne_true, Nat.add_zero]
    exact countP_mono_left fun x hx hcounts =>
      counts_of_send hfollow (h.fresh x hx).symm hcounts

end Hibari
