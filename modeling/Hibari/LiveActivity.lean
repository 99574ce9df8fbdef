import Hibari.SentActivity

/-!
# What arrives is what would be loaded

A message that arrives is put into the lists by the rule of the client (`notifyReasons`); the server
finds it by queries over rows that were written when it was sent. With the same settings and read
positions on both sides they say the same (`receives_what_would_be_listed`), apart from two things:
the client does not know who was active when somebody said `@here`; and a message that makes the
user follow a thread brings up others of it.
-/

namespace Hibari

open List

variable {userId workspaceId : Ulid} {now : ℕ} {db : ActivityDb} {m : ActivityMessage}
    {room : ActivityRoom}
  {s : ActivityStore} {active : List Ulid}

/-! ## Copies -/

/-- **The client has what the server has** of the room of a message and of its thread. The settings
were read at some time before. -/
structure ActivityStore.Copies (userId : Ulid) (now : ℕ) (db : ActivityDb) (m : ActivityMessage)
    (room : ActivityRoom) (s : ActivityStore) : Prop where
  shown : s.rooms m.roomId = some room
  id : room.id = m.roomId
  kind : db.rooms m.roomId = some (room.workspaceId, room.kind)
  settings : ∃ t ≤ now, room.notifications =
    (db.roomMember m.roomId userId).map fun rm => roomNotificationsOf rm t
  read : room.lastReadUserSeq = (db.roomMember m.roomId userId).map ActivityMember.lastReadUserSeq
  level : ∃ level, db.workspaceMembers room.workspaceId userId = some level ∧
    (s.notificationLevels room.workspaceId).getD .mentions = level.getD .mentions
  thread : (s.threadOf room.workspaceId m.toThreadMessage).map
      (fun t => (t.lastReadThreadSeq, t.notifyReplies)) =
    m.threadRootId.bind fun rootId => (db.threadMember rootId userId).map fun tm =>
      (tm.lastReadThreadSeq, tm.notifyReplies)

/-- A message says `@here` while a user is not active, and does not mention the user otherwise. -/
def Message.MissesHere (m : Message) (userId : Ulid) (active : List Ulid) : Prop :=
  (∃ x ∈ m.mentions, x.kind = .here) ∧ userId ∉ active ∧ ¬m.names userId ∧
    ∀ x ∈ m.mentions, x.kind ≠ .channel

/-! ## The same reasons -/

/-- The client counts a mention where there are rows of it, unless it is of who is here. -/
theorem mentionsMe_iff (hhere : ¬m.MissesHere userId active) :
    mentionsMe m.mentions userId true = true ↔
    (∃ x ∈ m.mentions, x.kind = .channel) ∨
      m.names userId ∨ (∃ x ∈ m.mentions, x.kind = .here) ∧ userId ∈ active := by
  have hany : mentionsMe m.mentions userId true = true ↔ (∃ x ∈ m.mentions, x.kind = .channel) ∨
      m.names userId ∨ ∃ x ∈ m.mentions, x.kind = .here := by
    unfold mentionsMe Message.names
    rw [any_eq_true, ← exists_or, ← exists_or]
    refine exists_congr fun x => ?_
    rw [← and_or_left, ← and_or_left]
    refine and_congr_right fun _ => ?_
    cases hkind : x.kind with
    | user => simp [Option.any_eq_true]
    | _ => simp
  rw [hany]
  by_cases hchannel : ∃ x ∈ m.mentions, x.kind = .channel
  · exact iff_of_true (.inl hchannel) (.inl hchannel)
  · rw [or_iff_right hchannel, or_iff_right hchannel]
    refine ⟨fun h => ?_, fun h => h.imp id And.left⟩
    by_contra hnone
    obtain ⟨hnames, hactive⟩ := not_or.mp hnone
    have hsome := h.resolve_left hnames
    exact hhere ⟨hsome, fun hmem => hactive ⟨hsome, hmem⟩, hnames, fun x hx hkind =>
      hchannel ⟨x, hx, hkind⟩⟩

/-- A mute runs out when the settings are read, or later. -/
theorem isMuted_roomNotificationsOf (rm : ActivityMember) {t : ℕ} (ht : t ≤ now) :
    isMuted (roomNotificationsOf rm t) now = (rm.muted && rm.mutedUntil.all fun until_ =>
      now < until_) := by
  unfold roomNotificationsOf
  cases hm : rm.mutedUntil with
  | none =>
    rw [Option.any_none, if_neg Bool.false_ne_true]
    rfl
  | some until_ =>
    rw [Option.any_some]
    split
    · next h =>
      have hrun : ¬now < until_ := Nat.not_lt.mpr ((of_decide_eq_true h).trans ht)
      rw [Option.all_some, decide_eq_false hrun, Bool.and_false]
      rfl
    · rfl

theorem roomNotificationsOf_level (rm : ActivityMember) (t : ℕ) :
    (roomNotificationsOf rm t).level = rm.notifyLevel := by
  unfold roomNotificationsOf
  split
  · rfl
  · rfl

/-- The reasons in their order. -/
theorem sortReasons_eq_filter (channel dm mention thread : Bool) :
    sortReasons ((if channel then [.channel] else []) ++ (if dm then [.dm] else []) ++
      ((if mention then [.mention] else []) ++ if thread then [.thread] else [])) =
    [ActivityReason.channel, .dm, .mention, .thread].filter fun
      | .channel => channel
      | .dm => dm
      | .mention => mention
      | .reaction => false
      | .thread => thread := by
  cases channel <;> cases dm <;> cases mention <;> cases thread <;> rfl

section Same

variable {d : ActivityDb} (h : s.Copies userId now d m room)
include h

/-- The thread that the client looks at is the one that the server looks at. -/
theorem ActivityStore.Copies.follows :
    (m.threadRootId.isSome && (s.threadOf room.workspaceId m.toThreadMessage).any
      FollowedThread.notifyReplies) = d.follows userId m := by
  have hthread := h.thread
  unfold ActivityDb.follows
  cases hroot : m.threadRootId with
  | none => rfl
  | some =>
    rw [hroot, Option.bind_some] at hthread
    rw [Option.isSome_some, Bool.true_and, Option.any_some]
    have hsame := congrArg (Option.any Prod.snd) hthread
    rw [Option.any_map, Option.any_map] at hsame
    exact hsame

omit h

/-- The reasons of a row, in their order. -/
theorem reasonsOf_eq {mr : MyRoom} {mentioned : Bool} (hhas : d.Has userId m)
    (hroom : d.myRoom userId workspaceId now m.roomId = some mr)
    (hmention : mentioned = true ↔ d.Mentioned userId m) :
    d.reasonsOf userId workspaceId now m.id = sortReasons
      ((if inChannel m.toMessage && decide (mr.roomKind ≠ .roomDM ∧ mr.effectiveLevel = .all) then
          [.channel] else []) ++
        (if decide (mr.roomKind = .roomDM) then [.dm] else []) ++
        ((if mentioned then [.mention] else []) ++
          if d.follows userId m then [.thread] else [])) := by
  rw [sortReasons_eq_filter]
  refine filter_congr fun reason hreason => ?_
  rw [Bool.eq_iff_iff, decide_eq_true_iff, ActivityDb.mem_candidates hhas, hroom]
  have hsome : (∃ mr', some mr = some mr' ∧ d.Says userId m mr' reason) ↔
    d.Says userId m mr reason :=
    ⟨fun ⟨mr', heq, hsays⟩ => Option.some.inj heq ▸ hsays, fun hsays => ⟨mr, rfl, hsays⟩⟩
  rw [hsome]
  cases reason with
  | channel => exact (Bool.and_eq_true_iff.trans (and_congr_right' decide_eq_true_iff)).symm
  | dm =>
    show mr.roomKind = .roomDM ↔ decide (mr.roomKind = .roomDM) = true
    rw [decide_eq_true_iff]
  | mention => exact hmention.symm
  | reaction => exact iff_of_false id Bool.false_ne_true
  | thread => exact .rfl

theorem isListed_iff : ActivityDb.isListed userId m = true ↔
    ¬(m.kind ≠ .user ∨ m.sender.id = userId ∨ m.deletedAt.isSome = true) := by
  unfold ActivityDb.isListed
  simp [and_assoc]

include h

/-- The room of a message, as the server selects it. -/
theorem ActivityStore.Copies.myRoom {rm : ActivityMember}
    (hrm : d.roomMember m.roomId userId = some rm) :
    d.myRoom userId room.workspaceId now m.roomId =
      if (rm.muted && rm.mutedUntil.all fun until_ => now < until_) = true then none
      else if (if room.kind = .roomDM then (s.notificationLevels room.workspaceId).getD .mentions
        else rm.notifyLevel.getD ((s.notificationLevels room.workspaceId).getD .mentions)) = .none
      then none
      else some ⟨room.kind, rm.lastReadUserSeq,
        rm.notifyLevel.getD ((s.notificationLevels room.workspaceId).getD .mentions)⟩ := by
  obtain ⟨level, hlevel, hsame⟩ := h.level
  unfold ActivityDb.myRoom
  rw [hrm, Option.bind_some, h.kind, Option.bind_some, hlevel, Option.bind_some, hsame]
  unfold ActivityDb.admitsRoom
  rw [Option.getD_or]
  cases rm.muted && rm.mutedUntil.all fun until_ => now < until_ with
  | true =>
    rw [if_pos rfl]
    exact if_neg fun hand => Bool.false_ne_true hand.2
  | false =>
    rw [if_neg Bool.false_ne_true, Bool.not_false, Bool.true_and]
    by_cases hdm : room.kind = .roomDM
    · rw [if_pos hdm, if_pos hdm]
      by_cases hnone : level.getD .mentions = .none
      · rw [if_pos hnone]
        exact if_neg fun hand => absurd hnone (of_decide_eq_true hand.2)
      · rw [if_neg hnone, if_pos ⟨rfl, decide_eq_true hnone⟩]
    · rw [if_neg hdm, if_neg hdm]
      by_cases hnone : rm.notifyLevel.getD (level.getD .mentions) = .none
      · rw [if_pos hnone]
        exact if_neg fun hand => absurd hnone (of_decide_eq_true hand.2)
      · rw [if_neg hnone, if_pos ⟨rfl, decide_eq_true hnone⟩]

/-- **The reasons are the same.** -/
theorem notifyReasons_eq (hhas : d.Has userId m)
    (hmention : (d.roomMember m.roomId userId).isSome → (mentionsMe m.mentions userId true = true ↔
      d.Mentioned userId m)) :
    notifyReasons m.toThreadMessage userId (some room) (s.notificationLevels room.workspaceId)
        (s.threadOf room.workspaceId m.toThreadMessage) now true =
      if ActivityDb.isListed userId m then
        (d.myRoom userId room.workspaceId now m.roomId).elim [] fun _ =>
          d.reasonsOf userId room.workspaceId now m.id
      else [] := by
  unfold notifyReasons
  by_cases hlisted : ActivityDb.isListed userId m = true
  · rw [if_pos hlisted, if_neg (isListed_iff.mp hlisted)]
    dsimp only
    obtain ⟨t, ht, hsettings⟩ := h.settings
    cases hrm : d.roomMember m.roomId userId with
    | none =>
      rw [hsettings, hrm]
      unfold ActivityDb.myRoom
      rw [hrm]
      rfl
    | some rm =>
      rw [hsettings, hrm, Option.map_some]
      dsimp only
      rw [isMuted_roomNotificationsOf rm ht, roomNotificationsOf_level]
      have hroom := h.myRoom hrm
      have hchannel : (!(m.threadRootId.isSome && !m.alsoInChannel)) = inChannel m.toMessage := by
        unfold inChannel
        cases m.threadRootId <;> cases m.alsoInChannel <;> rfl
      have hm := hmention (by rw [hrm]; rfl)
      split
      · next hmuted =>
        rw [hroom, if_pos hmuted]
        rfl
      · next hmuted =>
        rw [if_neg hmuted] at hroom
        split
        · next hdm =>
          rw [if_pos hdm] at hroom
          split
          · next hnone =>
            rw [hroom, if_pos hnone]
            rfl
          · next hsome =>
            rw [if_neg hsome] at hroom
            rw [reasonsOf_eq hhas hroom hm, hroom, h.follows, Option.elim_some, hdm,
              decide_eq_false fun hand => hand.1 rfl, Bool.and_false, if_neg Bool.false_ne_true,
              decide_eq_true rfl, if_pos rfl]
            rfl
        · next hdm =>
          rw [if_neg hdm] at hroom
          split
          · next hnone =>
            rw [hroom, if_pos hnone]
            rfl
          · next hsome =>
            rw [if_neg hsome] at hroom
            rw [reasonsOf_eq hhas hroom hm, hroom, h.follows, hchannel, Option.elim_some,
              decide_eq_false hdm, if_neg Bool.false_ne_true, append_nil, Bool.and_comm]
            simp only [ne_eq, hdm, not_false_eq_true, true_and]
  · rw [if_neg hlisted, if_pos (Classical.not_not.mp (mt isListed_iff.mpr hlisted))]

/-- **It is unread on both sides or on neither.** -/
theorem isUnreadActivity_eq {mr : MyRoom}
    (hroom : d.myRoom userId room.workspaceId now m.roomId = some mr)
    (hseq : m.threadSeq.isSome = m.threadRootId.isSome) :
    isUnreadActivity m.toThreadMessage room (s.threadOf room.workspaceId m.toThreadMessage) =
      d.isUnread userId mr m := by
  have hread : room.lastReadUserSeq = some mr.lastReadUserSeq := by
    rw [h.read]
    unfold ActivityDb.myRoom at hroom
    obtain ⟨rm, hrm, hroom⟩ := Option.bind_eq_some_iff.mp hroom
    obtain ⟨_, -, hroom⟩ := Option.bind_eq_some_iff.mp hroom
    obtain ⟨_, -, hroom⟩ := Option.bind_eq_some_iff.mp hroom
    obtain ⟨-, hmr⟩ := Option.ite_none_right_eq_some.mp hroom
    rw [hrm, ← Option.some.inj hmr]
    rfl
  unfold isUnreadActivity ActivityDb.isUnread
  rw [hread, Option.getD_some]
  refine ite_congr rfl (fun _ => rfl) fun _ => ?_
  have hthread := congrArg (Option.any fun p => decide (p.1 < m.threadSeq.getD 0)) h.thread
  rw [Option.any_map] at hthread
  refine hthread.trans ?_
  cases hroot : m.threadRootId with
  | none => rfl
  | some =>
    rw [hroot, Option.isSome_some, Option.isSome_iff_exists] at hseq
    obtain ⟨threadSeq, hthreadSeq⟩ := hseq
    rw [hthreadSeq, Option.bind_some, Option.bind_some, Option.any_map]
    rfl

end Same

/-! ## The lists and the number -/

section Receive

variable {d : ActivityDb} {activity : WorkspaceActivity}
  {filter : ActivityFilter} {unreadOnly : Bool}

/-- An item that is new is put in, and nothing is lost. -/
theorem mem_insertActivity {items : List ActivityItem} {item i : ActivityItem}
    (hnew : ∀ x ∈ items, sameItem x item = false) :
    i ∈ insertActivity items item ↔ i ∈ items ∨ i = item := by
  have hrest : items.filter (fun x => !sameItem x item) = items :=
    filter_eq_self.mpr fun x hx => by rw [hnew x hx]; rfl
  unfold insertActivity
  rw [hrest, mem_append, mem_cons]
  conv_rhs => rw [← take_append_drop
    ((items.findIdx? fun i => decide (compareNewestFirst item i < 0)).getD items.length) items]
  rw [mem_append]
  tauto

/-- **The row of a message is what the client makes of it.** -/
theorem rowOf_eq (h : s.Copies userId now d m room) (hhas : d.Has userId m)
    (hmention : (d.roomMember m.roomId userId).isSome → (mentionsMe m.mentions userId true = true ↔
      d.Mentioned userId m)) (hseq : m.threadSeq.isSome = m.threadRootId.isSome) :
    d.rowOf userId room.workspaceId now m =
      if notifyReasons m.toThreadMessage userId (some room) (s.notificationLevels room.workspaceId)
        (s.threadOf room.workspaceId m.toThreadMessage) now true = [] then none
      else some ⟨m.id, m.roomId, m.sentAt,
        notifyReasons m.toThreadMessage userId (some room) (s.notificationLevels room.workspaceId)
          (s.threadOf room.workspaceId m.toThreadMessage) now true,
        isUnreadActivity m.toThreadMessage room
          (s.threadOf room.workspaceId m.toThreadMessage)⟩ := by
  rw [notifyReasons_eq h hhas hmention]
  unfold ActivityDb.rowOf
  cases hroom : d.myRoom userId room.workspaceId now m.roomId with
  | none =>
    rw [Option.bind_none, Option.elim_none, ite_self, if_pos rfl]
  | some =>
    rw [Option.bind_some, Option.elim_some, isUnreadActivity_eq h hroom hseq]
    by_cases hlisted : ActivityDb.isListed userId m = true
    · rw [if_pos hlisted]
      by_cases hnone : d.reasonsOf userId room.workspaceId now m.id = []
      · rw [if_pos hnone]
        exact if_neg fun hand => hand.2 hnone
      · rw [if_neg hnone]
        exact if_pos ⟨hlisted, hnone⟩
    · rw [if_neg hlisted, if_pos rfl]
      exact if_neg fun hand => hlisted hand.1

/-- The rows of one message in a list. -/
theorem mem_listActivity (hhas : d.Has userId m) {row : ActivityRow} :
    row ∈ d.listActivity userId workspaceId now filter unreadOnly ∧ row.messageId = m.id ↔
      d.rowOf userId workspaceId now m = some row ∧
        (filter.shows row.reasons && (!unreadOnly || row.unread)) = true := by
  have hid : ∀ x, d.rowOf userId workspaceId now x = some row → row.messageId = x.id := by
    intro x hrow
    unfold ActivityDb.rowOf at hrow
    obtain ⟨mr, -, hrow⟩ := Option.bind_eq_some_iff.mp hrow
    obtain ⟨-, hrow⟩ := Option.ite_none_right_eq_some.mp hrow
    rw [← Option.some.inj hrow]
  unfold ActivityDb.listActivity
  rw [mem_filter, mem_filterMap]
  constructor
  · rintro ⟨⟨⟨x, hx, hrow⟩, hshows⟩, heq⟩
    rw [hhas.only x hx ((hid x hrow).symm.trans heq)] at hrow
    exact ⟨hrow, hshows⟩
  · rintro ⟨hrow, hshows⟩
    exact ⟨⟨⟨m, hhas.mem, hrow⟩, hshows⟩, hid m hrow⟩

/-- A message is counted when its row is unread. -/
theorem counts_eq (hhas : d.Has userId m) :
    d.counts userId workspaceId now m = (d.rowOf userId workspaceId now m).any
      ActivityRow.unread := by
  unfold ActivityDb.counts ActivityDb.rowOf
  cases hroom : d.myRoom userId workspaceId now m.roomId with
  | none => rw [Option.any_none, Bool.and_false, Option.bind_none, Option.any_none]
  | some =>
    have hcandidate : m.id ∈ (d.candidates userId workspaceId now).map Prod.fst ↔
        d.reasonsOf userId workspaceId now m.id ≠ [] := by
      constructor
      · intro hmem
        obtain ⟨⟨x, reason⟩, hc, hx⟩ := mem_map.mp hmem
        rw [show x = m.id from hx, ActivityDb.mem_candidates hhas, hroom] at hc
        obtain ⟨mr', heq, hsays⟩ := hc
        rw [← Option.some.inj heq] at hsays
        exact ne_nil_of_mem ((ActivityDb.mem_reasonsOf hhas hroom).mpr hsays)
      · intro hne
        obtain ⟨reason, hreason⟩ := exists_mem_of_ne_nil _ hne
        exact mem_map.mpr ⟨(m.id, reason), of_decide_eq_true (mem_filter.mp hreason).2, rfl⟩
    rw [Option.any_some, Option.bind_some, decide_eq_decide.mpr hcandidate]
    dsimp only
    split
    · next hrow =>
      rw [Option.any_some, hrow.1, decide_eq_true hrow.2, Bool.true_and, Bool.true_and]
    · next hrow =>
      rw [Option.any_none, ← Bool.and_assoc, ← Bool.decide_coe (ActivityDb.isListed userId m),
        ← Bool.decide_and, decide_eq_false fun hand => hrow hand.symm, Bool.false_and]

theorem patchActivityItems_lists (recipe : List ActivityItem → ActivityFilter → Bool →
    List ActivityItem) {list : ActivityListState}
    (hlist : activity.lists filter unreadOnly = some list) (hready : list.status = .ready) :
    (patchActivityItems recipe activity).lists filter unreadOnly =
      some { list with items := recipe list.items filter unreadOnly } := by
  unfold patchActivityItems
  dsimp only
  rw [hlist, Option.map_some, if_pos hready]

/-- **What arrives is what would be loaded.** The client has what the server has after a message was
sent, and the message is new to both. If it does not mention the user by `@here` alone while the
user is not active, each loaded list has the rows that the server would list of it, and the other
items as before; and the number of unread ones is the larger one of before and after, unless the
message makes the user follow its thread. -/
theorem receives_what_would_be_listed (h : s.Copies userId now (db.send m active) m room)
    (hadmits : db.Admits m) (hhere : ¬m.MissesHere userId active)
    (hactivity : s.activity room.workspaceId = some activity) :
    ∃ activity',
      (s.receiveActivityMessage userId now m).activity room.workspaceId = some activity' ∧
      (∀ filter unreadOnly list, activity.lists filter unreadOnly = some list →
        list.status = .ready →
        (∀ i ∈ list.items, sameItem i (messageActivityItem m room [] true) = false) →
        ∃ list', activity'.lists filter unreadOnly = some list' ∧
          ∀ i, i ∈ list'.items ↔ i ∈ list.items ∨
          ∃ row ∈ (db.send m active).listActivity userId room.workspaceId now filter unreadOnly,
            row.messageId = m.id ∧ i = messageActivityItem m room row.reasons row.unread) ∧
      (activity.unreadCount = some (db.countUnreadActivity userId room.workspaceId now) →
        m.id ∉ s.countedActivity → ¬db.MakesFollow userId m active →
        activity'.unreadCount = some (max (db.countUnreadActivity userId room.workspaceId now)
          ((db.send m active).countUnreadActivity userId room.workspaceId now))) := by
  have hhas : (db.send m active).Has userId m := hadmits.has
  have hmention : ((db.send m active).roomMember m.roomId userId).isSome →
      (mentionsMe m.mentions userId true = true ↔ (db.send m active).Mentioned userId m) :=
    fun hmember => (mentionsMe_iff hhere).trans (mentioned_send hadmits
      (memberIds_of_send hmember)).symm
  have hrowOf := rowOf_eq h hhas hmention hadmits.threadSeq
  have hcounts : (db.send m active).counts userId room.workspaceId now m = _ := counts_eq hhas
  have hrows : ∀ filter unreadOnly i,
      (∃ row ∈ (db.send m active).listActivity userId room.workspaceId now filter unreadOnly,
        row.messageId = m.id ∧ i = messageActivityItem m room row.reasons row.unread) ↔
      ∃ row, (db.send m active).rowOf userId room.workspaceId now m = some row ∧
        (filter.shows row.reasons && (!unreadOnly || row.unread)) = true ∧
          i = messageActivityItem m room row.reasons row.unread := by
    intro filter unreadOnly i
    refine exists_congr fun row => ?_
    rw [← and_assoc, mem_listActivity hhas, and_assoc]
  set reasons := notifyReasons m.toThreadMessage userId (some room)
    (s.notificationLevels room.workspaceId) (s.threadOf room.workspaceId m.toThreadMessage) now true
    with hreasons
  set unread := isUnreadActivity m.toThreadMessage room
    (s.threadOf room.workspaceId m.toThreadMessage) with hunread
  unfold ActivityStore.receiveActivityMessage
  rw [h.shown]
  dsimp only
  rw [hactivity]
  dsimp only
  rw [← hreasons, ← hunread]
  by_cases hnone : reasons = []
  · rw [if_pos hnone] at hrowOf
    rw [if_pos hnone]
    refine ⟨activity, hactivity, fun filter unreadOnly list hlist _ _ =>
      ⟨list, hlist, fun i => ?_⟩, ?_⟩
    · rw [hrows, hrowOf]
      exact (or_iff_left fun ⟨_, hnever, _⟩ => nomatch hnever).symm
    · intro hcount _ hfollow
      rw [hcount, countUnreadActivity_eq, countUnreadActivity_eq]
      rw [hrowOf, Option.any_none] at hcounts
      refine congrArg some (max_eq_left (min_le_min_left _ ?_)).symm
      obtain ⟨hothers, hown⟩ := countP_send userId room.workspaceId now hadmits hfollow
      by_cases hsender : m.sender.id = userId
      · exact hown hsender
      · rw [hothers hsender, hcounts, if_neg Bool.false_ne_true, Nat.add_zero]
  · rw [if_neg hnone] at hrowOf
    rw [if_neg hnone]
    refine ⟨_, Function.update_self _ _ _, fun filter unreadOnly list hlist hready hnew => ?_, ?_⟩
    · have hlisted := patchActivityItems_lists (fun items filter unreadOnly =>
        if belongsTo (messageActivityItem m room reasons unread) filter unreadOnly then
          insertActivity items (messageActivityItem m room reasons unread) else items) hlist hready
      refine ⟨_, hlisted, fun i => ?_⟩
      rw [hrows, hrowOf]
      have hbelongs : belongsTo (messageActivityItem m room reasons unread) filter unreadOnly =
          (filter.shows reasons && (!unreadOnly || unread)) := by
        unfold belongsTo messageActivityItem
        cases unreadOnly <;> cases unread <;> simp
      dsimp only
      rw [hbelongs]
      split
      · next hshows =>
        have hput : i ∈ insertActivity list.items (messageActivityItem m room reasons unread) ↔ _ :=
          mem_insertActivity hnew
        rw [hput]
        refine or_congr_right ⟨fun heq => ⟨_, rfl, hshows, heq⟩, ?_⟩
        rintro ⟨row, heq, -, hi⟩
        rw [hi, ← Option.some.inj heq]
      · next hshows =>
        refine (or_iff_left ?_).symm
        rintro ⟨row, heq, hrow, -⟩
        rw [← Option.some.inj heq] at hrow
        exact hshows hrow
    · intro hcount hnew hfollow
      have hsender : m.sender.id ≠ userId := by
        intro hown
        refine hnone (hreasons.trans ?_)
        unfold notifyReasons
        exact if_pos (.inr (.inl hown))
      obtain ⟨hothers, -⟩ := countP_send userId room.workspaceId now hadmits hfollow
      rw [hrowOf, Option.any_some] at hcounts
      rw [countUnreadActivity_eq] at hcount
      rw [countUnreadActivity_eq, countUnreadActivity_eq, hothers hsender, hcounts]
      dsimp only [patchActivityItems]
      rw [decide_eq_true hnew, Bool.and_true, hcount]
      split
      · rw [Option.map_some]
        refine congrArg some ?_
        omega
      · rw [Nat.add_zero, max_self]

end Receive

/-! ## Two messages that are not the same on both sides -/

/-- Somebody says something in the room, in the thread of a message or in none. -/
def posted (n : ℕ) (mentions : List Mention) (thread : Option (Ulid × ℕ)) : ActivityMessage :=
  { Message.said 2 n n with
    mentions := mentions
    threadRootId := thread.map Prod.fst
    alsoInChannel := thread.isSome
    threadSeq := thread.map Prod.snd
    thread := none
    sentAt := ⟨n, [], Timestamp.trimmed_nil⟩ }

/-- A room of two, in which these messages were sent. -/
def roomOfTwo (messages : List ActivityMessage) : ActivityDb where
  rooms := fun roomId => if roomId = 0 then some (9, .roomPublic) else none
  roomMembers := [⟨0, 1, 0, none, false, none⟩, ⟨0, 2, 0, none, false, none⟩]
  workspaceMembers := fun _ _ => some none
  messages := messages
  messageMentions := []
  threadMembers := []

/-- The room, as the client has it. -/
def shownRoom : ActivityRoom := ⟨0, 9, .roomPublic, some ⟨none, false, none⟩, some 0⟩

/-- The row of the thread of message 1, which is read up to some reply. -/
def followedTo (lastReadThreadSeq : ℕ) : FollowedThread :=
  ⟨⟨1, "hello", false⟩, 2, ⟨3, [], Timestamp.trimmed_nil⟩, 2, lastReadThreadSeq, 1, true, 0⟩

/-- A client that has loaded the list of everything, which was empty. -/
def emptyActivity : WorkspaceActivity where
  lists := fun filter unreadOnly =>
    if filter = .all ∧ unreadOnly = false then some ⟨.ready, [], none, false⟩ else none
  unreadCount := some 0

/-- The client, with these threads. -/
def clientWith (threads : List FollowedThread) : ActivityStore where
  rooms := fun roomId => if roomId = 0 then some shownRoom else none
  notificationLevels := fun _ => none
  threadLists := fun _ => some threads
  activity := fun _ => some emptyActivity
  countedActivity := ∅

/-- The one who is named. -/
def named : Mention := ⟨.user, some ⟨1, "hina", "Hina"⟩⟩

theorem roomOfTwo_admits (messages : List ActivityMessage) (n : ℕ) (mentions : List Mention)
    (thread : Option (Ulid × ℕ)) (hnew : ∀ x ∈ messages, x.id ≠ n) :
    (roomOfTwo messages).Admits (posted n mentions thread) where
  members := by
    show [1, 2].Nodup
    decide
  fresh := hnew
  mentioned := nofun
  thread := nofun
  threadSeq := by
    show (thread.map Prod.snd).isSome = (thread.map Prod.fst).isSome
    rw [Option.isSome_map, Option.isSome_map]

/-- A message that names the user is put in, and counted. -/
theorem receives_what_would_be_listed_named : ∃ activity',
    ((clientWith []).receiveActivityMessage 1 0
      (posted 1 [named] none)).activity 9 = some activity' ∧
    activity'.unreadCount = some (max ((roomOfTwo []).countUnreadActivity 1 9 0)
      (((roomOfTwo []).send (posted 1 [named] none) []).countUnreadActivity 1 9 0)) := by
  have hcopies : (clientWith []).Copies 1 0 ((roomOfTwo []).send (posted 1 [named] none) [])
      (posted 1 [named] none) shownRoom :=
    ⟨rfl, rfl, rfl, ⟨0, le_rfl, rfl⟩, rfl, ⟨none, rfl, rfl⟩, rfl⟩
  obtain ⟨activity', hactivity, -, hcount⟩ := receives_what_would_be_listed hcopies
    (roomOfTwo_admits [] 1 [named] none fun _ h => nomatch h)
    (fun hmisses => nomatch hmisses.1)
    (rfl : (clientWith []).activity 9 = some emptyActivity)
  exact ⟨activity', hactivity, hcount (by decide) (Finset.notMem_empty _)
    fun ⟨_, hroot, _⟩ => nomatch hroot⟩

/-- **The two sides are not the same.** An `@here` is put in and counted by the client of a user who
was not active, and the server lists nothing; and a reply that makes the user follow its thread is
counted once, where the server counts the reply before it as well. -/
theorem live_activity_differs :
    (∃ m activity', (roomOfTwo []).Admits m ∧
      (clientWith []).Copies 1 0 ((roomOfTwo []).send m []) m shownRoom ∧
      ((roomOfTwo []).send m []).listActivity 1 9 0 .all false = [] ∧
      ((clientWith []).receiveActivityMessage 1 0 m).activity 9 = some activity' ∧
      (activity'.lists .all false).map (fun list => list.items.map fun i => i.message.id) =
        some [m.id]) ∧
    ∃ messages m activity', (roomOfTwo messages).Admits m ∧ m.mentions = [named] ∧
      (clientWith [followedTo 1]).Copies 1 0 ((roomOfTwo messages).send m []) m shownRoom ∧
      emptyActivity.unreadCount = some ((roomOfTwo messages).countUnreadActivity 1 9 0) ∧
      ((roomOfTwo messages).send m []).countUnreadActivity 1 9 0 = 2 ∧
      ((clientWith [followedTo 1]).receiveActivityMessage 1 0 m).activity 9 = some activity' ∧
      activity'.unreadCount = some 1 := by
  constructor
  · have hadmits := roomOfTwo_admits [] 1 [⟨.here, none⟩] none
      fun _ h => nomatch h
    exact ⟨posted 1 [⟨.here, none⟩] none, _, hadmits,
      ⟨rfl, rfl, rfl, ⟨0, le_rfl, rfl⟩, rfl, ⟨none, rfl, rfl⟩, rfl⟩, by decide, rfl, by decide⟩
  · have hadmits := roomOfTwo_admits [posted 1 [] none, posted 2 [] (some (1, 1))] 3 [named]
      (some (1, 2)) (by decide)
    exact ⟨[posted 1 [] none, posted 2 [] (some (1, 1))], posted 3 [named] (some (1, 2)),
      _, hadmits, rfl,
      ⟨rfl, rfl, rfl, ⟨0, le_rfl, rfl⟩, rfl, ⟨none, rfl, rfl⟩, by decide⟩, by decide,
        by decide, rfl,
      by decide⟩

end Hibari
