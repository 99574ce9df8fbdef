import Hibari.MentionBadge

/-!
# The badge counts what the server counts

While notices come in turn the client has counted the rows of the messages that have come and are not
read, as far as it has read (`Kept`). When all have come, these are the rows that the server counts
(`badge_counts`).
-/

namespace Hibari

variable {userId : Ulid} {active ids members : List Ulid} {kind : MentionKind} {messageId : Ulid}
    {rows : List MentionRow} {m : Message}

/-! ## Rows -/

/-- A message names a user. -/
def Message.names (m : Message) (userId : Ulid) : Prop :=
  ∃ x ∈ m.mentions, x.kind = .user ∧ x.user.map UserProfile.id = some userId

instance (m : Message) : Decidable (m.names userId) :=
  inferInstanceAs (Decidable (∃ x ∈ m.mentions, _ ∧ _))

variable (hmember : userId ∈ members)
include hmember

/-- What a statement adds to the rows of a user. -/
theorem createUserMentions_count (hnodup : members.Nodup) :
    (createUserMentions members ids kind messageId rows).countP
      (fun r => r.userId = none ∨ r.userId = some userId) =
    rows.countP (fun r => r.userId = none ∨ r.userId = some userId) +
      if userId ∈ ids ∧ some userId ∉ rows.map MentionRow.userId then 1 else 0 := by
  rw [createUserMentions, List.countP_append, List.countP_map]
  refine congrArg (List.countP _ rows + ·) ?_
  have hone : ∀ u : Ulid, ((fun r : MentionRow => decide (r.userId = none ∨ r.userId = some userId)) ∘
      fun u => ⟨messageId, some u, kind⟩) u = (u == userId) := by
    intro u
    show decide (some u = none ∨ some u = some userId) = (u == userId)
    rw [beq_eq_decide]
    simp only [reduceCtorEq, false_or, Option.some.injEq]
  rw [funext hone]
  show List.count userId _ = _
  split
  · next hnew =>
    refine List.count_eq_one_of_mem (hnodup.filter _) ?_
    exact List.mem_filter.mpr ⟨hmember, decide_eq_true hnew⟩
  · next hnot =>
    refine List.count_eq_zero_of_not_mem fun hmem => hnot ?_
    exact of_decide_eq_true (List.mem_filter.mp hmem).2

/-- Who has a row after it. -/
theorem mem_createUserMentions :
    some userId ∈ (createUserMentions members ids kind messageId rows).map MentionRow.userId ↔
      userId ∈ ids ∨ some userId ∈ rows.map MentionRow.userId := by
  rw [createUserMentions, List.map_append, List.mem_append, List.map_map]
  have hnew : some userId ∈ List.map (MentionRow.userId ∘ fun u => ⟨messageId, some u, kind⟩)
      (members.filter fun u => u ∈ ids ∧ some u ∉ rows.map MentionRow.userId) ↔
      userId ∈ ids ∧ some userId ∉ rows.map MentionRow.userId := by
    show some userId ∈ List.map some _ ↔ _
    rw [List.mem_map_of_injective (Option.some_injective _), List.mem_filter, decide_eq_true_iff,
      and_iff_right hmember]
  rw [hnew]
  tauto

/-- **The rows of a message** for a member: one for the room, and one for the member who is named, or
active when it says here. -/
theorem createMessageMentions_count (hnodup : members.Nodup) :
    MentionPost.count userId ⟨m, createMessageMentions members m (resolveHere active members m)⟩ =
      (if (m.mentions.any fun x => x.kind = .channel) then 1 else 0) +
        if m.names userId ∨ ((m.mentions.any fun x => x.kind = .here) = true ∧ userId ∈ active) then 1
        else 0 := by
  have hids : userId ∈ (m.mentions.filterMap fun x => if x.kind = .user then x.user.map UserProfile.id
      else none) ↔ m.names userId := by
    simp only [List.mem_filterMap, Option.ite_none_right_eq_some]
    rfl
  have hhere : userId ∈ resolveHere active members m ↔
      (m.mentions.any fun x => x.kind = .here) = true ∧ userId ∈ active := by
    rw [resolveHere]
    split
    · next h => rw [List.mem_filter, decide_eq_true_iff, and_iff_right hmember, and_iff_right h]
    · next h => exact iff_of_false List.not_mem_nil fun hand => h hand.1
  set ids := m.mentions.filterMap fun x => if x.kind = .user then x.user.map UserProfile.id else none
  set rows := createUserMentions members ids .user m.id []
  set channel := m.mentions.any fun x => x.kind = .channel
  set here := m.mentions.any fun x => x.kind = .here
  let P : MentionRow → Bool := fun r => r.userId = none ∨ r.userId = some userId
  have hfirst : rows.countP P = if m.names userId then 1 else 0 := by
    refine (createUserMentions_count hmember hnodup).trans ?_
    simp only [List.countP_nil, Nat.zero_add, List.map_nil, List.not_mem_nil, not_false_eq_true,
      and_true, hids]
  have hnamed : some userId ∈ rows.map MentionRow.userId ↔ m.names userId := by
    rw [mem_createUserMentions hmember, hids, List.map_nil, or_iff_left List.not_mem_nil]
  set rows' := if channel then rows ++ [⟨m.id, none, .channel⟩] else rows with hrows'
  have hsecond : rows'.countP P = (if channel then 1 else 0) + if m.names userId then 1 else 0 := by
    rw [hrows']
    split
    · rw [List.countP_append, hfirst, Nat.add_comm]
      rfl
    · rw [hfirst, Nat.zero_add]
  have hnamed' : some userId ∈ rows'.map MentionRow.userId ↔ m.names userId := by
    rw [hrows']
    split
    · rw [List.map_append, List.mem_append, hnamed]
      exact or_iff_left fun h => Option.some_ne_none _ (List.mem_singleton.mp h)
    · exact hnamed
  show List.countP P (if here && resolveHere active members m ≠ [] then
    createUserMentions members (resolveHere active members m) .here m.id rows' else rows') = _
  split
  · -- what is added for those who are active
    refine (createUserMentions_count hmember hnodup).trans ?_
    show rows'.countP P + _ = _
    rw [hsecond, Nat.add_assoc]
    refine congrArg ((if channel = true then 1 else 0) + ·) ?_
    simp only [hhere, hnamed']
    by_cases hnames : m.names userId
    · rw [if_pos hnames, if_neg fun h => h.2 hnames, if_pos (.inl hnames)]
    · rw [if_neg hnames, Nat.zero_add]
      exact if_congr ((and_iff_left hnames).trans (or_iff_right hnames).symm) rfl rfl
  · next hnone =>
    rw [hsecond]
    refine congrArg ((if channel = true then 1 else 0) + ·)
      (if_congr (or_iff_left fun h => hnone ?_).symm rfl rfl)
    refine Bool.and_eq_true_iff.mpr ⟨h.1, decide_eq_true fun hnil => ?_⟩
    exact List.not_mem_nil (hnil ▸ hhere.mpr h)

/-- A message without `@here` has a row for each whom it mentions. -/
theorem adds_le_count (hnodup : members.Nodup) (hhere : ∀ x ∈ m.mentions, x.kind ≠ .here) :
    BadgeState.adds userId m ≤
      MentionPost.count userId ⟨m, createMessageMentions members m (resolveHere active members m)⟩ := by
  rw [createMessageMentions_count hmember hnodup, BadgeState.adds]
  split
  · next hmentions =>
    obtain ⟨x, hx, htrue⟩ := List.any_eq_true.mp hmentions
    cases hkind : x.kind with
    | user =>
      rw [hkind, if_pos rfl] at htrue
      obtain ⟨u, hu, heq⟩ := (Option.any_eq_true _ _).mp htrue
      have hnames : m.names userId := by
        refine ⟨x, hx, hkind, ?_⟩
        rw [hu, Option.map_some, of_decide_eq_true heq]
      rw [if_pos (Or.inl hnames)]
      exact Nat.le_add_left _ _
    | channel =>
      rw [if_pos (List.any_eq_true.mpr ⟨x, hx, decide_eq_true hkind⟩)]
      exact Nat.le_add_right _ _
    | here => exact absurd hkind (hhere x hx)
  · exact Nat.zero_le _

/-! ## Sums -/

omit hmember

section Sums

variable {posts : List MentionPost} {P Q : MentionPost → Prop} [DecidablePred P] [DecidablePred Q]

/-- Messages with no rows for the user do not matter. -/
theorem countMentions_congr (h : ∀ p ∈ posts, 0 < p.count userId → (P p ↔ Q p)) :
    countMentions userId posts P = countMentions userId posts Q := by
  rw [countMentions, countMentions]
  refine congrArg List.sum (List.map_congr_left fun p hp => ?_)
  rcases Nat.eq_zero_or_pos (p.count userId) with hzero | hpos
  · rw [hzero, ite_self, ite_self]
  · exact if_congr (h p hp hpos) rfl rfl

theorem countMentions_append (x : MentionPost) : countMentions userId (posts ++ [x]) P =
    countMentions userId posts P + if P x then x.count userId else 0 := by
  rw [countMentions, List.map_append, List.sum_append, List.map_singleton, List.sum_singleton]
  rfl

theorem countMentions_of_not (h : ∀ p ∈ posts, 0 < p.count userId → ¬ P p) :
    countMentions userId posts P = 0 := by
  rw [countMentions]
  refine List.sum_eq_zero fun n hn => ?_
  obtain ⟨p, hp, rfl⟩ := List.mem_map.mp hn
  split
  · next hP => exact Nat.eq_zero_of_not_pos fun hpos => h p hp hpos hP
  · rfl

/-- One message more. -/
theorem countMentions_insert {x : MentionPost} (hn : posts.Nodup) (hx : x ∈ posts) (hnot : ¬ P x)
    (hQ : ∀ p ∈ posts, 0 < p.count userId → (Q p ↔ P p ∨ p = x)) :
    countMentions userId posts Q = countMentions userId posts P + x.count userId := by
  induction posts with
  | nil => cases hx
  | cons y posts ih =>
    obtain ⟨hy, hrest⟩ := List.nodup_cons.mp hn
    have hQ' : ∀ p ∈ posts, 0 < p.count userId → (Q p ↔ P p ∨ p = x) :=
      fun p hp => hQ p (.tail _ hp)
    show (if Q y then y.count userId else 0) + countMentions userId posts Q =
      (if P y then y.count userId else 0) + countMentions userId posts P + x.count userId
    rcases List.mem_cons.mp hx with rfl | hmem
    · -- it is the first one, and no other
      have hsame : countMentions userId posts Q = countMentions userId posts P := by
        refine countMentions_congr fun p hp hpos => ?_
        rw [hQ' p hp hpos, or_iff_left fun (heq : p = x) => hy (heq ▸ hp)]
      rw [hsame, if_neg hnot]
      rcases Nat.eq_zero_or_pos (x.count userId) with hzero | hpos
      · rw [hzero, ite_self]
        omega
      · rw [if_pos ((hQ x List.mem_cons_self hpos).mpr (.inr rfl))]
        omega
    · have hne : y ≠ x := fun heq => hy (heq ▸ hmem)
      have hfirst : (if Q y then y.count userId else 0) = if P y then y.count userId else 0 := by
        rcases Nat.eq_zero_or_pos (y.count userId) with hzero | hpos
        · rw [hzero, ite_self, ite_self]
        · refine if_congr ?_ rfl rfl
          rw [hQ y List.mem_cons_self hpos, or_iff_left hne]
      rw [hfirst, ih hrest hmem hQ']
      omega

end Sums

/-! ## What a notice does to the client -/

section Notices

variable {room : Room} {m : Message} {r : ReadNotice} {a b : ℕ}

theorem message_of_news (userId : Ulid) (hch : inChannel m = true) (hlt : room.lastMessageSeq < m.seq)
    (ha : room.lastReadSeq = some a) (hb : room.lastReadUserSeq = some b) :
    (applyNotice userId room (.message m)).lastMessageSeq = m.seq ∧
    (applyNotice userId room (.message m)).lastReadSeq =
      some (if isMine userId m then m.seq else a) ∧
    (applyNotice userId room (.message m)).lastReadUserSeq =
      some (if isMine userId m then m.userSeq else b) ∧
    (applyNotice userId room (.message m)).mentionCount =
      room.mentionCount + if isMine userId m then 0 else BadgeState.adds userId m := by
  show (applyMessageToRoom room m userId true).lastMessageSeq = _ ∧ _
  simp only [applyNotice, applyMessageToRoom, hch, if_neg hlt.not_ge, ha, hb, BadgeState.adds,
    Bool.not_true, Bool.false_eq_true, if_false, Option.isSome_some, true_and]
  cases hmine : isMine userId m <;> cases hmention : mentionsUser m.mentions userId <;> simp

theorem message_of_old (hch : inChannel m = true) (hle : m.seq ≤ room.lastMessageSeq) :
    applyNotice userId room (.message m) = room := by
  show applyMessageToRoom room m userId true = room
  simp only [applyMessageToRoom, hch, if_pos hle, Bool.not_true, Bool.false_eq_true, if_false]

theorem read_of_read (userId : Ulid) (r : ReadNotice)
    (ha : room.lastReadSeq = some a) (hb : room.lastReadUserSeq = some b) :
    (applyNotice userId room (.read r)).lastMessageSeq = room.lastMessageSeq ∧
    (applyNotice userId room (.read r)).lastReadSeq = some (max a r.lastReadSeq) ∧
    (applyNotice userId room (.read r)).lastReadUserSeq = some (max b r.lastReadUserSeq) ∧
    (applyNotice userId room (.read r)).mentionCount =
      if a < r.lastReadSeq ∨ b < r.lastReadUserSeq then r.mentionCount else room.mentionCount := by
  show (applyReadToRoom room r).lastMessageSeq = _ ∧ _
  simp only [applyNotice, applyReadToRoom, ha, hb, lt_max_iff, lt_irrefl, false_or, true_and]

end Notices

namespace BadgeState

variable {s s' : BadgeState} {a : BadgeAction}
  {p q x : MentionPost} {i : ℕ} {counted : List MentionPost}

/-- No message says here. -/
def NoHere (s : BadgeState) : Prop :=
  ∀ notice ∈ s.log, ∀ m, notice.1 = .message m → ∀ x ∈ m.mentions, x.kind ≠ .here

/-- **What is kept** while notices come in turn. -/
structure Kept (userId : Ulid) (s : BadgeState) : Prop extends s.Ordered userId where
  channel : ∀ notice ∈ s.log, ∀ m, notice.1 = .message m → inChannel m = true ∧
    ∃ p ∈ s.posts, p.message = m
  read : s.room.lastReadSeq.isSome ∧ s.room.lastReadUserSeq.isSome
  known : s.room.lastMessageSeq ≤ s.lastMessageSeq
  readLe : s.readUserSeq ≤ s.lastReadUserSeq
  /-- **The client has counted** what has come and is not read. -/
  counts : s.room.mentionCount = (countMentions userId s.posts fun p =>
    p.message.seq ≤ s.room.lastMessageSeq ∧ s.readUserSeq < p.message.userSeq) + s.extra
  reads : ∀ notice ∈ s.log, ∀ r, notice.1 = .read r → (∀ p ∈ notice.2, p ∈ s.posts) ∧
    r.lastReadUserSeq ≤ s.lastReadUserSeq ∧
    r.mentionCount = countMentions userId s.posts fun p => p ∈ notice.2
  reading : ∀ x ∈ s.reading, x.2 ≤ s.lastReadUserSeq
  /-- What the user has sent is read where it has come. -/
  own : ∀ p ∈ s.posts, isMine userId p.message = true → p.message.seq ≤ s.room.lastMessageSeq →
    p.message.userSeq ≤ s.readUserSeq
  come : ∀ p ∈ s.posts, p.message.seq ≤ s.room.lastMessageSeq ∨
    ∃ notice ∈ s.log, notice.1 = .message p.message
  arrived : ∀ i ∈ s.delivered, ∀ notice ∈ s.log[i]?, match notice.1 with
    | .message m => m.seq ≤ s.room.lastMessageSeq
    | .read r => r.lastReadUserSeq ≤ s.readUserSeq
  /-- Where the read position of the server is from. -/
  source : s.lastReadUserSeq ≤ s.readUserSeq ∨ (∃ x ∈ s.reading, x.2 = s.lastReadUserSeq) ∨
    ∃ notice ∈ s.log, match notice.1 with
      | .message m => isMine userId m = true ∧ m.userSeq = s.lastReadUserSeq
      | .read r => r.lastReadUserSeq = s.lastReadUserSeq
  index : ∀ i ∈ s.delivered, i < s.log.length
  rows : ∀ notice ∈ s.log, ∀ m, notice.1 = .message m → (∀ x ∈ m.mentions, x.kind ≠ .here) →
    ∀ p ∈ s.posts, p.message = m → adds userId m ≤ p.count userId
  here : s.NoHere → s.extra = 0

section

variable (h : s.Ordered userId)
include h

/-- Two messages are in one order, by place and by what was said. -/
theorem Ordered.apart (hp : p ∈ s.posts)
    (hq : q ∈ s.posts) (hne : p ≠ q) : p.message.seq ≠ q.message.seq ∧
      (p.message.seq < q.message.seq → p.message.userSeq ≤ q.message.userSeq) ∧
      (q.message.seq < p.message.seq → q.message.userSeq ≤ p.message.userSeq) := by
  let R : MentionPost → MentionPost → Prop := fun p q => p.message.seq ≠ q.message.seq ∧
    (p.message.seq < q.message.seq → p.message.userSeq ≤ q.message.userSeq) ∧
    (q.message.seq < p.message.seq → q.message.userSeq ≤ p.message.userSeq)
  have : Std.Symm R := ⟨fun x y hxy => ⟨hxy.1.symm, hxy.2.2, hxy.2.1⟩⟩
  have hall : s.posts.Pairwise R := h.seq.imp fun {x y} hxy =>
    ⟨hxy.1.ne, fun _ => hxy.2, fun hgt => absurd hxy.1 hgt.not_gt⟩
  exact hall.forall hp hq hne

theorem Ordered.nodup : s.posts.Nodup :=
  h.seq.imp fun {p q} hpq (heq : p = q) => absurd hpq.1 (heq ▸ lt_irrefl _)

theorem Ordered.eq_of_seq (hp : p ∈ s.posts)
    (hq : q ∈ s.posts) (heq : p.message.seq = q.message.seq) : p = q :=
  by_contra fun hne => (h.apart hp hq hne).1 heq

/-- What was said before a message is no more than with it. -/
theorem Ordered.userSeq_le (hp : p ∈ s.posts)
    (hq : q ∈ s.posts) (hle : p.message.seq ≤ q.message.seq) :
    p.message.userSeq ≤ q.message.userSeq := by
  by_cases heq : p = q
  · rw [heq]
  · obtain ⟨hne, hlt, -⟩ := h.apart hp hq heq
    exact hlt (lt_of_le_of_ne hle hne)

end

theorem kept_of_init (hs : (system userId).init s) : s.Kept userId := by
  obtain ⟨hordered, hloaded, hreading, hlog, hdelivered, hextra⟩ := hs
  have hread : s.readUserSeq = s.lastReadUserSeq := by
    rw [readUserSeq, hloaded.lastReadUserSeq, Option.getD_some]
  have hlast : s.room.lastMessageSeq = s.lastMessageSeq := hloaded.lastMessageSeq
  have hnone : ∀ notice, notice ∉ s.log := by
    rw [hlog]
    exact fun notice => List.not_mem_nil
  refine ⟨hordered, fun notice hn => absurd hn (hnone notice), ⟨?_, ?_⟩, hlast.le, hread.le, ?_,
    fun notice hn => absurd hn (hnone notice), ?_, ?_, ?_, ?_, .inl hread.ge, ?_,
    fun notice hn => absurd hn (hnone notice), fun _ => hextra⟩
  · rw [hloaded.lastReadSeq]
    rfl
  · rw [hloaded.lastReadUserSeq]
    rfl
  · rw [hloaded.mentionCount, countRoomMentions, hread, hlast, hextra, Nat.add_zero]
    exact countMentions_congr fun p hp _ => (and_iff_right (hordered.last p hp).1).symm
  · rw [hreading]
    exact nofun
  · intro p hp hmine _
    rw [hread]
    exact hordered.mine p hp hmine
  · intro p hp
    rw [hlast]
    exact .inl (hordered.last p hp).1
  · rw [hdelivered]
    exact nofun
  · rw [hdelivered]
    exact nofun

variable (h : s.Kept userId)
include h

/-- A message is sent. -/
theorem Kept.post {m : Message} {members active : List Ulid}
    (hpost : s.Posts userId m members) : (s.post userId m members active).Kept userId := by
  obtain ⟨hch, hseq, huser, -, -, hmember, hnodup⟩ := hpost
  set x : MentionPost := ⟨m, createMessageMentions members m (resolveHere active members m)⟩
  have hgrown : s.lastReadUserSeq ≤ (s.post userId m members active).lastReadUserSeq := by
    show _ ≤ if isMine userId m then _ else _
    split
    · exact le_max_left _ _
    · exact le_rfl
  have hfresh : ∀ p ∈ s.posts, p ≠ x := by
    intro p hp heq
    have hle := (h.last p hp).1
    rw [heq] at hle
    exact absurd hseq (not_lt.mpr hle)
  have hnew : ¬ m.seq ≤ s.room.lastMessageSeq := (lt_of_le_of_lt h.known hseq).not_ge
  have hmem : ∀ {p}, p ∈ (s.post userId m members active).posts ↔ p ∈ s.posts ∨ p = x := by
    intro p
    exact List.mem_append.trans (or_congr_right List.mem_singleton)
  have hlog : ∀ {notice}, notice ∈ (s.post userId m members active).log ↔
      notice ∈ s.log ∨ notice = (.message m, []) := by
    intro notice
    exact List.mem_append.trans (or_congr_right List.mem_singleton)
  have hat : ∀ i ∈ s.delivered, (s.post userId m members active).log[i]? = s.log[i]? :=
    fun i hi => List.getElem?_append_left (h.index i hi)
  refine ⟨⟨?_, ?_, ?_⟩, ?_, h.read, h.known.trans hseq.le, h.readLe.trans hgrown, ?_, ?_, ?_, ?_, ?_,
    ?_, ?_, ?_, ?_, fun hhere => h.here fun notice hn => hhere notice (hlog.mpr (.inl hn))⟩
  · -- it comes last
    refine List.pairwise_append.mpr ⟨h.seq, List.pairwise_singleton _ _, fun p hp q hq => ?_⟩
    obtain rfl := List.mem_singleton.mp hq
    exact ⟨lt_of_le_of_lt (h.last p hp).1 hseq, (h.last p hp).2.trans huser⟩
  · intro p hp
    rcases hmem.mp hp with hold | rfl
    · exact ⟨(h.last p hold).1.trans hseq.le, (h.last p hold).2.trans huser⟩
    · exact ⟨le_rfl, le_rfl⟩
  · intro p hp hmine
    rcases hmem.mp hp with hold | rfl
    · exact (h.mine p hold hmine).trans hgrown
    · show m.userSeq ≤ if isMine userId m then _ else _
      rw [if_pos hmine]
      exact le_max_right _ _
  · intro notice hnotice m' hm'
    rcases hlog.mp hnotice with hold | rfl
    · obtain ⟨hchannel, p, hp, heq⟩ := h.channel notice hold m' hm'
      exact ⟨hchannel, p, hmem.mpr (.inl hp), heq⟩
    · cases hm'
      exact ⟨hch, x, hmem.mpr (.inr rfl), rfl⟩
  · show s.room.mentionCount = countMentions userId (s.posts ++ [x]) _ + s.extra
    rw [countMentions_append, if_neg fun hP => hnew hP.1, Nat.add_zero]
    exact h.counts
  · intro notice hnotice r hr
    rcases hlog.mp hnotice with hold | rfl
    · obtain ⟨hsub, hle, hcount⟩ := h.reads notice hold r hr
      refine ⟨fun p hp => hmem.mpr (.inl (hsub p hp)), hle.trans hgrown, ?_⟩
      show r.mentionCount = countMentions userId (s.posts ++ [x]) _
      rw [countMentions_append, if_neg fun hx => hfresh x (hsub x hx) rfl, Nat.add_zero]
      exact hcount
    · cases hr
  · exact fun y hy => (h.reading y hy).trans hgrown
  · intro p hp hmine hle
    rcases hmem.mp hp with hold | rfl
    · exact h.own p hold hmine hle
    · exact absurd hle hnew
  · intro p hp
    rcases hmem.mp hp with hold | rfl
    · refine (h.come p hold).imp_right fun ⟨notice, hnotice, heq⟩ => ?_
      exact ⟨notice, hlog.mpr (.inl hnotice), heq⟩
    · exact .inr ⟨_, hlog.mpr (.inr rfl), rfl⟩
  · intro i hi notice hnotice
    rw [hat i hi] at hnotice
    exact h.arrived i hi notice hnotice
  · by_cases hmoves : isMine userId m = true ∧ s.lastReadUserSeq < m.userSeq
    · refine .inr (.inr ⟨_, hlog.mpr (.inr rfl), hmoves.1, ?_⟩)
      show m.userSeq = if isMine userId m then _ else _
      rw [if_pos hmoves.1, max_eq_right hmoves.2.le]
    · have hsame : (s.post userId m members active).lastReadUserSeq = s.lastReadUserSeq := by
        show (if isMine userId m then _ else _) = _
        split
        · next hmine => exact max_eq_left (not_lt.mp fun hlt => hmoves ⟨hmine, hlt⟩)
        · rfl
      rw [hsame]
      refine h.source.imp_right fun hsource => hsource.imp_right fun ⟨notice, hnotice, hmatch⟩ => ?_
      exact ⟨notice, hlog.mpr (.inl hnotice), hmatch⟩
  · intro i hi
    show i < (s.log ++ [_]).length
    rw [List.length_append]
    exact (h.index i hi).trans_le (Nat.le_add_right _ _)
  · intro notice hnotice m' hm' hhere p hp heq
    rcases hlog.mp hnotice with hold | rfl
    · obtain ⟨-, q, hq, hqm⟩ := h.channel notice hold m' hm'
      rcases hmem.mp hp with hbefore | rfl
      · exact h.rows notice hold m' hm' hhere p hbefore heq
      · have hle := (h.last q hq).1
        rw [hqm, ← heq] at hle
        exact absurd hseq hle.not_gt
    · cases hm'
      rcases hmem.mp hp with hbefore | rfl
      · have hle := (h.last p hbefore).1
        rw [heq] at hle
        exact absurd hseq hle.not_gt
      · exact adds_le_count hmember hnodup hhere

/-- The read position moves. -/
theorem Kept.advance (seq : ℕ) : (s.advance seq).Kept userId := by
  have hgrown : s.lastReadUserSeq ≤ (s.advance seq).lastReadUserSeq := le_max_left _ _
  refine ⟨⟨h.seq, h.last, fun p hp hmine => (h.mine p hp hmine).trans hgrown⟩, h.channel, h.read,
    h.known, h.readLe.trans hgrown, h.counts, fun notice hnotice r hr => ?_, fun x hx => ?_, h.own,
    h.come, h.arrived, ?_, h.index, h.rows, h.here⟩
  · obtain ⟨hsub, hle, hcount⟩ := h.reads notice hnotice r hr
    exact ⟨hsub, hle.trans hgrown, hcount⟩
  · rcases List.mem_append.mp hx with hold | hnew
    · exact (h.reading x hold).trans hgrown
    · rw [List.mem_singleton.mp hnew]
      rfl
  · exact .inr (.inl ⟨_, List.mem_append_right _ (.head _), rfl⟩)

omit h

/-- What is counted is in the notice. -/
theorem counted_eq (h : s.Ordered userId) (ok : Bool) :
    (if ok then s.countRoomMentions userId else 0) =
      countMentions userId s.posts fun p => p ∈ s.counted ok := by
  cases ok with
  | false => exact (countMentions_of_not fun p _ _ hp => nomatch hp).symm
  | true =>
    show s.countRoomMentions userId = _
    refine countMentions_congr fun p hp _ => ?_
    show _ ↔ p ∈ s.posts.filter _
    rw [List.mem_filter, and_iff_right hp, decide_eq_true_iff]

include h

/-- The rows are counted. -/
theorem Kept.count {ok : Bool} {read : ℕ × ℕ} (hread : s.reading[i]? = some read) :
    ({ s with
      reading := s.reading.eraseIdx i
      log := s.log ++ [(.read ⟨read.1, read.2, if ok then s.countRoomMentions userId else 0⟩,
        s.counted ok)] } : BadgeState).Kept userId := by
  have hlog : ∀ {notice x}, notice ∈ s.log ++ [x] ↔ notice ∈ s.log ∨ notice = x :=
    List.mem_append.trans (or_congr_right List.mem_singleton)
  refine ⟨⟨h.seq, h.last, h.mine⟩, ?_, h.read, h.known, h.readLe, h.counts, ?_,
    fun x hx => h.reading x (List.eraseIdx_subset hx), h.own, ?_, ?_, ?_, ?_, ?_,
    fun hhere => h.here fun notice hn => hhere notice (hlog.mpr (.inl hn))⟩
  · intro notice hnotice m hm
    rcases hlog.mp hnotice with hold | rfl
    · exact h.channel notice hold m hm
    · cases hm
  · intro notice hnotice r hr
    rcases hlog.mp hnotice with hold | rfl
    · exact h.reads notice hold r hr
    · cases hr
      refine ⟨fun p hp => ?_, h.reading read (List.mem_of_getElem? hread), counted_eq h.toOrdered ok⟩
      cases ok with
      | false => cases hp
      | true => exact (List.mem_filter.mp hp).1
  · intro p hp
    refine (h.come p hp).imp_right fun ⟨notice, hnotice, heq⟩ => ?_
    exact ⟨notice, hlog.mpr (.inl hnotice), heq⟩
  · intro j hj notice hnotice
    rw [List.getElem?_append_left (h.index j hj)] at hnotice
    exact h.arrived j hj notice hnotice
  · refine h.source.imp_right fun hsource => ?_
    rcases hsource with ⟨x, hx, heq⟩ | ⟨notice, hnotice, hmatch⟩
    · obtain ⟨j, hj⟩ := List.getElem?_of_mem hx
      by_cases hji : j = i
      · -- this one is counted now
        rw [hji, hread] at hj
        cases hj
        exact .inr ⟨_, hlog.mpr (.inr rfl), heq⟩
      · exact .inl ⟨x, List.mem_eraseIdx_iff_getElem?.mpr ⟨j, hji, hj⟩, heq⟩
    · exact .inr ⟨notice, hlog.mpr (.inl hnotice), hmatch⟩
  · intro j hj
    show j < (s.log ++ [_]).length
    rw [List.length_append]
    exact (h.index j hj).trans_le (Nat.le_add_right _ _)
  · intro notice hnotice m hm
    rcases hlog.mp hnotice with hold | rfl
    · exact h.rows notice hold m hm
    · cases hm

/-- The client gets further. -/
theorem Kept.receive {extra : ℕ} {room : Room} (hi : i < s.log.length)
    (hread : room.lastReadSeq.isSome ∧ room.lastReadUserSeq.isSome)
    (hknown : room.lastMessageSeq ≤ s.lastMessageSeq)
    (hforth : s.room.lastMessageSeq ≤ room.lastMessageSeq)
    (hfurther : s.readUserSeq ≤ room.lastReadUserSeq.getD 0)
    (hreadLe : room.lastReadUserSeq.getD 0 ≤ s.lastReadUserSeq)
    (hcounts : room.mentionCount = (countMentions userId s.posts fun p =>
      p.message.seq ≤ room.lastMessageSeq ∧
        room.lastReadUserSeq.getD 0 < p.message.userSeq) + extra)
    (hown : ∀ p ∈ s.posts, isMine userId p.message = true →
      p.message.seq ≤ room.lastMessageSeq → p.message.userSeq ≤ room.lastReadUserSeq.getD 0)
    (harrived : ∀ notice ∈ s.log[i]?, match notice.1 with
      | .message m => m.seq ≤ room.lastMessageSeq
      | .read r => r.lastReadUserSeq ≤ room.lastReadUserSeq.getD 0)
    (hhere : s.NoHere → extra = 0) :
    ({ s with delivered := i :: s.delivered, room := room, extra := extra } :
      BadgeState).Kept userId := by
  refine ⟨⟨h.seq, h.last, h.mine⟩, h.channel, hread, hknown, hreadLe, hcounts, h.reads, h.reading, hown,
    fun p hp => (h.come p hp).imp_left fun hle => hle.trans hforth, fun j hj notice hnotice => ?_,
    h.source.imp_left fun hle => hle.trans hfurther, fun j hj => ?_,
    h.rows, hhere⟩
  · rcases List.mem_cons.mp hj with rfl | hold
    · exact harrived notice hnotice
    · have hbefore := h.arrived j hold notice hnotice
      cases hn : notice.1 with
      | message =>
        rw [hn] at hbefore
        exact hbefore.trans hforth
      | read =>
        rw [hn] at hbefore
        exact hbefore.trans hfurther
  · rcases List.mem_cons.mp hj with rfl | hold
    · exact hi
    · exact h.index j hold

omit h

theorem Ordered.rowsOf_eq (h : s.Ordered userId) (hx : x ∈ s.posts) :
    s.rowsOf userId x.message = x.count userId := by
  cases hfind : s.posts.find? fun p => p.message = x.message with
  | none =>
    have hnone := List.find?_eq_none.mp hfind x hx
    exact absurd (decide_eq_true rfl) hnone
  | some p =>
    have htrue : decide (p.message = x.message) = true :=
      List.find?_some (p := fun p : MentionPost => decide (p.message = x.message)) hfind
    have heq : p.message = x.message := of_decide_eq_true htrue
    have hsame : p = x := h.eq_of_seq (List.mem_of_find?_eq_some hfind) hx (congrArg Message.seq heq)
    rw [rowsOf, hfind, hsame, Option.map_some, Option.getD_some]

section

variable (h : s.Kept userId)
include h

/-- **What the client has counted** after a message of somebody else that is news. -/
theorem Kept.counts_of_news (hx : x ∈ s.posts) (hlt : s.room.lastMessageSeq < x.message.seq)
    (hbetween : ∀ p ∈ s.posts, s.room.lastMessageSeq < p.message.seq →
      p.message.seq < x.message.seq → p.count userId = 0)
    (hunread : 0 < x.count userId → s.readUserSeq < x.message.userSeq) :
    (countMentions userId s.posts fun p => p.message.seq ≤ x.message.seq ∧
      s.readUserSeq < p.message.userSeq) = (countMentions userId s.posts fun p =>
        p.message.seq ≤ s.room.lastMessageSeq ∧ s.readUserSeq < p.message.userSeq) +
          x.count userId := by
  have hcases : ∀ p ∈ s.posts, 0 < p.count userId →
      (p.message.seq ≤ x.message.seq ↔ p.message.seq ≤ s.room.lastMessageSeq ∨ p = x) := by
    intro p hp hpos
    constructor
    · intro hle
      rcases Nat.lt_or_ge s.room.lastMessageSeq p.message.seq with hgt | hold
      · rcases hle.lt_or_eq with hbefore | heq
        · exact absurd (hbetween p hp hgt hbefore) hpos.ne'
        · exact .inr (h.eq_of_seq hp hx heq)
      · exact .inl hold
    · rintro (hle | rfl)
      · exact hle.trans hlt.le
      · exact le_rfl
  refine countMentions_insert h.nodup hx (fun hP => absurd hlt hP.1.not_gt) fun p hp hpos => ?_
  rw [hcases p hp hpos]
  constructor
  · rintro ⟨hle | rfl, hread⟩
    · exact .inl ⟨hle, hread⟩
    · exact .inr rfl
  · rintro (⟨hle, hread⟩ | rfl)
    · exact ⟨.inl hle, hread⟩
    · exact ⟨.inr rfl, hunread hpos⟩

/-- A message arrives in turn. -/
theorem Kept.deliver_message {m : Message}
    (hi : s.log[i]? = some (.message m, counted)) (hturn : s.NoticeInTurn userId (.message m, counted)) :
    ({ s with
      delivered := i :: s.delivered
      room := applyNotice userId s.room (.message m)
      extra := s.extraAfter userId (.message m) } : BadgeState).Kept userId := by
  obtain ⟨hch, x, hx, rfl⟩ := h.channel _ (List.mem_of_getElem? hi) m rfl
  obtain ⟨a, ha⟩ := Option.isSome_iff_exists.mp h.read.1
  obtain ⟨b, hb⟩ := Option.isSome_iff_exists.mp h.read.2
  have hlen : i < s.log.length := (List.getElem?_eq_some_iff.mp hi).1
  have hread : s.readUserSeq = b := by rw [readUserSeq, hb, Option.getD_some]
  rcases Nat.lt_or_ge s.room.lastMessageSeq x.message.seq with hlt | hold
  · obtain ⟨hbetween, hcase⟩ := hturn hlt
    obtain ⟨hlast, hreadSeq, hreadUser, hcount⟩ := message_of_news userId hch hlt ha hb
    have harrived : ∀ notice ∈ s.log[i]?, match notice.1 with
        | .message m => m.seq ≤ (applyNotice userId s.room (.message x.message)).lastMessageSeq
        | .read r => r.lastReadUserSeq ≤
          (applyNotice userId s.room (.message x.message)).lastReadUserSeq.getD 0 := by
      intro notice hnotice
      rw [hi] at hnotice
      cases hnotice
      exact hlast.ge
    have hsome : (applyNotice userId s.room (.message x.message)).lastReadSeq.isSome ∧
        (applyNotice userId s.room (.message x.message)).lastReadUserSeq.isSome := by
      rw [hreadSeq, hreadUser]
      exact ⟨rfl, rfl⟩
    cases hmine : isMine userId x.message with
    | true =>
      rw [if_pos hmine] at hcase hcount hreadUser
      obtain ⟨hfurther, hnone⟩ := hcase
      have hextra : s.extraAfter userId (.message x.message) = s.extra := by
        rw [extraAfter, if_neg]
        rw [hmine]
        exact fun hand => Bool.noConfusion hand.2
      rw [hextra]
      refine h.receive hlen hsome ?_ ?_ ?_ ?_ ?_ ?_ harrived h.here
      · rw [hlast]
        exact (h.last x hx).1
      · rw [hlast]
        exact hlt.le
      · rw [hreadUser]
        exact hfurther
      · rw [hreadUser]
        exact h.mine x hx hmine
      · -- nothing is unread before and after
        rw [hcount, Nat.add_zero, h.counts, hlast, hreadUser, Option.getD_some]
        rw [countMentions_of_not fun p hp hpos hP => absurd (hnone p hp hP.1 hpos) hP.2.not_ge,
          countMentions_of_not fun p hp _ hP =>
            absurd (h.userSeq_le hp hx hP.1) hP.2.not_ge]
      · rw [hlast, hreadUser]
        exact fun p hp _ hle => h.userSeq_le hp hx hle
    | false =>
      rw [if_neg (Bool.eq_false_iff.mp hmine)] at hcase hcount hreadUser
      obtain ⟨hrows, hunread⟩ := hcase x hx rfl
      have hextra : s.extraAfter userId (.message x.message) =
          s.extra + (adds userId x.message - x.count userId) := by
        rw [extraAfter, if_pos ⟨hlt, hmine⟩, h.rowsOf_eq hx]
      rw [hextra]
      refine h.receive hlen hsome ?_ ?_ ?_ ?_ ?_ ?_ harrived fun hhere => ?_
      · rw [hlast]
        exact (h.last x hx).1
      · rw [hlast]
        exact hlt.le
      · rw [hreadUser]
        exact hread.le
      · rw [hreadUser]
        exact hread.ge.trans h.readLe
      · have hnews := h.counts_of_news hx hlt (fun p hp hgt hlt' => (hbetween p hp hgt hlt').1)
          hunread
        rw [hread] at hnews
        rw [hcount, h.counts, hlast, hreadUser, Option.getD_some, hnews, hread]
        omega
      · rw [hlast, hreadUser]
        intro p hp hpmine hle
        rcases Nat.lt_or_ge s.room.lastMessageSeq p.message.seq with hgt | hbefore
        · rcases hle.lt_or_eq with hlt' | heq
          · exact absurd hpmine (Bool.eq_false_iff.mp (hbetween p hp hgt hlt').2)
          · obtain rfl := h.eq_of_seq hp hx heq
            exact absurd hpmine (Bool.eq_false_iff.mp hmine)
        · exact hread ▸ h.own p hp hpmine hbefore
      · have hle := h.rows _ (List.mem_of_getElem? hi) x.message rfl
          (hhere _ (List.mem_of_getElem? hi) x.message rfl) x hx rfl
        rw [h.here hhere, Nat.zero_add, Nat.sub_eq_zero_of_le hle]
  · have hextra : s.extraAfter userId (.message x.message) = s.extra := by
      rw [extraAfter, if_neg fun hand => absurd hand.1 hold.not_gt]
    rw [message_of_old hch hold, hextra]
    refine h.receive hlen h.read h.known le_rfl le_rfl h.readLe h.counts h.own ?_ h.here
    intro notice hnotice
    rw [hi] at hnotice
    cases hnotice
    exact hold

/-- A read notice arrives in turn. -/
theorem Kept.deliver_read {r : ReadNotice}
    (hi : s.log[i]? = some (.read r, counted)) (hturn : s.NoticeInTurn userId (.read r, counted)) :
    ({ s with
      delivered := i :: s.delivered
      room := applyNotice userId s.room (.read r)
      extra := s.extraAfter userId (.read r) } : BadgeState).Kept userId := by
  obtain ⟨-, hle, hcounted⟩ := h.reads _ (List.mem_of_getElem? hi) r rfl
  obtain ⟨a, ha⟩ := Option.isSome_iff_exists.mp h.read.1
  obtain ⟨b, hb⟩ := Option.isSome_iff_exists.mp h.read.2
  have hlen : i < s.log.length := (List.getElem?_eq_some_iff.mp hi).1
  have hread : s.readUserSeq = b := by rw [readUserSeq, hb, Option.getD_some]
  obtain ⟨hlast, hreadSeq, hreadUser, hcount⟩ :=
    read_of_read userId r ha hb
  have hreads : s.Reads r ↔ a < r.lastReadSeq ∨ b < r.lastReadUserSeq := by
    rw [Reads, hread, ha, Option.getD_some]
  refine h.receive hlen ?_ ?_ ?_ ?_ ?_ ?_ ?_ ?_ fun hhere => ?_
  · rw [hreadSeq, hreadUser]
    exact ⟨rfl, rfl⟩
  · rw [hlast]
    exact h.known
  · rw [hlast]
  · rw [hreadUser, hread]
    exact le_max_left _ _
  · rw [hreadUser]
    exact max_le (hread ▸ h.readLe) hle
  · rw [hlast, hreadUser, Option.getD_some, hcount, extraAfter]
    by_cases hmoves : s.Reads r
    · rw [if_pos (hreads.mp hmoves), if_pos hmoves, Nat.add_zero, hcounted, ← hread]
      exact countMentions_congr fun p hp hpos => hturn hmoves p hp hpos
    · have hsame : max b r.lastReadUserSeq = b :=
        max_eq_left (not_lt.mp fun hlt => hmoves (hreads.mpr (.inr hlt)))
      rw [if_neg (mt hreads.mpr hmoves), if_neg hmoves, hsame, ← hread]
      exact h.counts
  · rw [hlast, hreadUser]
    exact fun p hp hmine hcome => (hread ▸ h.own p hp hmine hcome).trans (le_max_left _ _)
  · intro notice hnotice
    rw [hi] at hnotice
    cases hnotice
    rw [hreadUser]
    exact le_max_right _ _
  · rw [extraAfter]
    split
    · rfl
    · exact h.here hhere

/-- **One step keeps it**, in turn. -/
theorem Kept.act (hturn : s.InTurn userId a) (hact : act userId s a = some s') :
    s'.Kept userId := by
  cases a with
  | post =>
    obtain ⟨hpost, heq⟩ := Option.ite_none_right_eq_some.mp hact
    exact Option.some.inj heq ▸ h.post hpost
  | advance seq => exact Option.some.inj hact ▸ h.advance seq
  | count =>
    obtain ⟨read, hread, rfl⟩ := Option.map_eq_some_iff.mp hact
    exact h.count hread
  | deliver =>
    obtain ⟨⟨notice, counted⟩, hi, rfl⟩ := Option.map_eq_some_iff.mp hact
    have hnotice := hturn _ hi
    cases notice with
    | message => exact h.deliver_message hi hnotice
    | read => exact h.deliver_read hi hnotice

/-- **When all has come the numbers are the same.** -/
theorem Kept.count_eq (hreading : s.reading = []) (hall : ∀ i < s.log.length, i ∈ s.delivered) :
    s.room.mentionCount = s.countRoomMentions userId + s.extra := by
  have hcome : ∀ p ∈ s.posts, p.message.seq ≤ s.room.lastMessageSeq := by
    intro p hp
    refine (h.come p hp).elim id fun ⟨notice, hnotice, heq⟩ => ?_
    obtain ⟨i, hi⟩ := List.getElem?_of_mem hnotice
    have harrived := h.arrived i (hall i (List.getElem?_eq_some_iff.mp hi).1) notice hi
    rw [heq] at harrived
    exact harrived
  have hread : s.readUserSeq = s.lastReadUserSeq := by
    refine le_antisymm h.readLe (h.source.elim id fun hsource => ?_)
    rcases hsource with ⟨x, hx, -⟩ | ⟨notice, hnotice, hmatch⟩
    · rw [hreading] at hx
      cases hx
    · obtain ⟨i, hi⟩ := List.getElem?_of_mem hnotice
      have harrived := h.arrived i (hall i (List.getElem?_eq_some_iff.mp hi).1) notice hi
      cases hn : notice.1 with
      | message m =>
        rw [hn] at hmatch harrived
        obtain ⟨-, p, hp, rfl⟩ := h.channel notice hnotice m hn
        rw [← hmatch.2]
        exact h.own p hp hmatch.1 harrived
      | read =>
        rw [hn] at hmatch harrived
        exact hmatch ▸ harrived
  rw [h.counts, countRoomMentions, hread]
  refine congrArg (· + s.extra) (countMentions_congr fun p hp _ => and_iff_right (hcome p hp))

end

/-- **The badge is what the server counts** when all that was sent has come in turn, but for messages
that say here to a user who is not active: the client counts those. -/
theorem badge_counts (hs : (system userId).ReachableBy (fun s a => s.InTurn userId a) s)
    (hreading : s.reading = []) (hall : ∀ i < s.log.length, i ∈ s.delivered) :
    s.room.mentionCount = s.countRoomMentions userId + s.extra ∧
      (s.NoHere → s.room.mentionCount = s.countRoomMentions userId) := by
  have h : s.Kept userId := hs.invariant (I := Kept userId) (fun _ => kept_of_init)
    fun _ _ _ h hturn hact => h.act hturn hact
  have heq := h.count_eq hreading hall
  exact ⟨heq, fun hhere => by rw [heq, h.here hhere, Nat.add_zero]⟩

/-! ## Two mentions -/

/-- A room with nothing in it. -/
def quiet : BadgeState where
  posts := []
  lastMessageSeq := 0
  lastUserSeq := 0
  lastReadSeq := 0
  lastReadUserSeq := 0
  reading := []
  log := []
  delivered := []
  room := ⟨0, 0, none, none, some 0, some 0, 0, 0⟩
  extra := 0

theorem quiet_init : (system 1).init quiet := by
  refine ⟨⟨List.Pairwise.nil, fun p hp => ?_, fun p hp => ?_⟩, ⟨rfl, rfl, rfl, rfl⟩, rfl, rfl, rfl, rfl⟩
  · cases hp
  · cases hp

/-- Somebody names the user, who reads it and is away when `@here` is said. -/
def twoMentions : List BadgeAction :=
  [.post { Message.said 2 1 1 with mentions := [⟨.user, some ⟨1, "a", "A"⟩⟩] } [1, 2] [2],
    .deliver 0, .advance 1, .count 0 true, .deliver 1,
    .post { Message.said 2 2 2 with mentions := [⟨.here, none⟩] } [1, 2] [2], .deliver 2]

/-- All of it has come in turn. -/
theorem badge_counts_twoMentions : ∃ s, (system 1).ReachableBy (fun s a => s.InTurn 1 a) s ∧
    s.delivered = [2, 1, 0] ∧ s.room.mentionCount = s.countRoomMentions 1 + s.extra := by
  have hrun : ((system 1).runBy (fun s a => s.InTurn 1 a) quiet twoMentions).any (fun s =>
      decide (s.delivered = [2, 1, 0] ∧ s.log.length = 3 ∧ s.reading = [])) = true := by decide +kernel
  obtain ⟨s, hreach, htest⟩ := TransitionSystem.exists_of_runBy hrun quiet_init
  obtain ⟨hdelivered, hlength, hreading⟩ := of_decide_eq_true htest
  refine ⟨s, hreach, hdelivered, (badge_counts hreach hreading fun i hi => ?_).1⟩
  rw [hlength] at hi
  rw [hdelivered]
  interval_cases i <;> decide

/-- **The badge counts more than the server** after `@here` to a user who is away. -/
theorem badge_counts_here : ∃ s, (system 1).Reachable s ∧ s.reading = [] ∧
    (∀ i < s.log.length, i ∈ s.delivered) ∧ s.room.mentionCount = 1 ∧ s.countRoomMentions 1 = 0 := by
  have hrun : ((system 1).run quiet twoMentions).any (fun s => decide (s.reading = [] ∧
      (∀ i < s.log.length, i ∈ s.delivered) ∧ s.room.mentionCount = 1 ∧
        s.countRoomMentions 1 = 0)) = true := by decide +kernel
  obtain ⟨s, hreach, htest⟩ := TransitionSystem.exists_of_run hrun quiet_init
  exact ⟨s, hreach, of_decide_eq_true htest⟩

end BadgeState

end Hibari
