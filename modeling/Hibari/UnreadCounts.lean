import Hibari.RoomLedger

/-!
# What the unread counter counts

The unread count of a member is the room's `last_user_seq` less the member's
`last_read_user_seq`. Each message has both numbers: its `seq`, and how many messages had
been counted when it was written, itself included. So the position by one number says the
position by the other (`Counted`), the two move together, and the difference is the number
of counted messages after the position (`RoomRun.unread_counts`).

What `MarkRoomRead` answers is a difference of two rows that it need not have seen at one
time: the room as its statement began, and the member's row as the statement got it. Where
the member has said something in between, that comes out as -1 (`answer_below_zero`).
-/

namespace Hibari

open List Option RoomRecord

/-! ## Two numbers of a message -/

/-- Whether a message counts: what users say in the channel, and a huddle in a DM. -/
def MessageFrame.counted (kind : RoomKind) (f : MessageFrame) : Bool :=
  (decide (f.kind = .user) && f.inChannel) ||
    (decide (kind = .roomDM) && decide (f.systemType = some .huddle))

/-- How many of the first messages count. -/
def countedUpTo (kind : RoomKind) (frames : List MessageFrame) (n : ℕ) : ℕ :=
  (frames.take n).countP (MessageFrame.counted kind)

/-- **The numbers of a room**: messages are numbered from one on, in order, and each has
the number of counted messages up to it; so has the room. -/
structure Counted (kind : RoomKind) (l : RoomLedger) : Prop where
  length_eq : l.room.lastMessageSeq = l.frames.length
  total : l.room.lastUserSeq = l.frames.countP (MessageFrame.counted kind)
  frame : ∀ i f, l.frames[i]? = some f →
    f.seq = i + 1 ∧ f.userSeq = countedUpTo kind l.frames (i + 1)

variable {kind : RoomKind} {l l' sn : RoomLedger} {w : LedgerWrite} {numbers : RoomRecord}
  {frames : List MessageFrame}

theorem countedUpTo_mono {m n : ℕ} (h : m ≤ n) :
    countedUpTo kind frames m ≤ countedUpTo kind frames n :=
  (take_sublist_take_left h).countP_le

theorem countedUpTo_max (m n : ℕ) : max (countedUpTo kind frames m) (countedUpTo kind frames n)
      = countedUpTo kind frames (max m n) := by
  rcases Nat.le_total m n with h | h
  · rw [max_eq_right h, max_eq_right (countedUpTo_mono h)]
  · rw [max_eq_left h, max_eq_left (countedUpTo_mono h)]

theorem countedUpTo_append {n : ℕ} (h : n ≤ frames.length) (more : List MessageFrame) :
    countedUpTo kind (frames ++ more) n = countedUpTo kind frames n := by
  unfold countedUpTo
  rw [take_append_of_le_length h]

/-- Rows that are numbered from one on come in the order of the numbers. -/
theorem filter_seq_le {α : Type*} {seq : α → ℕ} {rows : List α} {k : ℕ}
    (h : ∀ i x, rows[i]? = some x → seq x = k + i + 1) (n : ℕ) :
    rows.filter (fun x => decide (seq x ≤ k + n)) = rows.take n := by
  induction rows generalizing k n with
  | nil => rw [filter_nil, take_nil]
  | cons x rows ih =>
    have hx : seq x = k + 1 := h 0 x rfl
    have hrest : ∀ i y, rows[i]? = some y → seq y = (k + 1) + i + 1 := fun i y hy => by
      have hseq := h (i + 1) y hy
      omega
    cases n with
    | zero =>
      rw [take_zero, filter_eq_nil_iff]
      intro y hy
      have hle : k + 1 ≤ seq y := by
        rcases mem_cons.mp hy with rfl | hy
        · exact hx.ge
        · obtain ⟨i, hi⟩ := mem_iff_getElem?.mp hy
          have hseq := hrest i y hi
          omega
      rw [decide_eq_true_eq]
      omega
    | succ n =>
      have hstep := ih hrest n
      rw [take_succ_cons, filter_cons_of_pos (by rw [decide_eq_true_eq]; omega), ← hstep]
      congr 1
      refine filter_congr fun y _ => ?_
      rw [show k + (n + 1) = k + 1 + n from by omega]

namespace Counted

variable (h : Counted kind l)
include h

theorem getElem_messages {i : ℕ} {m : LedgerMessage} (hm : l.messages[i]? = some m) :
    m.seq = i + 1 ∧ m.userSeq = countedUpTo kind l.frames (i + 1) := by
  have hf : l.frames[i]? = some m.frame := by
    unfold RoomLedger.frames
    rw [getElem?_map, hm]
    rfl
  exact h.frame i m.frame hf

theorem filter_messages (n : ℕ) :
    l.messages.filter (fun m => decide (m.seq ≤ n)) = l.messages.take n := by
  have hrows := @filter_seq_le _ LedgerMessage.seq l.messages 0
    (fun i m hm => by rw [(h.getElem_messages hm).1, Nat.zero_add]) n
  simpa using hrows

omit h

theorem length_messages (l : RoomLedger) : l.messages.length = l.frames.length :=
  (length_map _).symm

include h

/-- **A position by one number says the position by the other.** -/
theorem userSeqAt_eq (n : ℕ) : RoomLedger.userSeqAt l.messages n = countedUpTo kind l.frames n := by
  have hlen := length_messages l
  unfold RoomLedger.userSeqAt
  rw [h.filter_messages]
  cases n with
  | zero =>
    rw [take_zero]
    rfl
  | succ k =>
    rw [getLast?_take, if_neg (Nat.succ_ne_zero k), Nat.add_sub_cancel]
    by_cases hk : k < l.messages.length
    · rw [getElem?_eq_getElem hk]
      exact (h.getElem_messages (getElem?_eq_getElem hk)).2
    · rw [getElem?_eq_none (not_lt.mp hk), none_or, getLast?_eq_getElem?]
      have hall : countedUpTo kind l.frames (k + 1) = countedUpTo kind l.frames l.messages.length := by
        unfold countedUpTo
        rw [take_of_length_le (by omega), take_of_length_le (by omega)]
      rw [hall]
      cases hz : l.messages.length with
      | zero =>
        rw [length_eq_zero_iff.mp hz]
        rfl
      | succ j =>
        have hj : j < l.messages.length := by omega
        rw [Nat.add_sub_cancel, getElem?_eq_getElem hj]
        exact (h.getElem_messages (getElem?_eq_getElem hj)).2

theorem total_eq : l.room.lastUserSeq = countedUpTo kind l.frames l.room.lastMessageSeq := by
  rw [h.total, h.length_eq]
  unfold countedUpTo
  rw [take_length]

/-- **What was counted after a position** is a difference. -/
theorem length_filter_after (n : ℕ) :
    (l.messages.filter (fun m => m.frame.counted kind && decide (n < m.seq))).length
      + countedUpTo kind l.frames n = l.room.lastUserSeq := by
  have hsplit : l.messages.countP (fun m => m.frame.counted kind)
      = (l.messages.filter (fun m => m.frame.counted kind && decide (n < m.seq))).length
        + (l.messages.filter (fun m => decide (m.seq ≤ n))).countP
            (fun m => m.frame.counted kind) := by
    rw [countP_filter, ← countP_eq_length_filter,
      countP_eq_countP_filter_add l.messages (fun m => m.frame.counted kind)
        (fun m => decide (n < m.seq)), countP_filter, countP_filter]
    congr 1
    refine countP_congr fun m _ => ?_
    simp [not_lt]
  have htotal : l.messages.countP (fun m => m.frame.counted kind) = l.room.lastUserSeq := by
    rw [h.total]
    unfold RoomLedger.frames
    rw [countP_map]
    rfl
  have htake : (l.messages.filter (fun m => decide (m.seq ≤ n))).countP
      (fun m => m.frame.counted kind) = countedUpTo kind l.frames n := by
    rw [h.filter_messages]
    unfold countedUpTo RoomLedger.frames
    rw [← map_take, countP_map]
    rfl
  rw [← htotal, hsplit, htake]

omit h

theorem empty : Counted kind .empty where
  length_eq := rfl
  total := rfl
  frame i f hf := absurd hf (by simp [RoomLedger.empty, RoomLedger.frames])

include h

/-- A message with the next numbers. -/
theorem snoc {f : MessageFrame} (hframes : l'.frames = l.frames ++ [f])
    (hseq : l'.room.lastMessageSeq = l.room.lastMessageSeq + 1)
    (huser : l'.room.lastUserSeq = l.room.lastUserSeq + if f.counted kind then 1 else 0)
    (hfseq : f.seq = l'.room.lastMessageSeq) (hfuser : f.userSeq = l'.room.lastUserSeq) :
    Counted kind l' := by
  have htotal : l'.room.lastUserSeq = l'.frames.countP (MessageFrame.counted kind) := by
    rw [huser, h.total, hframes, countP_append, countP_singleton]
  refine ⟨?_, htotal, fun i g hg => ?_⟩
  · rw [hseq, h.length_eq, hframes, length_append, length_singleton]
  · rw [hframes] at hg ⊢
    rcases Nat.lt_or_ge i l.frames.length with hi | hi
    · rw [getElem?_append_left hi] at hg
      rw [countedUpTo_append hi]
      exact h.frame i g hg
    · rw [getElem?_append_right hi] at hg
      have hzero : i - l.frames.length = 0 := by
        by_contra hne
        rw [getElem?_singleton, if_neg hne] at hg
        cases hg
      rw [hzero] at hg
      obtain rfl : f = g := some.inj hg
      have hlen : i = l.frames.length := by omega
      refine ⟨by rw [hfseq, hseq, h.length_eq, hlen], ?_⟩
      unfold countedUpTo
      rw [take_of_length_le (by rw [length_append, length_singleton, hlen]),
        ← hframes, ← htotal, hfuser]

theorem keep (hframes : l'.frames = l.frames)
    (hseq : l'.room.lastMessageSeq = l.room.lastMessageSeq)
    (huser : l'.room.lastUserSeq = l.room.lastUserSeq) : Counted kind l' where
  length_eq := by rw [hseq, hframes, h.length_eq]
  total := by rw [huser, hframes, h.total]
  frame i f hf := by
    rw [hframes] at hf ⊢
    exact h.frame i f hf

end Counted

variable {rm : RoomMember}

/-! ## Positions -/

/-- **A member is at a position**, by both numbers. -/
def AtPosition (kind : RoomKind) (l : RoomLedger) (rm : RoomMember) : Prop :=
  rm.lastReadSeq ≤ l.room.lastMessageSeq ∧
    rm.lastReadUserSeq = countedUpTo kind l.frames rm.lastReadSeq

/-- More messages leave a position where it is. -/
theorem AtPosition.grow (h : AtPosition kind l rm) (hl : Counted kind l)
    (hl' : Counted kind l') (hframes : l.frames <+: l'.frames) : AtPosition kind l' rm := by
  obtain ⟨more, hmore⟩ := hframes
  have hle : rm.lastReadSeq ≤ l.frames.length := by
    rw [← hl.length_eq]
    exact h.1
  refine ⟨?_, ?_⟩
  · rw [hl'.length_eq, ← hmore, length_append]
    exact hle.trans (Nat.le_add_right _ _)
  · rw [← hmore, countedUpTo_append hle, h.2]

/-- **A position that moves is a position**, also where it moves by what was seen
before. -/
theorem AtPosition.advanced (h : AtPosition kind l rm) (hl : Counted kind l)
    (hsn : Counted kind sn) (hframes : sn.frames <+: l.frames) (seq : ℕ) :
    AtPosition kind l (sn.advanced rm seq) := by
  obtain ⟨more, hmore⟩ := hframes
  have hle : min seq sn.room.lastMessageSeq ≤ sn.frames.length := by
    rw [← hsn.length_eq]
    exact min_le_right _ _
  refine ⟨max_le h.1 ?_, ?_⟩
  · rw [hl.length_eq, ← hmore, length_append]
    exact hle.trans (Nat.le_add_right _ _)
  · show max rm.lastReadUserSeq (RoomLedger.userSeqAt sn.messages _) = _
    rw [h.2, hsn.userSeqAt_eq, ← countedUpTo_append hle more, hmore, countedUpTo_max]
    rfl

/-- **The rows of a room as they should be.** -/
structure RoomLedger.Sound (kind : RoomKind) (l : RoomLedger) : Prop where
  counted : Counted kind l
  position : ∀ rm ∈ l.members, AtPosition kind l rm
  rows : (l.members.map RoomMember.row).Nodup
  row_lt : ∀ rm ∈ l.members, rm.row < l.memberRows

/-- **What one transaction does to them**: messages are added at the end, and every row of
a member is one that was there, at the same position or after it, or a new one. -/
structure RoomLedger.Keeps (kind : RoomKind) (l l' : RoomLedger) : Prop where
  sound : l'.Sound kind
  frames : l.frames <+: l'.frames
  members : ∀ rm' ∈ l'.members, l.memberRows ≤ rm'.row ∨ ∃ rm ∈ l.members,
    rm.row = rm'.row ∧ rm.lastReadSeq ≤ rm'.lastReadSeq ∧
      rm.lastReadUserSeq ≤ rm'.lastReadUserSeq
  memberRows_le : l.memberRows ≤ l'.memberRows

namespace RoomLedger

variable {actor clientMsgId id subject userId : Ulid} {type : SystemEventType}
    {archived removed : Bool} {rm : RoomMember}

theorem Keeps.trans {l'' : RoomLedger} (h : Keeps kind l l') (h' : Keeps kind l' l'') :
    Keeps kind l l'' where
  sound := h'.sound
  frames := h.frames.trans h'.frames
  memberRows_le := h.memberRows_le.trans h'.memberRows_le
  members rm'' hrm'' := by
    rcases h'.members rm'' hrm'' with hnew | ⟨rm', hrm', hrow', hseq', huser'⟩
    · exact .inl (h.memberRows_le.trans hnew)
    · rcases h.members rm' hrm' with hnew | ⟨rm, hrm, hrow, hseq, huser⟩
      · exact .inl (hrow' ▸ hnew)
      · exact .inr ⟨rm, hrm, hrow.trans hrow', hseq.trans hseq', huser.trans huser'⟩

variable (hs : Sound kind l)
include hs

/-- Positions are moved, each by its own rule. -/
theorem Keeps.of_map (hl' : Counted kind l') (hframes : l.frames <+: l'.frames)
    {f : RoomMember → RoomMember} (hmembers : l'.members = l.members.map f)
    (hrows : l'.memberRows = l.memberRows) (hrow : ∀ rm, (f rm).row = rm.row)
    (hseq : ∀ rm, rm.lastReadSeq ≤ (f rm).lastReadSeq)
    (huser : ∀ rm, rm.lastReadUserSeq ≤ (f rm).lastReadUserSeq)
    (hposition : ∀ rm, AtPosition kind l' rm → AtPosition kind l' (f rm)) : Keeps kind l l' := by
  have hsame : l'.members.map RoomMember.row = l.members.map RoomMember.row := by
    rw [hmembers, List.map_map]
    exact map_congr_left fun rm _ => hrow rm
  refine ⟨⟨hl', fun rm' hrm' => ?_, hsame ▸ hs.rows, fun rm' hrm' => ?_⟩, hframes,
    fun rm' hrm' => ?_, hrows.ge⟩
  · rw [hmembers] at hrm'
    obtain ⟨rm, hrm, rfl⟩ := List.mem_map.mp hrm'
    exact hposition rm ((hs.position rm hrm).grow hs.counted hl' hframes)
  · rw [hmembers] at hrm'
    obtain ⟨rm, hrm, rfl⟩ := List.mem_map.mp hrm'
    rw [hrow, hrows]
    exact hs.row_lt rm hrm
  · rw [hmembers] at hrm'
    obtain ⟨rm, hrm, rfl⟩ := List.mem_map.mp hrm'
    exact .inr ⟨rm, hrm, (hrow rm).symm, hseq rm, huser rm⟩

theorem Keeps.of_same (hframes : l'.frames = l.frames)
    (hseq : l'.room.lastMessageSeq = l.room.lastMessageSeq)
    (huser : l'.room.lastUserSeq = l.room.lastUserSeq) (hmembers : l'.members = l.members)
    (hrows : l'.memberRows = l.memberRows) : Keeps kind l l' :=
  .of_map hs (hs.counted.keep hframes hseq huser) (hframes ▸ prefix_rfl) (f := id)
    (hmembers.trans (List.map_id _).symm) hrows (fun _ => rfl) (fun _ => le_rfl) (fun _ => le_rfl)
    fun _ h => h

omit hs

/-- **The numbers of a message** that is inserted; a transaction that inserts none leaves
them. -/
theorem numbers_of_allocate (hadmits : l.admits w = true) (h : l.allocate kind w = some numbers)
    (hl' : l.written kind numbers w = some l') :
    (∀ p ∈ posted kind l numbers w, numbers.lastMessageSeq = l.room.lastMessageSeq + 1 ∧
      numbers.lastUserSeq = l.room.lastUserSeq + (if p.frame.counted kind then 1 else 0) ∧
      p.seq = numbers.lastMessageSeq ∧ p.userSeq = numbers.lastUserSeq) ∧
    (posted kind l numbers w = none → numbers.lastMessageSeq = l.room.lastMessageSeq ∧
      numbers.lastUserSeq = l.room.lastUserSeq) := by
  cases w with
  | sendMessage =>
    obtain rfl := eq_of_allocateMessageSeq h
    refine ⟨fun p hp => ?_, fun hnone => absurd hnone (by simp [posted])⟩
    cases hp
    exact ⟨rfl, rfl, rfl, rfl⟩
  | sendThreadReply _ _ _ root _ alsoInChannel =>
    obtain rfl := eq_of_allocateThreadReplySeq h
    refine ⟨fun p hp => ?_, fun hnone => ?_⟩
    · obtain ⟨m, -, rfl⟩ := map_eq_some_iff.mp hp
      refine ⟨rfl, ?_, rfl, rfl⟩
      cases alsoInChannel
      · show _ = _ + if ((false : Bool) || (decide (kind = .roomDM) && false)) = true then 1 else 0
        simp
      · rfl
    · have hroot : l.getMessage root = none := map_eq_none_iff.mp hnone
      simp [written, hroot] at hl'
  | touchHuddleMessage =>
    cases h
    exact ⟨fun p hp => absurd hp (by simp [posted]), fun _ => ⟨rfl, rfl⟩⟩
  | writeSystemMessage _ _ _ type =>
    cases h
    have htype : type ≠ .huddle := by simpa [admits] using hadmits
    refine ⟨fun p hp => ?_, fun hnone => absurd hnone (by simp [posted])⟩
    cases hp
    refine ⟨rfl, ?_, rfl, rfl⟩
    simp [RoomRecord.allocateSystemMessageSeq, systemMessage, LedgerMessage.frame,
      MessageFrame.counted, htype]
  | writeHuddleMessage =>
    refine ⟨fun p hp => ?_, fun hnone => absurd hnone (by simp [posted])⟩
    cases hp
    unfold allocate at h
    by_cases hkind : kind = .roomDM
    · rw [if_pos hkind] at h
      obtain rfl := eq_of_allocateMessageSeq h
      refine ⟨rfl, ?_, rfl, rfl⟩
      simp [systemMessage, LedgerMessage.frame, MessageFrame.counted, hkind]
    · rw [if_neg hkind] at h
      cases h
      refine ⟨rfl, ?_, rfl, rfl⟩
      simp [RoomRecord.allocateSystemMessageSeq, systemMessage, LedgerMessage.frame,
        MessageFrame.counted, hkind]
  | _ =>
    obtain rfl := eq_of_allocateChangeSeq h
    exact ⟨fun p hp => absurd hp (by simp [posted]), fun _ => ⟨rfl, rfl⟩⟩

/-! ### What each transaction does to the positions -/

theorem counted_of_written (hs : Counted kind l) (hadmits : l.admits w = true)
    (hnumbers : l.allocate kind w = some numbers) (h : l.written kind numbers w = some l') :
    Counted kind l' := by
  have hl' := written_leaves h
  obtain ⟨hsome, hnone⟩ := numbers_of_allocate hadmits hnumbers h
  cases hposted : posted kind l numbers w with
  | none =>
    have hframes := hl'.frames
    rw [hposted, map_none, toList_none, append_nil] at hframes
    obtain ⟨hseq, huser⟩ := hnone hposted
    exact hs.keep hframes (hl'.room ▸ hseq) (hl'.room ▸ huser)
  | some p =>
    have hframes := hl'.frames
    rw [hposted, map_some, toList_some] at hframes
    obtain ⟨hseq, huser, hpseq, hpuser⟩ := hsome p hposted
    exact hs.snoc hframes (hl'.room ▸ hseq) (hl'.room ▸ huser) (hl'.room ▸ hpseq)
      (hl'.room ▸ hpuser)

include hs

theorem keeps_written (hadmits : l.admits w = true)
    (hnumbers : l.allocate kind w = some numbers) (h : l.written kind numbers w = some l') :
    Keeps kind l l' := by
  have hcounted := counted_of_written hs.counted hadmits hnumbers h
  have hl' := written_leaves h
  refine .of_map hs hcounted ⟨_, hl'.frames.symm⟩ hl'.members hl'.memberRows (fun rm => ?_)
    (fun rm => ?_) (fun rm => ?_) fun rm hrm => ?_
  · split <;> rfl
  · split
    · exact le_max_left _ _
    · exact le_rfl
  · split
    · exact le_max_left _ _
    · exact le_rfl
  · split
    · exact hrm.advanced hcounted hcounted prefix_rfl _
    · exact hrm

theorem keeps_perform (h : l.perform kind w = some l') : Keeps kind l l' := by
  obtain ⟨numbers, hadmits, hnumbers, hwritten⟩ := perform_eq_some h
  exact keeps_written hs hadmits hnumbers hwritten

theorem keeps_logged (htype : type ≠ .huddle)
    (h : l.logged kind subject clientMsgId id type = some l') : Keeps kind l l' :=
  keeps_written (w := .writeSystemMessage subject clientMsgId id type) hs
    (by rw [admits, decide_eq_true_eq]; exact htype) rfl h

theorem keeps_addRoomMember (userId : Ulid) : Keeps kind l (l.addRoomMember userId) := by
  unfold addRoomMember
  split
  · exact .of_same hs rfl rfl rfl rfl rfl
  · refine ⟨⟨hs.counted.keep rfl rfl rfl, fun rm hrm => ?_, ?_, fun rm hrm => ?_⟩,
      prefix_rfl, fun rm hrm => ?_, Nat.le_succ _⟩
    · rcases mem_append.mp hrm with hrm | hrm
      · exact hs.position rm hrm
      · obtain rfl := mem_singleton.mp hrm
        exact ⟨le_rfl, hs.counted.total_eq⟩
    · rw [map_append, map_singleton]
      refine List.Nodup.append hs.rows (nodup_singleton _) fun row hrow hnew => ?_
      obtain ⟨rm, hrm, rfl⟩ := List.mem_map.mp hrow
      exact (hs.row_lt rm hrm).ne (mem_singleton.mp hnew)
    · rcases mem_append.mp hrm with hrm | hrm
      · exact (hs.row_lt rm hrm).trans (Nat.lt_succ_self _)
      · obtain rfl := mem_singleton.mp hrm
        exact Nat.lt_succ_self _
    · rcases mem_append.mp hrm with hrm | hrm
      · exact .inr ⟨rm, hrm, rfl, le_rfl, le_rfl⟩
      · obtain rfl := mem_singleton.mp hrm
        exact .inl le_rfl

theorem keeps_deleteRoomMember (userId : Ulid) : Keeps kind l (l.deleteRoomMember userId) := by
  refine ⟨⟨hs.counted.keep rfl rfl rfl, fun rm hrm => ?_, ?_, fun rm hrm => ?_⟩,
    prefix_rfl, fun rm hrm => ?_, le_rfl⟩
  · exact hs.position rm (mem_of_mem_filter hrm)
  · exact hs.rows.sublist (filter_sublist.map _)
  · exact hs.row_lt rm (mem_of_mem_filter hrm)
  · exact .inr ⟨rm, mem_of_mem_filter hrm, rfl, le_rfl, le_rfl⟩

theorem keeps_joinRoom (h : l.joinRoom kind userId clientMsgId id = some l') : Keeps kind l l' := by
  have hadd := keeps_addRoomMember hs userId
  unfold joinRoom at h
  split at h
  · cases h
  · split at h
    · rw [← some.inj h]
      exact hadd
    · exact hadd.trans (keeps_logged hadd.sound (by simp) h)

theorem keeps_leaveRoom
    (h : l.leaveRoom kind userId clientMsgId id removed = some l') : Keeps kind l l' := by
  have hdelete := keeps_deleteRoomMember hs userId
  unfold leaveRoom at h
  by_cases hif : (l.isMember userId && decide (kind ≠ .roomDM)) = true
  · rw [if_pos hif] at h
    exact hdelete.trans (keeps_logged hdelete.sound (by split <;> simp) h)
  · rw [if_neg hif] at h
    cases h

theorem keeps_setArchived
    (h : l.setArchived kind archived actor clientMsgId id = some l') : Keeps kind l l' := by
  unfold setArchived at h
  split at h
  · cases h
  · obtain ⟨l₁, hlogged, rfl⟩ := map_eq_some_iff.mp h
    have hkeeps := keeps_logged hs (by split <;> simp) hlogged
    exact hkeeps.trans (.of_same hkeeps.sound rfl rfl rfl rfl rfl)

/-! ### What a transaction adds -/

omit hs

/-- Who says something that counts has read it. -/
theorem reader_of_counted {p : LedgerMessage} (hadmits : l.admits w = true)
    (hp : p ∈ posted kind l numbers w) (hcounted : p.frame.counted kind = true) :
    reader kind w = some p.senderId := by
  cases w with
  | sendMessage =>
    cases hp
    rfl
  | sendThreadReply _ _ _ _ _ alsoInChannel =>
    obtain ⟨m, -, rfl⟩ := map_eq_some_iff.mp hp
    cases alsoInChannel
    · exact absurd hcounted (by simp [userMessage, LedgerMessage.frame, MessageFrame.counted])
    · rfl
  | writeSystemMessage _ _ _ type =>
    cases hp
    have htype : type ≠ .huddle := by simpa [admits] using hadmits
    exact absurd hcounted (by
      simp [systemMessage, LedgerMessage.frame, MessageFrame.counted, htype])
  | writeHuddleMessage =>
    cases hp
    by_cases hkind : kind = .roomDM
    · exact if_pos hkind
    · exact absurd hcounted (by
        simp [systemMessage, LedgerMessage.frame, MessageFrame.counted, hkind])
  | _ => exact absurd hp (by simp [posted])

/-- A transaction adds nothing that counts. -/
def Quiet (kind : RoomKind) (l l' : RoomLedger) : Prop :=
  ∀ f ∈ l'.frames, f ∉ l.frames → f.counted kind = false

theorem Quiet.of_frames (h : l'.frames = l.frames) : Quiet kind l l' :=
  fun f hf hnew => absurd (h ▸ hf) hnew

theorem quiet_logged
    (htype : type ≠ .huddle) (h : l.logged kind subject clientMsgId id type = some l') :
    Quiet kind l l' := by
  intro f hf hnew
  have hframes := (written_leaves h).frames
  rw [hframes] at hf
  obtain rfl : f = (systemMessage l.room.allocateSystemMessageSeq subject clientMsgId id type).frame
    := mem_singleton.mp ((mem_append.mp hf).resolve_left hnew)
  simp [systemMessage, LedgerMessage.frame, MessageFrame.counted, htype]

theorem frames_addRoomMember (userId : Ulid) : (l.addRoomMember userId).frames = l.frames := by
  unfold addRoomMember
  split <;> rfl

theorem quiet_joinRoom (h : l.joinRoom kind userId clientMsgId id = some l') : Quiet kind l l' := by
  unfold joinRoom at h
  split at h
  · cases h
  · split at h
    · rw [← some.inj h]
      exact .of_frames (frames_addRoomMember userId)
    · intro f hf hnew
      rw [← frames_addRoomMember userId] at hnew
      exact quiet_logged (by simp) h f hf hnew

theorem quiet_leaveRoom
    (h : l.leaveRoom kind userId clientMsgId id removed = some l') : Quiet kind l l' := by
  unfold leaveRoom at h
  by_cases hif : (l.isMember userId && decide (kind ≠ .roomDM)) = true
  · rw [if_pos hif] at h
    exact quiet_logged (l := l.deleteRoomMember userId) (by split <;> simp) h
  · rw [if_neg hif] at h
    cases h

theorem quiet_setArchived
    (h : l.setArchived kind archived actor clientMsgId id = some l') : Quiet kind l l' := by
  unfold setArchived at h
  split at h
  · cases h
  · obtain ⟨l₁, hlogged, rfl⟩ := map_eq_some_iff.mp h
    have htype : (if archived then SystemEventType.roomArchived else .roomUnarchived) ≠ .huddle := by
      split <;> simp
    intro f hf hnew
    exact quiet_logged htype hlogged f hf hnew

/-- The unread count of a member. -/
def unread (l : RoomLedger) (rm : RoomMember) : ℤ := (l.room.lastUserSeq : ℤ) - rm.lastReadUserSeq

theorem unread_nonneg (hs : Counted kind l) (h : AtPosition kind l rm) : 0 ≤ l.unread rm := by
  have hle : rm.lastReadUserSeq ≤ l.room.lastUserSeq := by
    rw [h.2, hs.total_eq]
    exact countedUpTo_mono h.1
  unfold unread
  omega

/-- **Who says something is up to date.** -/
theorem unread_of_reader {rm' : RoomMember} (hs : Sound kind l) (hadmits : l.admits w = true)
    (hnumbers : l.allocate kind w = some numbers) (h : l.written kind numbers w = some l')
    (hrm : rm ∈ l.members) (hrm' : rm' ∈ l'.members) (hrow : rm.row = rm'.row)
    (hreader : reader kind w = some rm.userId) : l'.unread rm' ≤ 0 := by
  have hcounted := counted_of_written hs.counted hadmits hnumbers h
  have hl' := written_leaves h
  rw [hl'.members] at hrm'
  obtain ⟨rm₀, hrm₀, rfl⟩ := List.mem_map.mp hrm'
  have hrow₀ : rm.row = rm₀.row := by
    rw [hrow]
    split <;> rfl
  obtain rfl : rm = rm₀ := inj_on_of_nodup_map hs.rows hrm hrm₀ hrow₀
  rw [if_pos hreader]
  have hlast : min numbers.lastMessageSeq l'.room.lastMessageSeq = l'.room.lastMessageSeq := by
    rw [hl'.room, min_self]
  have hle : l'.room.lastUserSeq ≤ (l'.advanced rm numbers.lastMessageSeq).lastReadUserSeq := by
    show _ ≤ max rm.lastReadUserSeq (userSeqAt l'.messages (min numbers.lastMessageSeq _))
    rw [hlast, hcounted.userSeqAt_eq, ← hcounted.total_eq]
    exact le_max_right _ _
  unfold unread
  omega

end RoomLedger

open RoomLedger

/-! ## Runs -/

namespace RoomRun

variable {s s' : RoomRun} {a : RoomRunAction} {p : PendingRead}

/-- The rows are as they should be, and who marks as read saw them as they once were. -/
structure Sound (kind : RoomKind) (s : RoomRun) : Prop where
  ledger : s.ledger.Sound kind
  pending : ∀ p ∈ s.pending, Counted kind p.seen ∧ p.seen.frames <+: s.ledger.frames

@[simp] theorem pending_mark (p : PendingRead) : (s.mark p).pending = s.pending := by
  unfold mark
  split <;> rfl

@[simp] theorem frames_mark (p : PendingRead) : (s.mark p).ledger.frames = s.ledger.frames := by
  unfold mark
  split <;> rfl

theorem keeps_mark (hs : s.ledger.Sound kind) (hp : Counted kind p.seen)
    (hframes : p.seen.frames <+: s.ledger.frames) :
    s.ledger.Keeps kind (s.mark p).ledger := by
  unfold mark
  split
  · have hcounted : Counted kind { s.ledger with
        members := s.ledger.members.map fun x =>
          if x.row = p.row then p.seen.advanced x p.seq else x } := hs.counted.keep rfl rfl rfl
    refine .of_map hs hcounted prefix_rfl rfl rfl (fun rm => ?_) (fun rm => ?_)
      (fun rm => ?_) fun rm hrm => ?_
    · split <;> rfl
    · split
      · exact le_max_left _ _
      · exact le_rfl
    · split
      · exact le_max_left _ _
      · exact le_rfl
    · split
      · exact hrm.advanced hcounted hp hframes _
      · exact hrm
  · exact .of_same hs rfl rfl rfl rfl rfl

/-- **What a step does to the positions**, and what `MarkRoomRead` sees where it begins. -/
theorem keeps_act (hs : s.Sound kind) (h : act kind s a = some s') :
    s.ledger.Keeps kind s'.ledger ∧ ∀ p ∈ s'.pending, p ∈ s.pending ∨ p.seen = s.ledger := by
  cases a with
  | write =>
    obtain ⟨l', hl', rfl⟩ := map_eq_some_iff.mp h
    exact ⟨keeps_perform hs.ledger hl', fun p hp => .inl hp⟩
  | joinRoom =>
    obtain ⟨l', hl', rfl⟩ := map_eq_some_iff.mp h
    exact ⟨keeps_joinRoom hs.ledger hl', fun p hp => .inl hp⟩
  | leaveRoom =>
    obtain ⟨l', hl', rfl⟩ := map_eq_some_iff.mp h
    exact ⟨keeps_leaveRoom hs.ledger hl', fun p hp => .inl hp⟩
  | leaveWorkspace userId =>
    cases h
    exact ⟨keeps_deleteRoomMember hs.ledger userId, fun p hp => .inl hp⟩
  | setArchived =>
    obtain ⟨l', hl', rfl⟩ := map_eq_some_iff.mp h
    exact ⟨keeps_setArchived hs.ledger hl', fun p hp => .inl hp⟩
  | markThreadRead =>
    cases h
    exact ⟨.of_same hs.ledger rfl rfl rfl rfl rfl, fun p hp => .inl hp⟩
  | followThread =>
    obtain ⟨l', hl', rfl⟩ := map_eq_some_iff.mp h
    refine ⟨?_, fun p hp => .inl hp⟩
    have hsame := sameButThreads_followFromNow hl'
    show s.ledger.Keeps kind l'
    rw [hsame]
    exact .of_same hs.ledger rfl rfl rfl rfl rfl
  | markRoomRead =>
    obtain ⟨rm, hrm, rfl⟩ := map_eq_some_iff.mp h
    refine ⟨.of_same hs.ledger rfl rfl rfl rfl rfl, fun p hp => ?_⟩
    rcases mem_append.mp hp with hp | hp
    · exact .inl hp
    · rw [mem_singleton.mp hp]
      exact .inr rfl
  | marked i =>
    unfold act at h
    cases hi : s.pending[i]? with
    | none => simp [hi] at h
    | some p =>
      simp only [hi] at h
      cases h
      obtain ⟨hcounted, hframes⟩ := hs.pending p (mem_of_getElem? hi)
      refine ⟨?_, fun q hq => .inl ?_⟩
      · exact keeps_mark (s := { s with pending := s.pending.eraseIdx i }) hs.ledger hcounted hframes
      · rw [pending_mark] at hq
        exact mem_of_mem_eraseIdx hq

theorem Sound.act (hs : s.Sound kind) (h : RoomRun.act kind s a = some s') : s'.Sound kind := by
  obtain ⟨hkeeps, hpending⟩ := keeps_act hs h
  refine ⟨hkeeps.sound, fun p hp => ?_⟩
  rcases hpending p hp with hp | hseen
  · obtain ⟨hcounted, hframes⟩ := hs.pending p hp
    exact ⟨hcounted, hframes.trans hkeeps.frames⟩
  · rw [hseen]
    exact ⟨hs.ledger.counted, hkeeps.frames⟩

/-- A step other than a transaction that writes messages adds nothing that counts. -/
theorem quiet_act (ha : ∀ w, a ≠ .write w) (h : act kind s a = some s') :
    s.ledger.Quiet kind s'.ledger := by
  cases a with
  | write w => exact absurd rfl (ha w)
  | joinRoom =>
    obtain ⟨l', hl', rfl⟩ := map_eq_some_iff.mp h
    exact quiet_joinRoom hl'
  | leaveRoom =>
    obtain ⟨l', hl', rfl⟩ := map_eq_some_iff.mp h
    exact quiet_leaveRoom hl'
  | setArchived =>
    obtain ⟨l', hl', rfl⟩ := map_eq_some_iff.mp h
    exact quiet_setArchived hl'
  | followThread =>
    obtain ⟨l', hl', rfl⟩ := map_eq_some_iff.mp h
    have hsame := sameButThreads_followFromNow hl'
    refine .of_frames ?_
    show l'.frames = s.ledger.frames
    rw [hsame]
    rfl
  | markRoomRead =>
    obtain ⟨rm, hrm, rfl⟩ := map_eq_some_iff.mp h
    exact .of_frames rfl
  | marked i =>
    unfold act at h
    cases hi : s.pending[i]? with
    | none => simp [hi] at h
    | some p =>
      simp only [hi] at h
      cases h
      exact .of_frames (frames_mark p)
  | _ =>
    cases h
    exact .of_frames rfl

/-- **What one says oneself is read.** -/
theorem unread_own (hs : s.Sound kind) (h : act kind s a = some s') {rm rm' : RoomMember}
    (hrm : rm ∈ s.ledger.members) (hrm' : rm' ∈ s'.ledger.members) (hrow : rm.row = rm'.row)
    {m : LedgerMessage} (hm : m ∈ s'.ledger.messages) (hnew : m.frame ∉ s.ledger.frames)
    (hcounted : m.frame.counted kind = true) (hsender : m.senderId = rm.userId) :
    s'.ledger.unread rm' ≤ s.ledger.unread rm := by
  have hf : m.frame ∈ s'.ledger.frames := List.mem_map_of_mem hm
  by_cases ha : ∀ w, a ≠ .write w
  · have hquiet := quiet_act ha h m.frame hf hnew
    exact absurd hcounted (by simp [hquiet])
  · obtain ⟨w, rfl⟩ : ∃ w, a = .write w := by
      by_contra hne
      exact ha fun w hw => hne ⟨w, hw⟩
    obtain ⟨l', hl', rfl⟩ := map_eq_some_iff.mp h
    obtain ⟨numbers, hadmits, hnumbers, hwritten⟩ := perform_eq_some hl'
    have hleaves := written_leaves hwritten
    have hposted : ∃ p ∈ RoomLedger.posted kind s.ledger numbers w, p.frame = m.frame := by
      rw [hleaves.frames] at hf
      have hlast := (mem_append.mp hf).resolve_left hnew
      rw [mem_toList] at hlast
      obtain ⟨p, hp, hpf⟩ := map_eq_some_iff.mp hlast
      exact ⟨p, hp, hpf⟩
    obtain ⟨p, hp, hpf⟩ := hposted
    have hreader : RoomLedger.reader kind w = some rm.userId := by
      have hps : p.senderId = m.senderId := congrArg MessageFrame.senderId hpf
      rw [← hsender, ← hps]
      exact reader_of_counted hadmits hp (hpf ▸ hcounted)
    calc l'.unread rm' ≤ 0 :=
          unread_of_reader hs.ledger hadmits hnumbers hwritten hrm hrm' hrow hreader
      _ ≤ s.ledger.unread rm :=
          unread_nonneg hs.ledger.counted (hs.ledger.position rm hrm)

/-! ## What is answered -/

/-- **When `MarkRoomRead` gets the row**, the position in it is not one that its statement
did not see yet: the member has not read further, nor said anything, than the room was when
the statement began. -/
def Safe (s : RoomRun) : RoomRunAction → Prop
  | .marked i => ∀ p ∈ s.pending[i]?, ∀ rm ∈ s.ledger.members, rm.row = p.row →
      rm.lastReadUserSeq ≤ p.seen.room.lastUserSeq
  | _ => True

instance (s : RoomRun) (a : RoomRunAction) : Decidable (Safe s a) := by
  unfold Safe
  split <;> infer_instance

/-- What was answered is never negative. -/
def AnswersNonneg (s : RoomRun) : Prop := ∀ r ∈ s.answers, 0 ≤ r.unreadCount

theorem answersNonneg_mark (h : s.AnswersNonneg) (hp : Counted kind p.seen)
    (hsafe : ∀ rm ∈ s.ledger.members, rm.row = p.row →
      rm.lastReadUserSeq ≤ p.seen.room.lastUserSeq) : (s.mark p).AnswersNonneg := by
  unfold mark
  split
  · next rm hrm =>
    intro r hr
    rcases mem_append.mp hr with hr | hr
    · exact h r hr
    · obtain rfl := mem_singleton.mp hr
      have hrow : rm.row = p.row := by simpa using find?_some hrm
      have hread := hsafe rm (mem_of_find?_eq_some hrm) hrow
      have hle : RoomLedger.userSeqAt p.seen.messages (min p.seq p.seen.room.lastMessageSeq)
          ≤ p.seen.room.lastUserSeq := by
        rw [hp.userSeqAt_eq, hp.total_eq]
        exact countedUpTo_mono (min_le_right _ _)
      have hmax : (p.seen.advanced rm p.seq).lastReadUserSeq ≤ p.seen.room.lastUserSeq :=
        max_le hread hle
      show (0 : ℤ) ≤ p.seen.room.lastUserSeq - (p.seen.advanced rm p.seq).lastReadUserSeq
      omega
  · exact h

theorem answersNonneg_act (hs : s.Sound kind) (hanswers : s.AnswersNonneg) (hsafe : Safe s a)
    (h : act kind s a = some s') : s'.AnswersNonneg := by
  by_cases ha : ∃ i, a = .marked i
  · obtain ⟨i, rfl⟩ := ha
    unfold act at h
    cases hi : s.pending[i]? with
    | none => simp [hi] at h
    | some p =>
      simp only [hi] at h
      cases h
      have hp := (hs.pending p (mem_of_getElem? hi)).1
      exact answersNonneg_mark (s := { s with pending := s.pending.eraseIdx i }) hanswers hp
        (hsafe p hi)
  · have hsame : s'.answers = s.answers := by
      cases a with
      | marked i => exact absurd ⟨i, rfl⟩ ha
      | leaveWorkspace | markThreadRead =>
        cases h
        rfl
      | _ =>
        obtain ⟨x, -, rfl⟩ := map_eq_some_iff.mp h
        rfl
    unfold AnswersNonneg
    rw [hsame]
    exact hanswers

theorem sound_of_init (h : (system kind).init s) : s.Sound kind := by
  rw [show s = ⟨.empty, [], []⟩ from h]
  refine ⟨⟨.empty, fun rm hrm => ?_, nodup_nil, fun rm hrm => ?_⟩, fun p hp => ?_⟩
  · exact absurd hrm (by simp [RoomLedger.empty])
  · exact absurd hrm (by simp [RoomLedger.empty])
  · cases hp

/-- **The unread counter counts what it says.** In every run the two numbers of messages go
together, what a member has not read is the number of counted messages after the member's
position, the position only moves forward, and what one says oneself makes one's own count
no larger. What is answered to `MarkRoomRead` is not negative in a run in which its
statement never gets a row that is ahead of what it sees. -/
theorem unread_counts (h : (system kind).ReachableBy Safe s) :
    (∀ m ∈ s.ledger.messages, ∀ m' ∈ s.ledger.messages, m.seq ≤ m'.seq → m.userSeq ≤ m'.userSeq) ∧
    (∀ rm ∈ s.ledger.members,
      s.ledger.unread rm = ((s.ledger.messages.filter
        (fun m => m.frame.counted kind && decide (rm.lastReadSeq < m.seq))).length : ℤ)) ∧
    (∀ rm ∈ s.ledger.members, 0 ≤ s.ledger.unread rm) ∧
    (∀ r ∈ s.answers, 0 ≤ r.unreadCount) ∧
    ∀ a s', (system kind).step s a = some s' →
      ∀ rm ∈ s.ledger.members, ∀ rm' ∈ s'.ledger.members, rm.row = rm'.row →
        rm.lastReadSeq ≤ rm'.lastReadSeq ∧ rm.lastReadUserSeq ≤ rm'.lastReadUserSeq ∧
        ((∃ m ∈ s'.ledger.messages, m.frame ∉ s.ledger.frames ∧ m.frame.counted kind = true ∧
          m.senderId = rm.userId) → s'.ledger.unread rm' ≤ s.ledger.unread rm) := by
  obtain ⟨hs, hanswers⟩ := h.invariant (I := fun s => s.Sound kind ∧ s.AnswersNonneg)
    (fun s hinit => ⟨sound_of_init hinit, by
      rw [show s = ⟨.empty, [], []⟩ from hinit]
      exact fun r hr => nomatch hr⟩)
    fun s a s' hs hsafe hstep => ⟨hs.1.act hstep, answersNonneg_act hs.1 hs.2 hsafe hstep⟩
  have hcounted := hs.ledger.counted
  refine ⟨fun m hm m' hm' hle => ?_, fun rm hrm => ?_, fun rm hrm => ?_, hanswers,
    fun a s' hstep rm hrm rm' hrm' hrow => ?_⟩
  · obtain ⟨i, hi⟩ := mem_iff_getElem?.mp hm
    obtain ⟨j, hj⟩ := mem_iff_getElem?.mp hm'
    obtain ⟨hseq, huser⟩ := hcounted.getElem_messages hi
    obtain ⟨hseq', huser'⟩ := hcounted.getElem_messages hj
    rw [huser, huser']
    exact countedUpTo_mono (by omega)
  · have hafter := hcounted.length_filter_after rm.lastReadSeq
    have huser := (hs.ledger.position rm hrm).2
    unfold RoomLedger.unread
    omega
  · exact unread_nonneg hcounted (hs.ledger.position rm hrm)
  · have hkeeps := (keeps_act hs hstep).1
    rcases hkeeps.members rm' hrm' with hnew | ⟨rm₀, hrm₀, hrow₀, hseq, huser⟩
    · have hlt := hs.ledger.row_lt rm hrm
      omega
    · obtain rfl : rm₀ = rm :=
        inj_on_of_nodup_map hs.ledger.rows hrm₀ hrm (hrow₀.trans hrow.symm)
      refine ⟨hseq, huser, ?_⟩
      rintro ⟨m, hm, hnew, hmc, hsender⟩
      exact unread_own hs hstep hrm hrm' hrow hm hnew hmc hsender

/-- A member marks a message as read while another one is sent. -/
theorem unread_counts_channel :
    ∃ s, (system .roomPublic).ReachableBy Safe s ∧ s.answers = [⟨3, 1, 0⟩] ∧
      s.ledger.room.lastUserSeq = 2 ∧
      (∀ rm ∈ s.ledger.members, 0 ≤ s.ledger.unread rm) ∧ ∀ r ∈ s.answers, 0 ≤ r.unreadCount := by
  have hrun : ((system .roomPublic).runBy Safe ⟨.empty, [], []⟩
      [.joinRoom 1 71 81, .joinRoom 2 72 82, .write (.sendMessage 1 73 83 "hello"),
        .markRoomRead 2 9, .write (.sendMessage 1 74 84 "so"), .marked 0]).any
      (fun s => decide (s.answers = [⟨3, 1, 0⟩] ∧ s.ledger.room.lastUserSeq = 2)) = true := by
    decide +kernel
  obtain ⟨s, hreachable, htest⟩ := TransitionSystem.exists_of_runBy hrun rfl
  obtain ⟨hanswers, hlast⟩ := of_decide_eq_true htest
  obtain ⟨-, -, hunread, hanswered, -⟩ := unread_counts hreachable
  exact ⟨s, hreachable, hanswers, hlast, hunread, hanswered⟩

/-- **The answer is below zero** where a member sends a message while the member's other tab
marks the room as read: the statement waits for the row that the message moves forward, and
sees the room as it was before the message. -/
theorem answer_below_zero :
    ∃ s, (system .roomPublic).Reachable s ∧ s.answers = [⟨2, 1, -1⟩] := by
  have hrun : ((system .roomPublic).run ⟨.empty, [], []⟩
      [.joinRoom 1 71 81, .markRoomRead 1 1, .write (.sendMessage 1 72 82 "hello"),
        .marked 0]).any (fun s => decide (s.answers = [⟨2, 1, -1⟩])) = true := by decide +kernel
  obtain ⟨s, hreach, htest⟩ := TransitionSystem.exists_of_run hrun rfl
  exact ⟨s, hreach, of_decide_eq_true htest⟩

end RoomRun

end Hibari
